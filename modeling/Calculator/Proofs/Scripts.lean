/-
  A file of expressions and a session beside each other.

  Problem: the same text can be evaluated from a file, line by line, or be typed into a session.
  The two read lines in different ways.  Show that they come to the same expressions and the same
  answers, whatever the text is, as long as no line of it leaves the session.

  1. **Two readers** — `Text.readLines` takes a line together with the mark that ends it, so that
     nothing of the text is lost; `Text.bareLines` takes it without the mark, and without one
     carriage return in front of that.  What is taken off, or left on, is blank.  So the lines are
     the same when they are trimmed (`Text.trim_readLines`, `Text.trim_bareLines`).

  2. **Bytes (`Text.SplitsAt.encoded`)** — a session reads bytes, and its mark is a byte.  No other
     character has this byte in its encoding, so the lines of the bytes are the bytes of the lines.

  3. **A fold over the answers (`Outcome.foldl_add`)** — every answer adds its line to one of the
     two outputs of the program, and a fault sets the status for good.

  4. **Result (`script_answered_as_session`)** — the file and the session evaluate the same
     expressions.  The file has the values in one output and the messages in the other, and a status
     that tells whether there is a message.  The session has both among its prompts, in the same
     order.
-/
import Calculator.CommandLine.Program
import Calculator.Proofs.Transcript
import Mathlib.Data.List.Forall2

namespace Calculator

/-! ## Two readers -/

namespace Text

variable {α : Type} [DecidableEq α]

/-- The lines of a text with their marks, given those of all that follows its first item. -/
def readStep (mark x : α) (following : List (List α)) : List (List α) :=
  if x = mark then [x] :: following
  else match following with
    | [] => [[x]]
    | line :: rest => (x :: line) :: rest

/-- The lines of a text, each with the mark that ends it.  The last one need not have a mark. -/
def readLines (mark : α) (text : List α) : List (List α) := text.foldr (readStep mark) []

theorem readLines_cons (mark x : α) (text : List α) :
    readLines mark (x :: text) = readStep mark x (readLines mark text) := rfl

/-- Nothing is lost. -/
theorem flatten_readLines (mark : α) (text : List α) : (readLines mark text).flatten = text := by
  induction text with
  | nil => rfl
  | cons x text ih =>
    rw [readLines_cons, readStep.eq_def]
    split
    · rw [List.flatten_cons, ih]
      rfl
    · split
      · next hnil =>
        rw [hnil] at ih
        rw [← ih]
        rfl
      · next line rest hcons =>
        rw [hcons] at ih
        rw [← ih]
        rfl

/-- A line with its mark is the line, and the mark behind it if there is one. -/
def Marked (mark : α) (read line : List α) : Prop := read = line ∨ read = line ++ [mark]

/-- Lines are read one for one. -/
theorem marked_readLines (mark : α) (text : List α) :
    List.Forall₂ (Marked mark) (readLines mark text) (lines mark text) := by
  induction text with
  | nil => exact .nil
  | cons x text ih =>
    rw [readLines_cons, lines_cons, readStep.eq_def, lineStep.eq_def]
    generalize readLines mark text = read at ih ⊢
    generalize lines mark text = lines at ih ⊢
    by_cases hx : x = mark
    · rw [if_pos hx, if_pos hx, hx]
      exact .cons (.inr rfl) ih
    · rw [if_neg hx, if_neg hx]
      cases ih with
      | nil => exact .cons (.inl rfl) .nil
      | cons hline hrest =>
        refine .cons ?_ hrest
        rcases hline with rfl | rfl
        · exact .inl rfl
        · exact .inr rfl

/-- A line without a carriage return at its end. -/
def chomp (line : List Char) : List Char :=
  if line.getLast? = some '\r' then line.dropLast else line

/-- The lines of a text without what ends them: a line feed, with or without a carriage return in
    front of it. -/
def bareLines (text : List Char) : List (List Char) := (lines '\n' text).map chomp

/-- A blank behind a text does not survive trimming. -/
theorem trim_append_of_isBlank {cs : List Char} {c : Char} (h : isBlank c) :
    trim (cs ++ [c]) = trim cs := by
  induction cs with
  | nil => simp [trim, h]
  | cons d cs ih =>
    by_cases hd : isBlank d
    · rw [List.cons_append, trim_cons_of_isBlank hd, trim_cons_of_isBlank hd, ih]
    · simp [trim, hd, h]

theorem trim_of_marked {read line : List Char} (h : Marked '\n' read line) :
    trim read = trim line := by
  rcases h with rfl | rfl
  · rfl
  · exact trim_append_of_isBlank (by decide)

theorem trim_chomp (line : List Char) : trim (chomp line) = trim line := by
  rw [chomp]
  split
  · next hlast =>
    obtain ⟨front, rfl⟩ := List.getLast?_eq_some_iff.1 hlast
    rw [List.dropLast_concat, trim_append_of_isBlank (by decide)]
  · rfl

/-- **Trimmed, the lines with their marks are the lines.** -/
theorem trim_readLines (text : List Char) :
    (readLines '\n' text).map trim = (lines '\n' text).map trim := by
  have h := marked_readLines '\n' text
  generalize readLines '\n' text = read at h ⊢
  generalize lines '\n' text = lines at h ⊢
  induction h with
  | nil => rfl
  | cons hline _ ih => rw [List.map_cons, List.map_cons, trim_of_marked hline, ih]

/-- **So are the lines without what ends them.** -/
theorem trim_bareLines (text : List Char) :
    (bareLines text).map trim = (lines '\n' text).map trim := by
  rw [bareLines, List.map_map]
  exact List.map_congr_left fun line _ => trim_chomp line

/-! ## Bytes -/

/-- The bytes of some characters. -/
def encoded (cs : List Char) : List UInt8 := cs.flatMap String.utf8EncodeChar

/-- They are those of the text. -/
theorem toList_toUTF8 (text : String) : text.toUTF8.data.toList = encoded text.toList := by
  have h : text.toUTF8 = text.toList.utf8Encode := String.utf8Encode_toList.symm
  rw [h, List.utf8Encode, List.toList_data_toByteArray]
  rfl

/-- The byte of the line feed encodes nothing else. -/
theorem not_mem_utf8EncodeChar {c : Char} (h : c ≠ '\n') : 10 ∉ String.utf8EncodeChar c := by
  have hne : c.val.toNat ≠ 10 := fun heq => h (Char.ext (UInt32.toNat_inj.1 heq))
  have hcons : ∀ {n : Nat} {bytes : List UInt8}, n % 256 ≠ 10 → 10 ∉ bytes →
      10 ∉ UInt8.ofNat n :: bytes := by
    intro n bytes hn hbytes hmem
    rcases List.mem_cons.1 hmem with hbyte | hmem
    · have hnat := congrArg UInt8.toNat hbyte
      rw [UInt8.toNat_ofNat'] at hnat
      exact hn hnat.symm
    · exact hbytes hmem
  rw [String.utf8EncodeChar]
  -- all bytes of a character that takes several are from 128 on
  split
  · exact hcons (by omega) List.not_mem_nil
  split
  · exact hcons (by omega) (hcons (by omega) List.not_mem_nil)
  split
  · exact hcons (by omega) (hcons (by omega) (hcons (by omega) List.not_mem_nil))
  · exact hcons (by omega) (hcons (by omega) (hcons (by omega) (hcons (by omega)
      List.not_mem_nil)))

/-- **Lines of characters are lines of bytes.** -/
theorem SplitsAt.encoded {text : List Char} {lines : List (List Char)}
    (h : SplitsAt '\n' text lines) : SplitsAt 10 (encoded text) (lines.map encoded) := by
  have hmark : ∀ {line : List Char}, '\n' ∉ line → 10 ∉ Text.encoded line := by
    intro line hline hmem
    obtain ⟨c, hc, hbyte⟩ := List.mem_flatMap.1 hmem
    exact not_mem_utf8EncodeChar (fun heq => hline (heq ▸ hc)) hbyte
  induction h with
  | nil => exact .nil
  | @unended line hline hne =>
    refine .unended (hmark hline) fun hnil => ?_
    obtain ⟨c, cs, rfl⟩ := List.exists_cons_of_ne_nil hne
    exact String.utf8EncodeChar_ne_nil (List.flatMap_eq_nil_iff.1 hnil c List.mem_cons_self)
  | @ended line rest lines hline _ ih =>
    have happend : Text.encoded (line ++ '\n' :: rest) =
        Text.encoded line ++ 10 :: Text.encoded rest := List.flatMap_append
    rw [happend]
    exact .ended (hmark hline) ih

/-- The lines of a text, as a session reads them. -/
theorem inputLines_toUTF8 (text : String) :
    Shell.inputLines text.toUTF8 =
      (lines '\n' text.toList).map fun line => (String.ofList line).toUTF8 := by
  refine Shell.inputLines_of_splitsAt ?_
  have hbytes : ((fun line : ByteArray => line.data.toList) ∘ fun line =>
      (String.ofList line).toUTF8) = encoded := by
    funext line
    show (String.ofList line).toUTF8.data.toList = _
    rw [toList_toUTF8, String.toList_ofList]
  rw [List.map_map, hbytes, toList_toUTF8]
  exact (splitsAt_lines '\n' text.toList).encoded

end Text

/-- Whether a text leaves a session can be decided. -/
instance (text : String) : Decidable (Shell.IsExit text) := inferInstanceAs (Decidable (_ = _))

/-! ## Answers -/

namespace CommandLine

open Shell

variable {settings : Settings} {answers : List (Except Fault Binary64)}

/-- The values among some answers. -/
def values (answers : List (Except Fault Binary64)) : List Binary64 :=
  answers.filterMap Except.toOption

/-- The faults among some answers. -/
def faults (answers : List (Except Fault Binary64)) : List Fault :=
  answers.filterMap fun
    | .ok _ => none
    | .error fault => some fault

/-- Texts, each of them on a line. -/
def onLines (texts : List String) : String := String.join (texts.map (· ++ "\n"))

theorem onLines_cons (text : String) (texts : List String) :
    onLines (text :: texts) = text ++ "\n" ++ onLines texts := by
  rw [onLines, List.map_cons, String.join_cons]
  rfl

/-- Texts that do not break their lines are the lines. -/
theorem lines_onLines {texts : List String} (h : ∀ text ∈ texts, Text.Unbroken text.toList) :
    Text.lines '\n' (onLines texts).toList = texts.map String.toList := by
  induction texts with
  | nil => rfl
  | cons text texts ih =>
    have hbare : '\n' ∉ text.toList := fun hmem => (h text List.mem_cons_self _ hmem).1 rfl
    have hmark : (text ++ "\n" ++ onLines texts).toList =
        text.toList ++ '\n' :: (onLines texts).toList := by
      simp only [String.toList_append, List.append_assoc]
      rfl
    rw [onLines_cons, hmark, Text.lines_append_mark hbare,
      ih fun other hmem => h other (List.mem_cons_of_mem _ hmem), List.map_cons]

/-- What is left behind when these are all the answers: the values in one output, the messages in
    the other, and a status that tells whether there is a message. -/
def Outcome.ofAnswers (answers : List (Except Fault Binary64)) : Outcome where
  status := if faults answers = [] then 0 else 1
  output := (onLines ((values answers).map Binary64.text)).toUTF8
  errors := (onLines ((faults answers).map Fault.message)).toUTF8

/-- What is evaluated of some lines: those that are not blank, without the blanks around them. -/
def expressionsIn (lines : List (List Char)) : List String :=
  ((lines.map Text.trim).filter (· ≠ [])).map String.ofList

/-- The answers to these expressions. -/
def answersTo (settings : Settings) (lines : List (List Char)) : List (Except Fault Binary64) :=
  (expressionsIn lines).map (evaluateWith settings)

/-- What a session writes about an answer. -/
def replyText : Except Fault Binary64 → String
  | .ok value => "Result: " ++ value.text
  | .error fault => fault.message

/-- What a session writes behind the prompt for a line: its answer on a line, or nothing if there is
    no answer. -/
def reply (settings : Settings) (line : List Char) : String :=
  onLines ((answersTo settings [line]).map replyText)

theorem expressionsIn_nil : expressionsIn [] = [] := rfl

/-- Nothing of a blank line is evaluated. -/
theorem expressionsIn_cons_of_blank {line : List Char} (lines : List (List Char))
    (h : Text.trim line = []) : expressionsIn (line :: lines) = expressionsIn lines := by
  simp [expressionsIn, h]

/-- Any other line is evaluated without the blanks around it. -/
theorem expressionsIn_cons {line : List Char} (lines : List (List Char))
    (h : Text.trim line ≠ []) :
    expressionsIn (line :: lines) = String.ofList (Text.trim line) :: expressionsIn lines := by
  simp [expressionsIn, h]

/-! ## The file -/

/-- **Every answer adds its line to one of the outputs**, and a fault sets the status for good. -/
theorem Outcome.foldl_add (outcome : Outcome) :
    answers.foldl Outcome.add outcome =
      ⟨if faults answers = [] then outcome.status else 1,
        outcome.output ++ (onLines ((values answers).map Binary64.text)).toUTF8,
        outcome.errors ++ (onLines ((faults answers).map Fault.message)).toUTF8⟩ := by
  induction answers generalizing outcome with
  | nil =>
    have hnothing : ∀ bytes : ByteArray, bytes ++ (onLines []).toUTF8 = bytes := fun _ =>
      ByteArray.append_empty
    show outcome = ⟨_, outcome.output ++ (onLines []).toUTF8, outcome.errors ++ (onLines []).toUTF8⟩
    rw [hnothing, hnothing]
    rfl
  | cons answer answers ih =>
    rw [List.foldl_cons, ih]
    cases answer with
    | ok value =>
      have hvalues : values (.ok value :: answers) = value :: values answers := rfl
      have hfaults : faults (.ok value :: answers) = faults answers := rfl
      rw [hvalues, hfaults, List.map_cons, onLines_cons, ← append_toUTF8]
      rfl
    | error fault =>
      have hvalues : values (.error fault :: answers) = values answers := rfl
      have hfaults : faults (.error fault :: answers) = fault :: faults answers := rfl
      have hstatus : (if fault :: faults answers = [] then outcome.status else 1) = 1 :=
        if_neg (List.cons_ne_nil _ _)
      have hset : (outcome.add (.error fault)).status = 1 := rfl
      rw [hvalues, hfaults, hstatus, hset, ite_self, List.map_cons, onLines_cons, ← append_toUTF8]
      rfl

/-- A text is evaluated line by line. -/
theorem evaluateLines_eq (settings : Settings) (text : String) :
    evaluateLines settings text = .ofAnswers (answersTo settings (Text.bareLines text.toList)) := by
  have hanswers : (expressions text).map (evaluateWith settings) =
      answersTo settings (Text.bareLines text.toList) := by
    rw [answersTo, expressionsIn, Text.trim_bareLines]
    rfl
  rw [evaluateLines, hanswers, Outcome.foldl_add, Outcome.ofAnswers, ByteArray.empty_append,
    ByteArray.empty_append]

/-! ## The session -/

/-- A text that is written out in bytes is read back. -/
theorem fromUTF8?_toUTF8 (text : String) : String.fromUTF8? text.toUTF8 = some text := by
  rw [String.toUTF8_eq_toByteArray, String.fromUTF8?, dif_pos text.isValidUTF8]
  rfl

/-- Nothing is said about a blank line. -/
theorem reply_of_blank {line : List Char} (h : Text.trim line = []) : reply settings line = "" := by
  rw [reply, answersTo, expressionsIn_cons_of_blank [] h]
  rfl

/-- Any other line is answered. -/
theorem reply_of_not_blank {line : List Char} (h : Text.trim line ≠ []) :
    reply settings line =
      replyText (evaluateWith settings (.ofList (Text.trim line))) ++ "\n" := by
  rw [reply, answersTo, expressionsIn_cons [] h, expressionsIn_nil, List.map_singleton,
    List.map_singleton, onLines_cons]
  exact String.append_empty

/-- A line is answered by its reply. -/
theorem exchange_toUTF8 (settings : Settings) (line : List Char) :
    exchange settings (String.ofList line).toUTF8 = prompt ++ reply settings line := by
  rw [exchange, fromUTF8?_toUTF8]
  simp only [String.toList_ofList]
  by_cases hblank : Text.trim line = []
  · rw [if_pos hblank, reply_of_blank hblank, String.append_empty]
  · rw [if_neg hblank, reply_of_not_blank hblank, answer]
    rcases evaluateWith settings (.ofList (Text.trim line)) with fault | value
    · rfl
    · rfl

/-- Lines that are the same when they are trimmed have the same replies. -/
theorem map_reply_congr {lines lines' : List (List Char)}
    (h : lines.map Text.trim = lines'.map Text.trim) :
    lines.map (reply settings) = lines'.map (reply settings) := by
  have hreply : reply settings = (fun expression : List Char => onLines
      (((([expression].filter (· ≠ [])).map String.ofList).map (evaluateWith settings)).map
        replyText)) ∘ Text.trim := rfl
  rw [hreply, ← List.map_map, h, List.map_map]

/-- A session over a text that does not leave it gives the replies to all lines. -/
theorem runShell_toUTF8 {text : String}
    (hexit : ∀ line ∈ Text.lines '\n' text.toList, ¬ IsExit (String.ofList line)) :
    runShell settings text.toUTF8 =
      ⟨0, (String.join (((Text.readLines '\n' text.toList).map (reply settings)).map
        (prompt ++ ·)) ++ (prompt ++ "\n")).toUTF8, .empty⟩ := by
  have hordinary : ∀ line ∈ inputLines text.toUTF8, Ordinary line := by
    rw [Text.inputLines_toUTF8]
    intro line hline
    obtain ⟨cs, hcs, rfl⟩ := List.mem_map.1 hline
    exact ⟨String.ofList cs, fromUTF8?_toUTF8 _, hexit cs hcs⟩
  have hexchanges : exchanges settings (inputLines text.toUTF8) = String.join
      (((Text.readLines '\n' text.toList).map (reply settings)).map (prompt ++ ·)) := by
    rw [exchanges, Text.inputLines_toUTF8, map_reply_congr (Text.trim_readLines _), List.map_map,
      List.map_map]
    congr 1
    exact List.map_congr_left fun line _ => exchange_toUTF8 settings line
  have hlines : session settings (inputLines text.toUTF8 ++ []) (unlimited .empty) =
      session settings []
        (unlimited (.empty ++ (exchanges settings (inputLines text.toUTF8)).toUTF8)) :=
    session_append hordinary
  rw [List.append_nil, session_nil, append_toUTF8, hexchanges, ByteArray.empty_append] at hlines
  have hrun : Shell.run settings text.toUTF8 (.empty none) = .ok () (unlimited _) := hlines
  rw [runShell, hrun]
  rfl

/-- The replies that are not empty are the answers to the lines, each on a line. -/
theorem filter_reply (settings : Settings) (lines : List (List Char)) :
    (lines.map (reply settings)).filter (· ≠ "") =
      (answersTo settings lines).map fun answer => replyText answer ++ "\n" := by
  induction lines with
  | nil => rfl
  | cons line lines ih =>
    by_cases hblank : Text.trim line = []
    · have hreply : reply settings line = "" := reply_of_blank hblank
      rw [List.map_cons, List.filter_cons_of_neg (by simp [hreply]), ih, answersTo, answersTo,
        expressionsIn_cons_of_blank lines hblank]
    · have hreply : reply settings line = _ := reply_of_not_blank hblank
      rw [List.map_cons, List.filter_cons_of_pos (by simp [hreply]), ih, hreply, answersTo,
        answersTo, expressionsIn_cons lines hblank, List.map_cons, List.map_cons]

/-! ## Beside each other -/

/-- Both readers come to the same expressions. -/
theorem expressionsIn_readLines (text : List Char) :
    expressionsIn (Text.readLines '\n' text) = expressionsIn (Text.bareLines text) := by
  rw [expressionsIn, expressionsIn, Text.trim_readLines, Text.trim_bareLines]

/-- **A file of expressions and a session agree.**  Take any words that ask for a file, any words
    that ask for a session under the same settings, and a text without a line that leaves the
    session.  The file is read without the ends of its lines and the session with them, and both
    come to the same expressions.  The file has the values in one output and the messages in the
    other, one to a line and in their order, and ends with status 1 if there is a message.  The
    session ends well.  It writes a prompt and a reply for every line, and one more prompt; and the
    replies that are not empty are the same answers, one to a line and in their order. -/
theorem script_answered_as_session (arguments : Arguments)
    (readFile readFile' : String → Option ByteArray) (input : ByteArray)
    {words words' : List String} {path text : String}
    (hfile : Request.ofWords words =
      .ok (.work { arguments with file := true, contents := some path }))
    (hsession : Request.ofWords words' =
      .ok (.work { arguments with file := false, contents := none }))
    (hread : readFile path = some text.toUTF8)
    (hexit : ∀ line ∈ Text.lines '\n' text.toList, ¬ IsExit (String.ofList line)) :
    ∃ (expressions : List String) (answers : List (Except Fault Binary64)) (replies : List String),
      expressions = expressionsIn (Text.bareLines text.toList) ∧
      expressions = expressionsIn (Text.readLines '\n' text.toList) ∧
      answers = expressions.map (evaluateWith arguments.settings) ∧
      run words input readFile =
        ⟨if faults answers = [] then 0 else 1,
          (onLines ((values answers).map Binary64.text)).toUTF8,
          (onLines ((faults answers).map Fault.message)).toUTF8⟩ ∧
      replies = (Text.readLines '\n' text.toList).map (reply arguments.settings) ∧
      run words' text.toUTF8 readFile' =
        ⟨0, (String.join (replies.map (prompt ++ ·)) ++ (prompt ++ "\n")).toUTF8, .empty⟩ ∧
      replies.filter (· ≠ "") = answers.map fun answer => replyText answer ++ "\n" := by
  refine ⟨_, _, _, rfl, (expressionsIn_readLines _).symm, rfl, ?_, rfl, ?_, ?_⟩
  · rw [run, hfile]
    simp only [work, hread, Option.bind_some, fromUTF8?_toUTF8, if_true]
    exact evaluateLines_eq _ _
  · rw [run, hsession]
    exact runShell_toUTF8 hexit
  · rw [filter_reply, answersTo, expressionsIn_readLines]

/-- A division by zero, an empty line with a carriage return, and a sum with a no-break space behind
    it and nothing that would end its line. -/
theorem division_and_sum_answered_as_session :
    ∃ (expressions : List String) (answers : List (Except Fault Binary64)) (replies : List String),
      expressions = ["1 / 0", "2 + 3"] ∧
      answers = [.error ⟨.divisionByZero, 2⟩, .ok (Binary64.ofNat 5)] ∧
      run ["-s", "--file", "sums"] .empty (fun _ => some " 1 / 0\n\r\n2 + 3\u00a0".toUTF8) =
        ⟨if faults answers = [] then 0 else 1,
          (onLines ((values answers).map Binary64.text)).toUTF8,
          (onLines ((faults answers).map Fault.message)).toUTF8⟩ ∧
      run ["--strict"] " 1 / 0\n\r\n2 + 3\u00a0".toUTF8 (fun _ => none) =
        ⟨0, (String.join (replies.map (prompt ++ ·)) ++ (prompt ++ "\n")).toUTF8, .empty⟩ ∧
      replies.filter (· ≠ "") = answers.map fun answer => replyText answer ++ "\n" := by
  have hfile : Request.ofWords ["-s", "--file", "sums"] =
      .ok (.work ⟨true, true, none, some "sums"⟩) := by decide +kernel
  have hsession : Request.ofWords ["--strict"] = .ok (.work ⟨false, true, none, none⟩) := by
    decide +kernel
  have hexit : ∀ line ∈ Text.lines '\n' " 1 / 0\n\r\n2 + 3\u00a0".toList,
      ¬ IsExit (String.ofList line) := by decide +kernel
  obtain ⟨expressions, answers, replies, hexpressions, _, hanswers, hscript, _, htyped, hreplies⟩ :=
    script_answered_as_session ⟨false, true, none, none⟩
      (fun _ => some " 1 / 0\n\r\n2 + 3\u00a0".toUTF8) (fun _ => none) .empty
      hfile hsession rfl hexit
  have hlist : expressions = ["1 / 0", "2 + 3"] := by
    rw [hexpressions]
    decide +kernel
  refine ⟨expressions, answers, replies, hlist, ?_, hscript, htyped, hreplies⟩
  rw [hanswers, hlist]
  decide +kernel

end CommandLine

end Calculator
