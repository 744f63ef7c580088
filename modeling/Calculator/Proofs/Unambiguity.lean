/-
  Messages tell faults apart.

  Problem: a message for a fault is one line of plain text.  Show that the fault can be made out from
  it: what is wrong and where, with the character, the kinds of tokens or the limit that it names.

  1. **Separators** — a text is in fixed words but for its numbers, kinds and characters.  A number
     ends where the first colon stands, and a kind where the first comma does, since no number holds
     a colon and no kind a comma.  Quoted characters can be made out (see `Quotation`).

  2. **The crux (`Cause.text_injective`)** — of the sorts of faults each has an initial of its own, and
     texts of one sort go on with the same words.

  3. **Result (`message_tells_fault`)** — different faults have different messages.  So an answer of
     the shell tells its fault, and the lines of the error output tell the faults of a script, one by
     one and in order.
-/
import Calculator.Proofs.Quotation
import Calculator.Proofs.Scripts

namespace Calculator

open Text

/-! ## Kinds and causes -/

/-- Kinds have different names. -/
theorem TokenKind.text_injective {kind kind' : TokenKind}
    (h : kind.text.toList = kind'.text.toList) : kind = kind' := by
  have hkinds : ∀ k ∈ kinds, ∀ k' ∈ kinds, k.text.toList = k'.text.toList → k = k' := by
    decide +kernel
  exact hkinds kind kind.mem_kinds kind' kind'.mem_kinds h

/-- No name of a kind holds a comma. -/
theorem TokenKind.comma_not_mem_text (kind : TokenKind) : ',' ∉ kind.text.toList := by
  have hkinds : ∀ k ∈ kinds, ',' ∉ k.text.toList := by decide +kernel
  exact hkinds kind kind.mem_kinds

/-- The first character of the text for a cause. -/
def Cause.initial : Cause → Char
  | .strayCharacter _ => 'U'
  | .unexpected _ _ => 'E'
  | .nestedTooDeep _ => 'P'
  | .divisionByZero => 'D'
  | .overflow => 'O'

theorem Cause.head?_text (cause : Cause) : cause.text.toList.head? = some cause.initial := by
  cases cause with
  | strayCharacter c =>
    rw [text_strayCharacter, String.toList_append, String.toList_append]
    rfl
  | unexpected expected found =>
    rw [text_unexpected]
    simp only [String.toList_append]
    rfl
  | nestedTooDeep limit =>
    rw [text_nestedTooDeep, String.toList_append, String.toList_append]
    rfl
  | divisionByZero => rfl
  | overflow => rfl

/-- **What is wrong can be made out from its text.** -/
theorem Cause.text_injective {cause cause' : Cause} (h : cause.text.toList = cause'.text.toList) :
    cause = cause' := by
  have hinitial : cause.initial = cause'.initial := by
    rw [← Option.some_inj, ← head?_text, ← head?_text, h]
  cases cause with
  | strayCharacter c =>
    cases cause' with
    | strayCharacter c' =>
      simp only [text_strayCharacter, String.toList_append] at h
      have hquoted := List.append_cancel_left (List.append_cancel_right h)
      rw [quoteChar_injective (String.toList_inj.1 hquoted)]
    | _ => cases hinitial
  | unexpected expected found =>
    cases cause' with
    | unexpected expected' found' =>
      simp only [text_unexpected, String.toList_append, List.append_assoc] at h
      have hwords : ", found ".toList = ',' :: " found ".toList := rfl
      rw [hwords] at h
      obtain ⟨hexpected, hrest⟩ := eq_of_append_mark expected.comma_not_mem_text
        expected'.comma_not_mem_text (List.append_cancel_left h)
      have hfound := List.append_cancel_right (List.append_cancel_left hrest)
      rw [TokenKind.text_injective hexpected, TokenKind.text_injective hfound]
    | _ => cases hinitial
  | nestedTooDeep limit =>
    cases cause' with
    | nestedTooDeep limit' =>
      simp only [text_nestedTooDeep, String.toList_append, toList_toString] at h
      rw [digits_injective (List.append_cancel_left (List.append_cancel_right h))]
    | _ => cases hinitial
  | divisionByZero =>
    cases cause' with
    | divisionByZero => rfl
    | _ => cases hinitial
  | overflow =>
    cases cause' with
    | overflow => rfl
    | _ => cases hinitial

/-- **A fault can be made out from its message.** -/
theorem Fault.message_injective {fault fault' : Fault} (h : fault.message = fault'.message) :
    fault = fault' := by
  obtain ⟨cause, position⟩ := fault
  obtain ⟨cause', position'⟩ := fault'
  have hwords : ": ".toList = ':' :: [' '] := rfl
  have hcolon : ∀ n, ':' ∉ digits n := not_mem_digits (by decide)
  have htexts := congrArg String.toList h
  simp only [message_eq, String.toList_append, List.append_assoc, toList_toString, hwords] at htexts
  obtain ⟨hposition, hrest⟩ := eq_of_append_mark (hcolon position) (hcolon position')
    (List.append_cancel_left htexts)
  rw [digits_injective hposition, Cause.text_injective (List.append_cancel_left hrest)]

/-! ## Answers and scripts -/

/-- No message is the text of a value. -/
theorem Fault.message_ne_result (fault : Fault) (value : Binary64) :
    "Result: " ++ value.text ≠ fault.message := by
  intro h
  have hinitial := congrArg (fun text : String => text.toList.head?) h
  simp only [message_eq, String.toList_append] at hinitial
  cases hinitial

/-- **An answer tells whether there is a fault, and which.** -/
theorem Shell.answer_eq_message_iff {settings : Settings} {text : String} {fault : Fault} :
    answer settings text = fault.message ++ "\n" ↔ evaluateWith settings text = .error fault := by
  obtain ⟨line, hanswer, _, hvalue, hfault⟩ := answer_eq_line settings text
  rw [hanswer]
  constructor
  · intro h
    have hline : line = fault.message := by
      have hlists := congrArg String.toList h
      rw [String.toList_append, String.toList_append] at hlists
      exact String.toList_inj.1 (List.append_cancel_right hlists)
    rcases houtcome : evaluateWith settings text with fault' | value
    · rw [hfault fault' houtcome] at hline
      rw [Fault.message_injective hline]
    · rw [hvalue value houtcome] at hline
      exact absurd hline (fault.message_ne_result value)
  · intro h
    rw [hfault fault h]

namespace CommandLine

/-- The text that the program evaluates line by line, if its arguments give it one: their contents,
    or those of the file that they name. -/
def scriptOf (arguments : Arguments) (readFile : String → Option ByteArray) : Option String :=
  arguments.contents.bind fun contents =>
    if arguments.file then (readFile contents).bind String.fromUTF8? else some contents

theorem work_of_script {arguments : Arguments} {readFile : String → Option ByteArray}
    {text : String} (h : scriptOf arguments readFile = some text) (input : ByteArray) :
    work arguments input readFile = evaluateLines arguments.settings text := by
  obtain ⟨contents, hcontents, htext⟩ := Option.bind_eq_some_iff.1 h
  simp only [work, hcontents]
  split
  · next hfile =>
    rw [if_pos hfile] at htext
    simp only [htext]
  · next hfile =>
    rw [if_neg hfile] at htext
    cases htext
    rfl

/-- **The lines of the error output tell the faults of a script**, one by one and in order. -/
theorem lines_errors_eq_iff (settings : Settings) (text : String) :
    ∃ errors : String, (evaluateLines settings text).errors = errors.toUTF8 ∧
      ∀ found : List Fault,
        lines '\n' errors.toList = found.map (fun fault => fault.message.toList) ↔
          faults (answersTo settings (bareLines text.toList)) = found := by
  refine ⟨onLines ((faults (answersTo settings (bareLines text.toList))).map Fault.message), ?_,
    fun found => ?_⟩
  · rw [evaluateLines_eq, Outcome.ofAnswers]
  have hunbroken : ∀ message ∈
      (faults (answersTo settings (bareLines text.toList))).map Fault.message,
      Unbroken message.toList := by
    intro message hmem
    obtain ⟨fault, _, rfl⟩ := List.mem_map.1 hmem
    exact fault.unbroken_message
  have hinjective : Function.Injective fun fault : Fault => fault.message.toList := fun _ _ h =>
    Fault.message_injective (String.toList_inj.1 h)
  rw [lines_onLines hunbroken, List.map_map]
  exact (List.map_injective_iff.2 hinjective).eq_iff

end CommandLine

/-- **Messages tell faults apart, and each is one line.**  Different faults have different messages,
    and no message breaks its line.  So an answer of the shell is one line, which is the message for
    a fault exactly if the text has this fault; and whenever the program evaluates a script, the
    lines of its error output are the messages for some faults exactly if these are the faults of
    the script, in order. -/
theorem message_tells_fault :
    Function.Injective Fault.message ∧
    (∀ fault : Fault, Unbroken fault.message.toList) ∧
    (∀ settings text, ∃ line : String,
      Shell.answer settings text = line ++ "\n" ∧ Unbroken line.toList ∧
        ∀ fault : Fault, Shell.answer settings text = fault.message ++ "\n" ↔
          evaluateWith settings text = .error fault) ∧
    ∀ words arguments input readFile text,
      CommandLine.Request.ofWords words = .ok (.work arguments) →
      CommandLine.scriptOf arguments readFile = some text →
      ∃ errors : String, (CommandLine.run words input readFile).errors = errors.toUTF8 ∧
        ∀ found : List Fault,
          lines '\n' errors.toList = found.map (fun fault => fault.message.toList) ↔
            CommandLine.faults (CommandLine.answersTo arguments.settings (bareLines text.toList)) =
              found := by
  refine ⟨fun _ _ => Fault.message_injective, Fault.unbroken_message, fun settings text => ?_, ?_⟩
  · obtain ⟨line, hanswer, hunbroken, _⟩ := Shell.answer_eq_line settings text
    exact ⟨line, hanswer, hunbroken, fun _ => Shell.answer_eq_message_iff⟩
  · intro words arguments input readFile text hwords hscript
    rw [CommandLine.run, hwords]
    simp only [CommandLine.work_of_script hscript]
    exact CommandLine.lines_errors_eq_iff arguments.settings text

/-- A division by zero, and an apostrophe that has to be quoted. -/
theorem apostrophe_told_behind_division :
    CommandLine.Request.ofWords ["1 / 0\n2 '"] =
        .ok (.work ⟨false, false, none, some "1 / 0\n2 '"⟩) ∧
      CommandLine.scriptOf ⟨false, false, none, some "1 / 0\n2 '"⟩ (fun _ => none) =
        some "1 / 0\n2 '" ∧
      ∃ errors : String,
        (CommandLine.run ["1 / 0\n2 '"] .empty fun _ => none).errors = errors.toUTF8 ∧
        ∀ found : List Fault,
          lines '\n' errors.toList = found.map (fun fault => fault.message.toList) ↔
            [⟨.divisionByZero, 2⟩, ⟨.strayCharacter '\'', 2⟩] = found := by
  have hwords : CommandLine.Request.ofWords ["1 / 0\n2 '"] =
      .ok (.work ⟨false, false, none, some "1 / 0\n2 '"⟩) := by decide +kernel
  have hfaults : CommandLine.faults (CommandLine.answersTo {} (bareLines "1 / 0\n2 '".toList)) =
      [⟨.divisionByZero, 2⟩, ⟨.strayCharacter '\'', 2⟩] := by decide +kernel
  have htold := message_tells_fault.2.2.2 _ _ .empty (fun _ => none) _ hwords rfl
  rw [← hfaults]
  exact ⟨hwords, rfl, htold⟩

end Calculator
