/-
  An expression given on the command line.

  Problem: say when the program answers an expression that stands on its command line as the library
  answers it, and what the program does when it does not.

  1. **Specification** — `Answers`: for a value the value on a line of the output, for a fault a
     message on a line of the errors, and nothing else in either case.

  2. **Counting (`length_eq_of_onLines_eq`)** — values and messages do not break their lines, so that
     the lines of an output tell how many answers there are.

  3. **Blanks around an expression (`exists_blanks_around`)** — if all lines of a text but one are
     blank, the text is the expression of that line with blanks on both sides, line feeds among
     them.

  4. **Result (`one_shot_answered_iff`)** — the program takes the text for a script.  It answers the
     text as the library does exactly if one line of it is not blank: then the two have the same
     value, or faults for the same cause in corresponding places.  In the other cases there are
     several answers, or none and no sign of a fault.
-/
import Calculator.Proofs.Scripts
import Calculator.Proofs.Spacing

namespace Calculator.CommandLine

open Text

variable {settings : Settings} {text : String}

/-! ## Specification -/

/-- The program has answered an expression: with its value and status 0, or with a message and
    status 1. -/
def Answers (outcome : Outcome) : Except Fault Binary64 → Prop
  | .ok value => outcome = ⟨0, (onLines [value.text]).toUTF8, .empty⟩
  | .error _ => ∃ fault : Fault, outcome = ⟨1, .empty, (onLines [fault.message]).toUTF8⟩

/-- Outcomes are the same if status and outputs are. -/
theorem Outcome.eq_of_fields {outcome outcome' : Outcome}
    (hstatus : outcome.status = outcome'.status) (houtput : outcome.output = outcome'.output)
    (herrors : outcome.errors = outcome'.errors) : outcome = outcome' := by
  cases outcome
  cases outcome'
  subst hstatus houtput herrors
  rfl

/-! ## Counting -/

/-- Outputs that are the same hold equally many texts. -/
theorem length_eq_of_onLines_eq {texts texts' : List String}
    (h : ∀ text ∈ texts, Unbroken text.toList) (h' : ∀ text ∈ texts', Unbroken text.toList)
    (hbytes : (onLines texts).toUTF8 = (onLines texts').toUTF8) :
    texts.length = texts'.length := by
  have hlines := congrArg (fun text => (lines '\n' text.toList).length)
    (String.toByteArray_inj.1 hbytes)
  simpa only [lines_onLines h, lines_onLines h', List.length_map] using hlines

theorem length_values_add_faults (answers : List (Except Fault Binary64)) :
    (values answers).length + (faults answers).length = answers.length := by
  induction answers with
  | nil => rfl
  | cons answer answers ih =>
    cases answer with
    | ok value =>
      have hvalues : values (.ok value :: answers) = value :: values answers := rfl
      have hfaults : faults (.ok value :: answers) = faults answers := rfl
      rw [hvalues, hfaults, List.length_cons, List.length_cons]
      omega
    | error fault =>
      have hvalues : values (.error fault :: answers) = values answers := rfl
      have hfaults : faults (.error fault :: answers) = fault :: faults answers := rfl
      rw [hvalues, hfaults, List.length_cons, List.length_cons]
      omega

/-- **An outcome with one answer is that of one answer.** -/
theorem length_eq_one_of_answers {answers : List (Except Fault Binary64)}
    {answer : Except Fault Binary64} (h : Answers (.ofAnswers answers) answer) :
    answers.length = 1 := by
  have hvalue : ∀ text ∈ (values answers).map Binary64.text, Unbroken text.toList := by
    intro text hmem
    obtain ⟨value, _, rfl⟩ := List.mem_map.1 hmem
    exact value.unbroken_text
  have hmessage : ∀ text ∈ (faults answers).map Fault.message, Unbroken text.toList := by
    intro text hmem
    obtain ⟨fault, _, rfl⟩ := List.mem_map.1 hmem
    exact fault.unbroken_message
  have hnone : ∀ text ∈ ([] : List String), Unbroken text.toList := fun _ hmem => by cases hmem
  have hlength := length_values_add_faults answers
  cases answer with
  | ok value =>
    obtain ⟨_, houtput, herrors⟩ := Outcome.mk.inj h
    have hone := length_eq_of_onLines_eq hvalue
      (List.forall_mem_singleton.2 value.unbroken_text) houtput
    have hzero := length_eq_of_onLines_eq hmessage hnone herrors
    rw [List.length_map] at hone hzero
    simp only [List.length_cons, List.length_nil] at hone hzero
    omega
  | error _ =>
    obtain ⟨fault, houtcome⟩ := h
    obtain ⟨_, houtput, herrors⟩ := Outcome.mk.inj houtcome
    have hzero := length_eq_of_onLines_eq hvalue hnone houtput
    have hone := length_eq_of_onLines_eq hmessage
      (List.forall_mem_singleton.2 fault.unbroken_message) herrors
    rw [List.length_map] at hone hzero
    simp only [List.length_cons, List.length_nil] at hone hzero
    omega

/-! ## Blanks around an expression -/

/-- Trimming takes blanks off and nothing else. -/
theorem exists_blanks_of_trim (cs : List Char) :
    ∃ front back, (∀ c ∈ front, isBlank c) ∧ (∀ c ∈ back, isBlank c) ∧
      cs = front ++ trim cs ++ back := by
  have hfront : cs.takeWhile isBlank ++ cs.dropWhile isBlank = cs := List.takeWhile_append_dropWhile
  have hback : (cs.dropWhile isBlank).reverse.takeWhile isBlank ++
      (cs.dropWhile isBlank).reverse.dropWhile isBlank = (cs.dropWhile isBlank).reverse :=
    List.takeWhile_append_dropWhile
  refine ⟨cs.takeWhile isBlank, ((cs.dropWhile isBlank).reverse.takeWhile isBlank).reverse,
    fun c hc => List.all_eq_true.1 List.all_takeWhile c hc,
    fun c hc => List.all_eq_true.1 List.all_takeWhile c (List.mem_reverse.1 hc), ?_⟩
  rw [trim, List.append_assoc, ← List.reverse_append, hback, List.reverse_reverse, hfront]

/-- A line that is trimmed to nothing is blank. -/
theorem isBlank_of_trim_eq_nil {cs : List Char} (h : trim cs = []) : ∀ c ∈ cs, isBlank c := by
  obtain ⟨front, back, hfront, hback, hcs⟩ := exists_blanks_of_trim cs
  rw [hcs, h, List.append_nil]
  intro c hc
  rcases List.mem_append.1 hc with hc | hc
  · exact hfront c hc
  · exact hback c hc

/-- Lines of which nothing is evaluated are blank. -/
theorem isBlank_of_expressionsIn_eq_nil {lines : List (List Char)} (h : expressionsIn lines = []) :
    ∀ c ∈ lines.flatten, isBlank c := by
  induction lines with
  | nil => exact fun c hc => by cases hc
  | cons line lines ih =>
    by_cases hblank : trim line = []
    · rw [expressionsIn_cons_of_blank lines hblank] at h
      intro c hc
      rcases List.mem_append.1 hc with hc | hc
      · exact isBlank_of_trim_eq_nil hblank c hc
      · exact ih h c hc
    · rw [expressionsIn_cons lines hblank] at h
      cases h

/-- **Lines of which one expression is evaluated are this expression between blanks.** -/
theorem exists_blanks_around {lines : List (List Char)} {expression : String}
    (h : expressionsIn lines = [expression]) :
    ∃ front back, (∀ c ∈ front, isBlank c) ∧ (∀ c ∈ back, isBlank c) ∧
      lines.flatten = front ++ expression.toList ++ back := by
  induction lines with
  | nil => cases h
  | cons line lines ih =>
    by_cases hblank : trim line = []
    · rw [expressionsIn_cons_of_blank lines hblank] at h
      obtain ⟨front, back, hfront, hback, hlines⟩ := ih h
      refine ⟨line ++ front, back, fun c hc => ?_, hback, ?_⟩
      · rcases List.mem_append.1 hc with hc | hc
        · exact isBlank_of_trim_eq_nil hblank c hc
        · exact hfront c hc
      · rw [List.flatten_cons, hlines, List.append_assoc, List.append_assoc, List.append_assoc]
    · rw [expressionsIn_cons lines hblank] at h
      obtain ⟨rfl, hrest⟩ := List.cons.inj h
      obtain ⟨front, back, hfront, hback, hline⟩ := exists_blanks_of_trim line
      refine ⟨front, back ++ lines.flatten, hfront, fun c hc => ?_, ?_⟩
      · rcases List.mem_append.1 hc with hc | hc
        · exact hback c hc
        · exact isBlank_of_expressionsIn_eq_nil hrest c hc
      · rw [List.flatten_cons, String.toList_ofList, ← List.append_assoc, ← hline]

/-- Blanks around a text are respacing. -/
theorem eqvGen_spaced_of_blanks {front back cs : List Char} (hfront : ∀ c ∈ front, isBlank c)
    (hback : ∀ c ∈ back, isBlank c) :
    Relation.EqvGen Spaced cs (front ++ cs ++ back) := by
  have hbefore : Spaced cs (front ++ cs) :=
    .insert [] front cs hfront (Lexeme.fresh_of_last (by simp))
  have hbehind : Spaced (front ++ cs ++ []) (front ++ cs ++ back ++ []) :=
    .insert (front ++ cs) back [] hback (Lexeme.fresh_of_head (by simp))
  rw [List.append_nil, List.append_nil] at hbehind
  exact .trans _ _ _ (.rel _ _ hbefore) (.rel _ _ hbehind)

/-- **The one expression of a text has its value**, or its faults in corresponding places. -/
theorem evaluateWith_of_expressionsIn (settings : Settings) {expression : String}
    (h : expressionsIn (bareLines text.toList) = [expression]) :
    (∃ value, evaluateWith settings text = .ok value ∧
        evaluateWith settings expression = .ok value) ∨
      ∃ cause position position', SameStep text expression position position' ∧
        evaluateWith settings text = .error ⟨cause, position⟩ ∧
        evaluateWith settings expression = .error ⟨cause, position'⟩ := by
  rw [← expressionsIn_readLines] at h
  obtain ⟨front, back, hfront, hback, htext⟩ := exists_blanks_around h
  rw [flatten_readLines] at htext
  have hspaced : Relation.EqvGen Spaced text.toList expression.toList := by
    rw [htext]
    exact (eqvGen_spaced_of_blanks hfront hback).symm
  exact (Evaluation.inStep (agree_of_reading_eq (reading_scan_of_eqvGen hspaced) _)).2

/-! ## The result -/

/-- The program takes an expression for a script. -/
theorem run_expression (arguments : Arguments) (readFile : String → Option ByteArray)
    (input : ByteArray) {words : List String}
    (hwords : Request.ofWords words =
      .ok (.work { arguments with file := false, contents := some text })) :
    run words input readFile =
      .ofAnswers (answersTo arguments.settings (bareLines text.toList)) := by
  rw [run, hwords]
  exact evaluateLines_eq _ _

/-- **When an expression on the command line is answered as the library answers it.**  Take any
    words that ask for the value of a text.  The program answers the text exactly if one of its
    lines is not blank.  In every case it leaves behind the answers to the expressions in the lines.
    If there is one expression, it has the value of the text, or a fault for the same cause, found
    at the step with the same number. -/
theorem one_shot_answered_iff (arguments : Arguments) (readFile : String → Option ByteArray)
    (input : ByteArray) {words : List String} {text : String}
    (hwords : Request.ofWords words =
      .ok (.work { arguments with file := false, contents := some text })) :
    (Answers (run words input readFile) (evaluateWith arguments.settings text) ↔
      ∃ expression, expressionsIn (bareLines text.toList) = [expression]) ∧
    run words input readFile =
      .ofAnswers (answersTo arguments.settings (bareLines text.toList)) ∧
    ∀ expression, expressionsIn (bareLines text.toList) = [expression] →
      (∃ value, evaluateWith arguments.settings text = .ok value ∧
        evaluateWith arguments.settings expression = .ok value) ∨
      ∃ cause position position', SameStep text expression position position' ∧
        evaluateWith arguments.settings text = .error ⟨cause, position⟩ ∧
        evaluateWith arguments.settings expression = .error ⟨cause, position'⟩ := by
  have hrun := run_expression arguments readFile input hwords
  refine ⟨⟨fun h => ?_, ?_⟩, hrun, fun _ => evaluateWith_of_expressionsIn _⟩
  · rw [hrun] at h
    have hone := length_eq_one_of_answers h
    rw [answersTo, List.length_map] at hone
    exact List.length_eq_one_iff.1 hone
  · rintro ⟨expression, hexpression⟩
    rw [hrun, answersTo, hexpression]
    rcases evaluateWith_of_expressionsIn arguments.settings hexpression with
      ⟨value, htext, hvalue⟩ | ⟨cause, position, position', _, htext, hfault⟩
    · rw [htext, List.map_singleton, hvalue]
      rfl
    · rw [htext, List.map_singleton, hfault]
      exact ⟨⟨cause, position'⟩, rfl⟩

/-- Blank lines around a quotient, and a carriage return behind it, do no harm. -/
theorem quotient_between_blank_lines_answered :
    Request.ofWords ["-s", "\n 7 / 2 \r\n\n"] =
        .ok (.work ⟨false, true, none, some "\n 7 / 2 \r\n\n"⟩) ∧
      Answers (run ["-s", "\n 7 / 2 \r\n\n"] .empty fun _ => none)
        (evaluateWith { trailing := .rejected } "\n 7 / 2 \r\n\n") := by
  have hwords : Request.ofWords ["-s", "\n 7 / 2 \r\n\n"] =
      .ok (.work ⟨false, true, none, some "\n 7 / 2 \r\n\n"⟩) := by decide +kernel
  have hone : expressionsIn (bareLines "\n 7 / 2 \r\n\n".toList) = ["7 / 2"] := by decide +kernel
  exact ⟨hwords, (one_shot_answered_iff ⟨false, true, none, none⟩ (fun _ => none) .empty hwords).1.2
    ⟨_, hone⟩⟩

/-- A sum over two lines has a value, but is taken for two expressions, the first with a fault and
    the second with another value.  An empty text has a fault, but nothing is said about it. -/
theorem sum_over_two_lines_not_answered :
    (evaluateWith {} "1 +\n2" = .ok (Binary64.ofNat 3) ∧
      run ["1 +\n2"] .empty (fun _ => none) =
        ⟨1, "2\n".toUTF8,
          "Error at position 3: Expected integer, found end of input.\n".toUTF8⟩ ∧
      ¬ Answers (run ["1 +\n2"] .empty fun _ => none) (evaluateWith {} "1 +\n2")) ∧
    (evaluateWith {} "" = .error ⟨.unexpected .integer .endOfInput, 0⟩ ∧
      run [""] .empty (fun _ => none) = ⟨0, .empty, .empty⟩ ∧
      ¬ Answers (run [""] .empty fun _ => none) (evaluateWith {} "")) := by
  have hsum : evaluateWith {} "1 +\n2" = .ok (Binary64.ofNat 3) := by decide +kernel
  have hempty : evaluateWith {} "" = .error ⟨.unexpected .integer .endOfInput, 0⟩ := by
    decide +kernel
  have hsumRun : run ["1 +\n2"] .empty (fun _ => none) =
      ⟨1, "2\n".toUTF8,
        "Error at position 3: Expected integer, found end of input.\n".toUTF8⟩ := by
    refine Outcome.eq_of_fields ?_ ?_ ?_
    · decide +kernel
    · decide +kernel
    · decide +kernel
  have hemptyRun : run [""] .empty (fun _ => none) = ⟨0, .empty, .empty⟩ := by
    refine Outcome.eq_of_fields ?_ ?_ ?_
    · decide +kernel
    · decide +kernel
    · decide +kernel
  refine ⟨⟨hsum, hsumRun, fun h => ?_⟩, hempty, hemptyRun, fun h => ?_⟩
  · rw [hsum, hsumRun] at h
    exact absurd (congrArg Outcome.status h) (by decide)
  · rw [hempty, hemptyRun] at h
    obtain ⟨fault, hfault⟩ := h
    have hstatus : (0 : UInt8) = 1 := congrArg Outcome.status hfault
    exact absurd hstatus (by decide)

end Calculator.CommandLine
