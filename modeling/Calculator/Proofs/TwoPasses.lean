/-
  Two passes: the outline of a text, and then its code.

  Problem: an evaluation goes through a text once.  Show that it comes to the same as going through
  it without computing and then computing without the text.

  1. **Start** — the first piece becomes the lookahead, or is a stray and ends the evaluation before
     there is a parser (`start_of_pull`).

  2. **Parse** — from there on the parser follows the outline (`follows_parse`), rules by the
     simulation and the end of the text by `follows_trailing`.

  3. **Outcome (`Evaluation.run_agrees`)** — what the machine makes of the code decides: an
     instruction fails, or none does and the outline ends in a fault, or neither happens and there is
     a value.  In the last two cases the evaluation has read the tokens that the outline has; in the
     first it has read no others.  So the outcome of a text is that of its outline
     (`outcome_ofText`).
-/
import Calculator.Proofs.Simulation

namespace Calculator

variable {settings : Settings} {finish : Nat} {text : String} {p : Parser}

/-! ## The start of a text -/

/-- No character writes the end of the input. -/
theorem Lexeme.readChar_ne_end (c : Char) : readChar c ≠ .token .endOfInput := by
  intro h
  rw [readChar] at h
  split at h
  · next token htoken =>
    cases h
    rw [Token.ofChar?] at htoken
    split at htoken
    · cases htoken
    split at htoken
    · cases htoken
    · cases hop : Operator.ofChar? c <;> rw [hop] at htoken <;> cases htoken
  · cases h

/-- The end of the input is no piece of a text. -/
theorem Lexeme.reading_scan_ne_end {offset : Nat} {characters : List Char} :
    ∀ piece ∈ scan offset characters, piece.reading ≠ .token .endOfInput := by
  fun_induction scan offset characters with
  | case1 => simp
  | case2 offset c rest hblank ih => exact ih
  | case3 offset c rest hblank hdigit run stop ih =>
    intro piece hpiece
    rcases List.mem_cons.1 hpiece with rfl | hpiece
    · simp
    · exact ih piece hpiece
  | case4 offset c rest hblank hdigit stop ih =>
    intro piece hpiece
    rcases List.mem_cons.1 hpiece with rfl | hpiece
    · exact readChar_ne_end c
    · exact ih piece hpiece

/-- The first piece of a text becomes the lookahead of a parser that has read nothing else, unless
    it is a stray. -/
theorem Parser.start_of_pull (settings : Settings) (text : String) :
    let first := Outline.pull (Text.byteLength text.toList) (Placed.ofText text)
    match first.ending with
    | .ok ahead => ∃ p, start settings (Cursor.ofText text) = .ok p ∧
        p.Ready settings (Text.byteLength text.toList) ∧ p.ahead = ahead ∧ p.depth = 0 ∧
        p.reads = first.pulled
    | .error fault => start settings (Cursor.ofText text) = .error fault := by
  have hno_end := @Lexeme.reading_scan_ne_end 0 text.toList
  rw [start, Placed.ofText]
  rcases hpieces : Lexeme.scan 0 text.toList with _ | ⟨piece, rest⟩
  · rw [Cursor.next_of_nil hpieces]
    exact ⟨_, rfl, ⟨rfl, rfl, fun _ => ⟨rfl, rfl⟩, fun _ h => by cases h⟩, rfl, rfl, rfl⟩
  · rw [hpieces] at hno_end
    rw [Cursor.next_of_cons hpieces]
    rcases hreading : piece.reading with token | c
    · have hne : token ≠ .endOfInput := by
        rintro rfl
        exact hno_end piece List.mem_cons_self hreading
      simp only [List.map_cons, Lexeme.placed, hreading]
      refine ⟨_, rfl, ⟨rfl, rfl, fun h => absurd h hne, fun other hother => ?_⟩, ?_, rfl, rfl⟩
      · exact hno_end other (List.mem_cons_of_mem _ hother)
      · exact ahead_of_ne rfl hne
    · simp only [List.map_cons, Lexeme.placed, hreading]
      rfl

/-! ## The end of a text -/

/-- What is left over is dealt with in the same way. -/
theorem follows_trailing {value : Binary64} {stack : List Binary64}
    (h : p.Ready settings finish) :
    Follows p.reads (value :: stack) (Outline.trailing finish settings.trailing p.ahead)
      ((do
        let p ← get
        match p.settings.trailing with
        | .ignored => if p.lookahead ≠ .endOfInput then Parser.record (.ignored p.position)
        | .rejected => Parser.eat .endOfInput
        pure value : Rule Binary64) p)
      (Arrives settings finish (· :: stack)) := by
  rw [run_bind, run_get, andThen_ok, h.settings_eq]
  rcases htrailing : settings.trailing with _ | _
  · by_cases hend : p.lookahead = .endOfInput
    · simp only [hend, ne_eq, not_true_eq_false, if_false, run_pure]
      exact follows_pure ⟨h, rfl, rfl⟩
    · simp only [hend, ne_eq, not_false_eq_true, if_true, run_bind, run_record, run_pure,
        andThen_ok]
      have hreads : (p.recorded (.ignored p.position)).reads = p.reads :=
        Parser.reads_recorded rfl
      rw [← hreads]
      exact follows_pure ⟨h.recorded _, rfl, rfl⟩
  · simp only [run_bind, run_pure]
    by_cases hend : p.lookahead = .endOfInput
    · have hpull : Outline.trailing finish .rejected p.ahead =
          Outline.pull finish p.ahead.tail := by
        rw [Parser.ahead_of_end hend]
        rfl
      rw [hpull]
      exact Follows.map (follows_eat h (by rw [hend]; rfl)) fun _ _ _ _ => id
    · rw [Parser.eat_of_kind_ne (by rw [ne_eq, Token.kind_eq_endOfInput]; exact hend)]
      have hmisplaced : Outline.trailing finish .rejected p.ahead =
          Outline.fail (Outline.misplaced finish .endOfInput p.ahead) := by
        rw [Parser.ahead_of_ne rfl hend]
        rfl
      rw [hmisplaced]
      exact follows_misplaced h

/-- A fresh parser follows the outline of all that lies ahead. -/
theorem follows_parse (h : p.Ready settings finish) (hdepth : p.depth = 0) :
    Follows p.reads []
      (do
        let rest ← Outline.exprBy finish
          (Outline.factorWithin settings.maxDepth finish settings.maxDepth) p.ahead
        Outline.trailing finish settings.trailing rest)
      (Parser.parse p) (Arrives settings finish ([·])) := by
  have hexpr := exprBy_realizes (factorWithin_realizes settings finish settings.maxDepth) p [] h
  have hbudget : p.budget = settings.maxDepth := by
    rw [Parser.budget, h.settings_eq, hdepth, Nat.sub_zero]
  rw [Parser.parse, run_bind, Parser.expr, hbudget]
  refine Follows.bind hexpr ?_
  rintro value q _ _ ⟨hq, rfl, rfl⟩
  exact follows_trailing hq

/-! ## The outcome -/

/-- The tokens that an evaluation reads, with their places. -/
def Evaluation.reads (evaluation : Evaluation) : List (Token × Nat) :=
  evaluation.log.filterMap Event.read?

/-- The outcome of an outline whose code is run when it is complete: the fault of the first
    instruction that fails, or else the fault that ends the outline, or else the number that is
    alone on the stack.  Code that asks for missing operands, or leaves anything but one number,
    has no outcome. -/
def Outline.outcome {α : Type} (o : Outline α) : Option (Except Fault Binary64) :=
  match execute o.code [], o.ending with
  | .error (.fault fault), _ => some (.error fault)
  | .error .underflow, _ => none
  | .ok _, .error fault => some (.error fault)
  | .ok [value], .ok _ => some (.ok value)
  | .ok _, .ok _ => none

/-- A value is what is left on the stack when everything has ended well. -/
theorem Outline.outcome_eq_ok {α : Type} {o : Outline α} {value : Binary64} :
    o.outcome = some (.ok value) ↔ execute o.code [] = .ok [value] ∧ ∃ a, o.ending = .ok a := by
  rw [outcome]
  constructor
  · intro h
    split at h <;> simp_all
  · rintro ⟨hcode, a, hending⟩
    rw [hcode, hending]

/-- A fault is that of an instruction, or, if none fails, the one that the outline ends in. -/
theorem Outline.outcome_eq_error {α : Type} {o : Outline α} {fault : Fault} :
    o.outcome = some (.error fault) ↔
      execute o.code [] = .error (.fault fault) ∨
        (∃ stack, execute o.code [] = .ok stack) ∧ o.Fails fault := by
  rw [outcome]
  constructor
  · intro h
    split at h <;> simp_all [Fails]
  · rintro (hcode | ⟨⟨stack, hcode⟩, hending⟩)
    · rw [hcode]
    · rw [Fails] at hending
      rw [hcode, hending]

/-- Either there is no parser, because the text begins with a stray, or its parser follows the
    outline of the whole text. -/
theorem Evaluation.follows_ofText (settings : Settings) (text : String) :
    (∃ fault, Parser.start settings (Cursor.ofText text) = .error fault ∧
      Outline.ofText settings text = Outline.fail fault) ∨
    ∃ p, Parser.start settings (Cursor.ofText text) = .ok p ∧
      Follows [] [] (Outline.ofText settings text) (Parser.parse p)
        (Arrives settings (Text.byteLength text.toList) ([·])) := by
  have hstart := Parser.start_of_pull settings text
  rcases hpull : (Outline.pull (Text.byteLength text.toList) (Placed.ofText text)).ending with
    fault | ahead
  · refine .inl ⟨fault, by simpa only [hpull] using hstart, ?_⟩
    rw [Outline.ofText, Outline.pull_of_error hpull]
    rfl
  · simp only [hpull] at hstart
    obtain ⟨p, hp, hready, rfl, hdepth, hreads⟩ := hstart
    refine .inr ⟨p, hp, ?_⟩
    have hfirst : Follows [] [] (Outline.pull (Text.byteLength text.toList) (Placed.ofText text))
        (.ok () p) fun _ q rest reached => q = p ∧ rest = p.ahead ∧ reached = [] := by
      rw [Follows, Outline.code_pull, hpull]
      exact ⟨(), p, rfl, hreads, rfl, rfl, rfl⟩
    have hparse : Parser.parse p = andThen (.ok () p) fun _ q => Parser.parse q := rfl
    rw [hparse]
    refine Follows.bind hfirst ?_
    rintro _ q _ _ ⟨rfl, rfl, rfl⟩
    exact follows_parse hready hdepth

/-- An evaluation comes to what its parser comes to, and its record holds what the parser has
    read. -/
theorem Evaluation.run_of_start (hstart : Parser.start settings (Cursor.ofText text) = .ok p) :
    match Parser.parse p with
    | .ok value q => (run settings text).outcome = .ok value ∧ (run settings text).reads = q.reads
    | .error fault q =>
      (run settings text).outcome = .error fault ∧ (run settings text).reads = q.reads := by
  rcases hparse : Parser.parse p with ⟨value, q⟩ | ⟨fault, q⟩
  · simp [run, hstart, hparse, reads, Parser.reads, List.filterMap_cons, Event.read?]
  · simp [run, hstart, hparse, reads, Parser.reads, List.filterMap_cons, Event.read?]

/-- An evaluation whose outcome is that of an outline and its code, and which has read what the
    outline has, or at least nothing else if an instruction fails. -/
structure Evaluation.Agrees {α : Type} (evaluation : Evaluation) (o : Outline α) : Prop where
  outcome_eq : o.outcome = some evaluation.outcome
  reads_prefix : evaluation.reads <+: o.pulled
  reads_eq : ∀ stack, execute o.code [] = .ok stack → evaluation.reads = o.pulled

/-- **The evaluation of a text agrees with its outline.** -/
theorem Evaluation.run_agrees (settings : Settings) (text : String) :
    (run settings text).Agrees (Outline.ofText settings text) := by
  rcases follows_ofText settings text with ⟨fault, hstart, houtline⟩ | ⟨p, hstart, hfollows⟩
  · have hrun : run settings text = ⟨.error fault, [.started text]⟩ := by
      rw [run, hstart]
    rw [houtline, hrun]
    exact ⟨rfl, List.prefix_refl _, fun _ _ => rfl⟩
  · have hrun := run_of_start hstart
    generalize Outline.ofText settings text = o at hfollows ⊢
    unfold Follows at hfollows
    rcases hcode : execute o.code [] with (fault | _) | stack
    · rw [hcode] at hfollows
      obtain ⟨q, hparse, hreads⟩ := hfollows
      rw [hparse] at hrun
      refine ⟨?_, by rw [hrun.2]; exact hreads, fun stack h => by rw [hcode] at h; cases h⟩
      rw [hrun.1]
      exact Outline.outcome_eq_error.2 (.inl hcode)
    · rw [hcode] at hfollows
      exact hfollows.elim
    · rw [hcode] at hfollows
      rcases hending : o.ending with fault | rest
      · rw [hending] at hfollows
        obtain ⟨q, hparse, hreads⟩ := hfollows
        rw [hparse] at hrun
        rw [List.nil_append, ← hrun.2] at hreads
        refine ⟨?_, hreads ▸ List.prefix_refl _, fun _ _ => hreads⟩
        rw [hrun.1]
        exact Outline.outcome_eq_error.2 (.inr ⟨⟨stack, hcode⟩, hending⟩)
      · rw [hending] at hfollows
        obtain ⟨value, q, hparse, hreads, _, _, rfl⟩ := hfollows
        rw [hparse] at hrun
        rw [List.nil_append, ← hrun.2] at hreads
        refine ⟨?_, hreads ▸ List.prefix_refl _, fun _ _ => hreads⟩
        rw [hrun.1]
        exact Outline.outcome_eq_ok.2 ⟨hcode, rest, hending⟩

/-- The outcome of a text is that of its outline. -/
theorem outcome_ofText (settings : Settings) (text : String) :
    (Outline.ofText settings text).outcome = some (evaluateWith settings text) :=
  (Evaluation.run_agrees settings text).outcome_eq

/-- **Evaluating while parsing is parsing first and computing afterwards**, for well-formed and
    malformed texts alike.  What arithmetic comes to has no bearing on how a text is parsed: it can
    only stop the reading before the outline is complete. -/
theorem evaluateWith_eq_twoPasses (settings : Settings) (text : String) :
    let outline := Outline.ofText settings text
    outline.outcome = some (evaluateWith settings text) ∧
      (Evaluation.run settings text).reads <+: outline.pulled ∧
      ∀ stack, execute outline.code [] = .ok stack →
        (Evaluation.run settings text).reads = outline.pulled := by
  have hagrees := Evaluation.run_agrees settings text
  exact ⟨outcome_ofText settings text, hagrees.reads_prefix, hagrees.reads_eq⟩

-- the division comes before the missing parenthesis, but the stray before the division
example : evaluateWith {} "1 / 0 + (2" = .error ⟨.divisionByZero, 2⟩ := by decide +kernel
example : evaluateWith {} "1 / 0 @" = .error ⟨.strayCharacter '@', 6⟩ := by decide +kernel

end Calculator
