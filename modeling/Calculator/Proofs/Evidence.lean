/-
  Faults tell what stands in the text.

  Problem: a fault has a place and a cause.  Show that the place is one of the text, and that what
  the cause says is there is there: the stray character, the token that was found, the parenthesis,
  the operator or the literal.

  1. **Specification** — `Cause.Evident`: for each cause, the piece that begins at the place and the
     character it begins with.  Which kinds may be found where another one is wanted is a table,
     `TokenKind.mistakes`.

  2. **Characters (`charAt_of_mem`)** — a piece of a text begins with a character of it, at its own
     place, and of the sort that its reading says.

  3. **The crux (`Outline.Within`)** — rules pass on the pieces that they are given and write
     instructions for nothing else, whether they end well or fail.  So an instruction that fails is
     one of a token of the text, and its fault lies there.  Beside that, where an operand is wanted
     an opening parenthesis may be too deep, but it is never misplaced.

  4. **Result (`evaluateWith_fault_evident`)** — faults of the text and its tokens by the verdict of
     the automaton, those that lie in the numbers by the instruction that fails.
-/
import Calculator.Proofs.FirstFault

namespace Calculator

open Text

/-! ## Specification -/

/-- The place lies between two characters of the text, or at one of its ends. -/
def IsBoundary (text : String) (position : Nat) : Prop :=
  ∃ before behind, text.toList = before ++ behind ∧ byteLength before = position

/-- The character begins at the place. -/
def CharAt (text : String) (position : Nat) (c : Char) : Prop :=
  ∃ before behind, text.toList = before ++ c :: behind ∧ byteLength before = position

/-- At the place begins a piece with the given reading. -/
def ReadsAt (text : String) (position : Nat) (reading : Reading) : Prop :=
  ⟨reading, position⟩ ∈ Placed.ofText text

/-- At the place begins a token of the given kind, or the text ends there. -/
def FoundAt (text : String) (position : Nat) : TokenKind → Prop
  | .endOfInput => position = byteLength text.toList
  | found => ∃ token, token.kind = found ∧ ReadsAt text position (.token token)

/-- The kinds that may be found where the given one is wanted.  An opening parenthesis is not found
    where an integer is wanted, since it begins an operand too; nor is an operator found behind a
    complete operand, since an expression goes on with it. -/
def TokenKind.mistakes : TokenKind → List TokenKind
  | .integer =>
    [.operator .add, .operator .sub, .operator .mul, .operator .div, .rightParen, .endOfInput]
  | .rightParen => [.integer, .leftParen, .endOfInput]
  | .endOfInput => [.integer, .leftParen, .rightParen]
  | .operator _ | .leftParen => []

/-- What the cause of a fault says about its place is so. -/
def Cause.Evident (settings : Settings) (text : String) (position : Nat) : Cause → Prop
  | .strayCharacter c =>
    ReadsAt text position (.stray c) ∧ CharAt text position c ∧
      ¬ isBlank c ∧ ¬ c.isDigit ∧ ∀ token, (c, token) ∉ Token.symbols
  | .unexpected expected found =>
    FoundAt text position found ∧ found ∈ expected.mistakes ∧
      (expected = .endOfInput → settings.trailing = .rejected)
  | .nestedTooDeep limit =>
    limit = settings.maxDepth ∧ ReadsAt text position (.token .leftParen) ∧
      CharAt text position '('
  | .divisionByZero =>
    ReadsAt text position (.token (.operator .div)) ∧ CharAt text position '/'
  | .overflow =>
    (∃ op : Operator, ReadsAt text position (.token (.operator op)) ∧
      CharAt text position op.symbol) ∨
    ∃ literal c, ReadsAt text position (.token (.integer literal)) ∧
      literal.toBinary64.isFinite = false ∧ CharAt text position c ∧ c.isDigit

/-! ## Characters -/

variable {text : String} {position : Nat}

/-- What a piece begins with. -/
def Reading.BeginsWith (c : Char) : Reading → Prop
  | .stray c' => c = c' ∧ ¬ isBlank c ∧ ¬ c.isDigit ∧ ∀ token, (c, token) ∉ Token.symbols
  | .token (.integer _) => c.isDigit
  | .token symbol => (c, symbol) ∈ Token.symbols

/-- **A piece begins with a character of the text**, which is of the sort that its reading says. -/
theorem charAt_of_mem {reading : Reading} (h : ReadsAt text position reading) :
    ∃ c, CharAt text position c ∧ reading.BeginsWith c := by
  obtain ⟨piece, hpiece, hplaced⟩ := List.mem_map.1 h
  obtain ⟨rfl, rfl⟩ := Placed.mk.inj hplaced
  obtain ⟨s, hstart, _, hreads⟩ := (isCut_scan text.toList).spans piece hpiece
  obtain ⟨c, more, hrun, _, htext⟩ := hreads.exists_cons
  refine ⟨c, ⟨s.before, more ++ s.behind, htext, hstart⟩, ?_⟩
  generalize piece.reading = reading at hreads
  have hsingle : ∀ d, s.run = [d] → d = c := by
    intro d hd
    rw [hrun] at hd
    exact (List.cons.inj hd).1.symm
  cases hreads with
  | integer _ hdigits _ _ =>
    show c.isDigit
    exact hdigits c (by simp [hrun])
  | symbol d token hd hsymbol =>
    obtain rfl := hsingle d hd
    cases token with
    | integer literal => simp [Token.symbols] at hsymbol
    | operator | leftParen | rightParen | endOfInput => exact hsymbol
  | stray d hd hblank hdigit hsymbol =>
    obtain rfl := hsingle d hd
    exact ⟨rfl, hblank, hdigit, hsymbol⟩

/-- An opening parenthesis is written as such. -/
theorem charAt_leftParen (h : ReadsAt text position (.token .leftParen)) :
    CharAt text position '(' := by
  obtain ⟨c, hchar, hbegins⟩ := charAt_of_mem h
  obtain rfl : c = '(' := by simpa [Reading.BeginsWith, Token.symbols] using hbegins
  exact hchar

/-- An operator is written as its symbol. -/
theorem charAt_operator {op : Operator} (h : ReadsAt text position (.token (.operator op))) :
    CharAt text position op.symbol := by
  obtain ⟨c, hchar, hbegins⟩ := charAt_of_mem h
  obtain rfl : c = op.symbol := by
    cases op <;> simpa [Reading.BeginsWith, Token.symbols, Operator.symbol] using hbegins
  exact hchar

/-- **A literal is a run of digits** that nothing extends, and is worth what the digits say. -/
theorem ReadsAt.exists_digits {literal : Literal}
    (h : ReadsAt text position (.token (.integer literal))) :
    ∃ s : Span text.toList, s.start = position ∧ s.run ≠ [] ∧ (∀ c ∈ s.run, c.isDigit) ∧
      (∀ c ∈ s.before.getLast?, ¬ c.isDigit) ∧ (∀ c ∈ s.behind.head?, ¬ c.isDigit) ∧
      literal = .ofDigits s.run := by
  obtain ⟨piece, hpiece, hplaced⟩ := List.mem_map.1 h
  obtain ⟨hreading, rfl⟩ := Placed.mk.inj hplaced
  obtain ⟨s, hstart, _, hreads⟩ := (isCut_scan text.toList).spans piece hpiece
  rw [hreading] at hreads
  cases hreads with
  | integer hrun hdigits hbefore hbehind => exact ⟨s, hstart, hrun, hdigits, hbefore, hbehind, rfl⟩
  | symbol d token hd hsymbol => simp [Token.symbols] at hsymbol

/-- Where a character begins is a boundary. -/
theorem CharAt.isBoundary {c : Char} (h : CharAt text position c) : IsBoundary text position := by
  obtain ⟨before, behind, htext, hposition⟩ := h
  exact ⟨before, c :: behind, htext, hposition⟩

/-- So is where a piece begins. -/
theorem ReadsAt.isBoundary {reading : Reading} (h : ReadsAt text position reading) :
    IsBoundary text position := by
  obtain ⟨c, hchar, _⟩ := charAt_of_mem h
  exact hchar.isBoundary

/-- One piece begins at a place, at most. -/
theorem ReadsAt.unique {reading reading' : Reading} (h : ReadsAt text position reading)
    (h' : ReadsAt text position reading') : reading = reading' := by
  obtain ⟨before, rest, htext⟩ := List.append_of_mem h
  rw [ReadsAt, htext] at h'
  rcases List.mem_append.1 h' with hbefore | hrest
  · obtain ⟨front, between, rfl⟩ := List.append_of_mem hbefore
    rw [List.append_assoc, List.cons_append] at htext
    have hlt := (Placed.position_lt htext).1 _ (List.mem_append_right between List.mem_cons_self)
    exact absurd hlt (Nat.lt_irrefl _)
  · rcases List.mem_cons.1 hrest with hsame | hbehind
    · cases hsame
      rfl
    · exact absurd ((Placed.position_lt htext).1 _ hbehind) (Nat.lt_irrefl _)

/-- No token that begins at a place is the end. -/
theorem ReadsAt.ne_endOfInput {token : Token} (h : ReadsAt text position (.token token)) :
    token ≠ .endOfInput := by
  rintro rfl
  exact Placed.reading_ne_end h rfl

/-- No boundary lies behind the end. -/
theorem IsBoundary.le (h : IsBoundary text position) : position ≤ byteLength text.toList := by
  obtain ⟨before, behind, htext, rfl⟩ := h
  rw [htext, byteLength_append]
  omega

/-- Evidence for a cause lies at a boundary. -/
theorem Cause.Evident.isBoundary {settings : Settings} {cause : Cause}
    (h : cause.Evident settings text position) : IsBoundary text position := by
  cases cause with
  | strayCharacter c => exact h.2.1.isBoundary
  | unexpected expected found =>
    have hfound := h.1
    cases found with
    | endOfInput =>
      have hend : byteLength text.toList = position := Eq.symm hfound
      exact ⟨text.toList, [], (List.append_nil _).symm, hend⟩
    | integer | operator | leftParen | rightParen =>
      obtain ⟨token, _, hreads⟩ := hfound
      exact hreads.isBoundary
  | nestedTooDeep limit => exact h.2.2.isBoundary
  | divisionByZero => exact h.2.isBoundary
  | overflow =>
    rcases h with ⟨op, _, hchar⟩ | ⟨literal, c, _, _, hchar, _⟩
    · exact hchar.isBoundary
    · exact hchar.isBoundary

/-! ## What rules write and pass on -/

/-- The token that asks for an instruction, at its place. -/
def Instruction.placed : Instruction → Placed
  | .push literal position => ⟨.token (.integer literal), position⟩
  | .apply op position => ⟨.token (.operator op), position⟩

namespace Outline

variable {α β : Type} {pieces ahead : List Placed} {finish : Nat}

/-- The outline keeps to some pieces of a text: it writes instructions for them only, and what it
    ends well in is as given.  An opening parenthesis is not what it finds misplaced where an
    operand is wanted. -/
structure Within (pieces : List Placed) (o : Outline α) (post : α → Prop) : Prop where
  code : ∀ instruction ∈ o.code, instruction.placed ∈ pieces
  fault : ∀ position, o.ending ≠ .error ⟨.unexpected .integer .leftParen, position⟩
  rest : ∀ a, o.ending = .ok a → post a

/-- A rule that keeps to the pieces, if those ahead are among them. -/
def KeepsTo (rule : Rule) (pieces : List Placed) : Prop :=
  ∀ ahead, ahead ⊆ pieces → Within pieces (rule ahead) (· ⊆ pieces)

/-- **Sequences keep to the pieces**, if their members do. -/
theorem Within.bind {o : Outline α} {next : α → Outline β} {mid : α → Prop} {post : β → Prop}
    (h : Within pieces o mid) (hnext : ∀ a, mid a → Within pieces (next a) post) :
    Within pieces (o >>= next) post := by
  rcases hending : o.ending with fault | a
  · rw [bind_of_error hending]
    refine ⟨h.code, fun position hfault => ?_, fun b hb => ?_⟩
    · cases hfault
      exact h.fault position hending
    · cases hb
  · rw [bind_of_ok hending]
    have hrest := hnext a (h.rest a hending)
    refine ⟨fun instruction hmem => ?_, hrest.fault, hrest.rest⟩
    rcases List.mem_append.1 hmem with hmem | hmem
    · exact h.code instruction hmem
    · exact hrest.code instruction hmem

theorem within_pure {a : α} {post : α → Prop} (h : post a) : Within pieces (pure a) post := by
  refine ⟨fun _ hmem => ?_, fun _ hfault => ?_, fun b hb => ?_⟩
  · cases hmem
  · cases hfault
  · cases hb
    exact h

theorem within_fail {post : α → Prop} {fault : Fault}
    (h : fault.cause ≠ .unexpected .integer .leftParen) :
    Within pieces (fail fault : Outline α) post := by
  refine ⟨fun _ hmem => ?_, fun position hfault => ?_, fun b hb => ?_⟩
  · cases hmem
  · cases hfault
    exact h rfl
  · cases hb

theorem within_emit {instruction : Instruction} (h : instruction.placed ∈ pieces) :
    Within pieces (emit instruction) fun _ => True := by
  refine ⟨fun other hmem => ?_, fun _ hfault => ?_, fun _ _ => trivial⟩
  · rw [List.mem_singleton.1 hmem]
    exact h
  · cases hfault

/-- Looking ahead keeps to the pieces. -/
theorem within_pull : KeepsTo (pull finish) pieces := by
  intro ahead hahead
  refine ⟨fun instruction hmem => ?_, fun position hfault => ?_, fun rest hrest => ?_⟩
  · rw [code_pull] at hmem
    cases hmem
  · rw [pull.eq_def] at hfault
    split at hfault <;> cases hfault
  · have hsame := (yields_pull.1 ⟨rfl, hrest⟩).2.1
    rw [hsame]
    exact hahead

/-- So does finding a piece misplaced, unless it is an opening parenthesis in place of an
    operand. -/
theorem within_misplaced {expected : TokenKind} {post : α → Prop}
    (h : expected = .integer →
      ∀ position behind, ahead ≠ ⟨.token .leftParen, position⟩ :: behind) :
    Within pieces (fail (misplaced finish expected ahead) : Outline α) post := by
  refine within_fail fun hcause => ?_
  rw [misplaced.eq_def] at hcause
  split at hcause
  · cases hcause
  · next token position behind =>
    obtain ⟨rfl, hkind⟩ := Cause.unexpected.inj hcause
    cases token with
    | leftParen => exact h rfl position behind rfl
    | integer | operator | rightParen | endOfInput => cases hkind
  · cases hcause

theorem close_within : KeepsTo (close finish) pieces := by
  intro ahead hahead
  rw [close.eq_def]
  split
  · exact within_pull _ (List.cons_subset.1 hahead).2
  · exact within_misplaced fun h => by cases h

/-- Rounds keep to the pieces, if their operands do. -/
theorem rounds_within {level : Level} {operand : Rule} (h : KeepsTo operand pieces) (n : Nat) :
    KeepsTo (rounds finish level operand n) pieces := by
  induction n with
  | zero => exact fun ahead hahead => within_pure hahead
  | succ n ih =>
    intro ahead hahead
    rw [rounds]
    rcases hnext : operator? level ahead with _ | ⟨op, position, behind⟩
    · exact within_pure hahead
    · obtain ⟨_, rfl⟩ := operator?_eq_some.1 hnext
      obtain ⟨hoperator, hbehind⟩ := List.cons_subset.1 hahead
      refine .bind (within_pull behind hbehind) fun right hright => ?_
      refine .bind (h right hright) fun rest hrest => ?_
      exact .bind (within_emit hoperator) fun _ _ => ih rest hrest

theorem chain_within {level : Level} {operand : Rule} (h : KeepsTo operand pieces) :
    KeepsTo (chain finish level operand) pieces := by
  intro ahead hahead
  exact .bind (h ahead hahead) fun rest hrest => rounds_within h rest.length rest hrest

theorem exprBy_within {factor : Rule} (h : KeepsTo factor pieces) :
    KeepsTo (exprBy finish factor) pieces :=
  chain_within (chain_within h)

/-- Factors keep to the pieces, if what begins with a parenthesis does. -/
theorem factorBy_within {parenthesized : Nat → Rule}
    (h : ∀ position, KeepsTo (parenthesized position) pieces) :
    KeepsTo (factorBy finish parenthesized) pieces := by
  intro ahead hahead
  rw [factorBy.eq_def]
  split
  · exact h _ _ (List.cons_subset.1 hahead).2
  · obtain ⟨hliteral, hbehind⟩ := List.cons_subset.1 hahead
    exact .bind (within_emit hliteral) fun _ _ => within_pull _ hbehind
  · next hparen _ =>
    refine within_misplaced fun _ position behind heq => ?_
    exact hparen position behind heq

/-- **Factors keep to the pieces**, by induction on how many parentheses may still be opened. -/
theorem factorWithin_within (limit finish : Nat) :
    ∀ budget, KeepsTo (factorWithin limit finish budget) pieces := by
  intro budget
  induction budget with
  | zero => exact factorBy_within fun _ _ _ => within_fail fun h => by cases h
  | succ budget ih =>
    refine factorBy_within fun _ behind hbehind => ?_
    refine .bind (within_pull behind hbehind) fun ahead hahead => ?_
    exact .bind (exprBy_within ih ahead hahead) fun rest hrest => close_within rest hrest

theorem trailing_within (leftOver : Trailing) : KeepsTo (trailing finish leftOver) pieces := by
  intro rest hrest
  rw [trailing.eq_def]
  split
  · exact within_pure hrest
  · exact within_pull [] hrest
  · exact within_misplaced fun h => by cases h

/-- **The outline of a text keeps to the text.** -/
theorem ofText_within (settings : Settings) (text : String) :
    Within (Placed.ofText text) (ofText settings text) (· ⊆ Placed.ofText text) := by
  refine .bind (within_pull _ (List.Subset.refl _)) fun ahead hahead => ?_
  refine .bind (exprBy_within (factorWithin_within _ _ _) ahead hahead) fun rest hrest => ?_
  exact trailing_within _ rest hrest

end Outline

/-! ## Evidence -/

variable {settings : Settings} {fault : Fault}

/-- A division by zero is the fault of a division. -/
theorem Operator.eq_div_of_apply {op : Operator} {left right : Binary64}
    (h : op.apply left right position = .error fault) (hcause : fault.cause = .divisionByZero) :
    op = .div := by
  cases op with
  | div => rfl
  | add | sub | mul =>
    rw [Binary64.fault_of_checked h] at hcause
    cases hcause

/-- A fault that lies in the numbers is evident: its instruction is that of a token of the text. -/
theorem evident_of_isArithmetic (h : evaluateWith settings text = .error fault)
    (hcause : fault.cause.IsArithmetic) : fault.cause.Evident settings text fault.position := by
  have houtcome : (Outline.ofText settings text).outcome = some (.error fault) := by
    rw [outcome_ofText, h]
  have hwithin := (Outline.ofText_within settings text).code
  rcases Outline.outcome_eq_error.1 houtcome with hcode | ⟨_, hfails⟩
  · obtain ⟨before, instruction, behind, stack, hsplit, _, hrun⟩ := execute_eq_error hcode
    have hmem : instruction.placed ∈ Placed.ofText text :=
      hwithin instruction (by simp [hsplit])
    match instruction, stack, hrun with
    | .push literal position, stack, hrun =>
      have hchecked := deliver_eq_fault.1 hrun
      obtain rfl := Binary64.fault_of_checked hchecked
      have hinfinite := Binary64.isFinite_of_checked hchecked
      obtain ⟨c, hchar, hdigit⟩ := charAt_of_mem hmem
      exact .inr ⟨literal, c, hmem, hinfinite, hchar, hdigit⟩
    | .apply op position, right :: left :: stack, hrun =>
      have happly := deliver_eq_fault.1 hrun
      obtain ⟨cause, position'⟩ := fault
      obtain ⟨rfl, hkind⟩ := Operator.fault_of_apply happly
      have hreads : ReadsAt text position' (.token (.operator op)) := hmem
      rcases hkind with rfl | rfl
      · obtain rfl := Operator.eq_div_of_apply happly rfl
        exact ⟨hreads, charAt_operator hreads⟩
      · exact .inl ⟨op, hreads, charAt_operator hreads⟩
  · -- no fault of the text or its tokens lies in the numbers
    obtain ⟨_, _, _, _, _, hrefuses⟩ := Outline.ofText_breaks hfails
    cases hrefuses <;> rcases hcause with hcause | hcause <;> cases hcause

/-- The end is what is wanted behind a complete expression. -/
theorem Expectation.wanted_eq_endOfInput {s : Expectation} :
    s.wanted = .endOfInput ↔ s = .operator 0 := by
  rcases s with opened | _ | opened <;> simp [wanted]

/-- The end may be found wherever it is not wanted. -/
theorem endOfInput_mem_mistakes {s : Expectation} (h : s ≠ .operator 0) :
    TokenKind.endOfInput ∈ s.wanted.mistakes := by
  rcases s with opened | _ | opened
  · simp [Expectation.wanted, TokenKind.mistakes]
  · exact absurd rfl h
  · simp [Expectation.wanted, TokenKind.mistakes]

/-- What the automaton does not go on with is of a kind that may be found where another one is
    wanted. -/
theorem kind_mem_mistakes {limit : Nat} {s : Expectation} {token : Token}
    (hnext : Expectation.next limit s (.token token) = none) (hend : token ≠ .endOfInput)
    (hparen : s.wanted = .integer → token ≠ .leftParen) : token.kind ∈ s.wanted.mistakes := by
  cases token with
  | endOfInput => exact absurd rfl hend
  | integer literal =>
    rcases s with opened | _ | opened
    · cases hnext
    · simp [Expectation.wanted, TokenKind.mistakes, Token.kind]
    · simp [Expectation.wanted, TokenKind.mistakes, Token.kind]
  | operator op =>
    rcases s with opened | opened
    · cases op <;> simp [Expectation.wanted, TokenKind.mistakes, Token.kind]
    · cases hnext
  | leftParen =>
    rcases s with opened | _ | opened
    · exact absurd rfl (hparen rfl)
    · simp [Expectation.wanted, TokenKind.mistakes, Token.kind]
    · simp [Expectation.wanted, TokenKind.mistakes, Token.kind]
  | rightParen =>
    rcases s with opened | _ | opened
    · simp [Expectation.wanted, TokenKind.mistakes, Token.kind]
    · simp [Expectation.wanted, TokenKind.mistakes, Token.kind]
    · cases hnext

/-- A token that begins at a place is found there. -/
theorem ReadsAt.foundAt {token : Token} (h : ReadsAt text position (.token token)) :
    FoundAt text position token.kind := by
  cases token with
  | endOfInput => exact absurd rfl h.ne_endOfInput
  | integer literal => exact ⟨.integer literal, rfl, h⟩
  | operator op => exact ⟨.operator op, rfl, h⟩
  | leftParen => exact ⟨.leftParen, rfl, h⟩
  | rightParen => exact ⟨.rightParen, rfl, h⟩

/-- A fault of the text or its tokens is evident: it is what the automaton says of a piece of the
    text, or of its end. -/
theorem evident_of_not_isArithmetic (h : evaluateWith settings text = .error fault)
    (hcause : ¬ fault.cause.IsArithmetic) :
    fault.cause.Evident settings text fault.position := by
  have hfails := fails_of_evaluateWith h hcause
  obtain ⟨before, rest, reached, hsplit, _, hrefuses⟩ := Outline.ofText_breaks hfails
  have hmem : ∀ piece ∈ rest, piece ∈ Placed.ofText text := by
    intro piece hpiece
    rw [hsplit]
    exact List.mem_append_right before hpiece
  cases hrefuses with
  | stray _ c position behind =>
    have hreads : ReadsAt text position (.stray c) := hmem _ List.mem_cons_self
    obtain ⟨d, hchar, rfl, hplain⟩ := charAt_of_mem hreads
    exact ⟨hreads, hchar, hplain⟩
  | tooDeep opened position behind hfull =>
    have hreads : ReadsAt text position (.token .leftParen) := hmem _ List.mem_cons_self
    exact ⟨rfl, hreads, charAt_leftParen hreads⟩
  | misplaced _ token position behind hnext hend =>
    have hreads : ReadsAt text position (.token token) := hmem _ List.mem_cons_self
    have hparen : reached.wanted = .integer → token ≠ .leftParen := by
      rintro hwanted rfl
      rw [hwanted] at hfails
      exact (Outline.ofText_within settings text).fault position hfails
    refine ⟨hreads.foundAt, kind_mem_mistakes hnext hreads.ne_endOfInput hparen, fun hwanted => ?_⟩
    exact hend (Expectation.wanted_eq_endOfInput.1 hwanted)
  | ended _ hmore =>
    refine ⟨rfl, endOfInput_mem_mistakes hmore, fun hwanted => ?_⟩
    exact absurd (Expectation.wanted_eq_endOfInput.1 hwanted) hmore

/-- **Every fault describes the text that it was found in.**  It lies at a boundary between two
    characters, and what stands there is what its cause says: a character that starts no token; a
    token of the kind that was found, or the end, where a kind was wanted that it can be mistaken
    for; an opening parenthesis, with the limit of the settings; a division; or an operator or an
    infinite literal. -/
theorem evaluateWith_fault_evident (h : evaluateWith settings text = .error fault) :
    fault.position ≤ byteLength text.toList ∧ IsBoundary text fault.position ∧
      fault.cause.Evident settings text fault.position := by
  have hevident : fault.cause.Evident settings text fault.position := by
    by_cases hcause : fault.cause.IsArithmetic
    · exact evident_of_isArithmetic h hcause
    · exact evident_of_not_isArithmetic h hcause
  exact ⟨hevident.isBoundary.le, hevident.isBoundary, hevident⟩

/-- A closing parenthesis behind an operator, in a text with characters of several widths. -/
theorem misplaced_parenthesis_evident :
    evaluateWith {} "(1 +\u3000)" = .error ⟨.unexpected .integer .rightParen, 7⟩ ∧
      7 ≤ byteLength "(1 +\u3000)".toList ∧ IsBoundary "(1 +\u3000)" 7 ∧
      (Cause.unexpected .integer .rightParen).Evident {} "(1 +\u3000)" 7 := by
  have h : evaluateWith {} "(1 +\u3000)" = .error ⟨.unexpected .integer .rightParen, 7⟩ := by
    decide +kernel
  exact ⟨h, evaluateWith_fault_evident h⟩

end Calculator
