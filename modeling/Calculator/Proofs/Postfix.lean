/-
  Postfix code and the machine that runs it.

  Problem: compute a value from a plain list of instructions, with no grammar left in it, and say
  which instruction is to blame when there is none.

  1. **Machine** — `execute`: one stack of numbers.  A literal is checked and put on top; an
     operator takes its right operand off the top and its left one from below, and puts the result
     in their place.  A fault stops the machine.  So does a missing operand, which is no fault of
     the expression but of the code, and is therefore kept apart (`Halt.underflow`).

  2. **Code of a phrase** — `Phrase.code`: its literals and operators in post-order, each operator
     behind its operands.

  3. **The crux (`Phrase.does_code`)** — the code of a phrase puts the value of the phrase on the
     stack, whatever lies below, or stops with the phrase's own fault.  So the operands are never
     missing, and the fault of a phrase belongs to the first instruction that fails
     (`Phrase.eval_eq_error`).
-/
import Calculator.Proofs.Grammar

namespace Calculator

/-! ## The machine -/

/-- What an expression asks to be done, with the place of the token that asks for it. -/
inductive Instruction where
  | push (literal : Literal) (position : Nat)
  | apply (op : Operator) (position : Nat)
  deriving DecidableEq

/-- Why the machine stops early. -/
inductive Halt where
  | fault (fault : Fault)
  /-- An operator without its operands. -/
  | underflow
  deriving DecidableEq

instance decidableEqExcept {ε α : Type} [DecidableEq ε] [DecidableEq α] :
    DecidableEq (Except ε α)
  | .ok a, .ok b => decidable_of_iff (a = b) ⟨congrArg _, Except.ok.inj⟩
  | .error e, .error f => decidable_of_iff (e = f) ⟨congrArg _, Except.error.inj⟩
  | .ok _, .error _ | .error _, .ok _ => isFalse fun h => by cases h

/-- Puts a value on the stack, if there is one. -/
def deliver (value : Except Fault Binary64) (stack : List Binary64) :
    Except Halt (List Binary64) :=
  match value with
  | .ok v => .ok (v :: stack)
  | .error fault => .error (.fault fault)

namespace Instruction

/-- The place of the token that asks for the instruction. -/
def position : Instruction → Nat
  | .push _ position | .apply _ position => position

/-- One step of the machine. -/
def run : Instruction → List Binary64 → Except Halt (List Binary64)
  | .push literal position, stack => deliver (literal.toBinary64.checked position) stack
  | .apply op position, right :: left :: stack => deliver (op.apply left right position) stack
  | .apply _ _, _ => .error .underflow

theorem run_push (literal : Literal) (position : Nat) (stack : List Binary64) :
    (push literal position).run stack = deliver (literal.toBinary64.checked position) stack := rfl

theorem run_apply (op : Operator) (position : Nat) (left right : Binary64)
    (stack : List Binary64) :
    (apply op position).run (right :: left :: stack) =
      deliver (op.apply left right position) stack := rfl

end Instruction

/-- Runs the instructions in order, until one of them stops the machine. -/
def execute (code : List Instruction) (stack : List Binary64) : Except Halt (List Binary64) :=
  code.foldlM (fun stack instruction => instruction.run stack) stack

theorem execute_cons (instruction : Instruction) (code : List Instruction)
    (stack : List Binary64) :
    execute (instruction :: code) stack = instruction.run stack >>= execute code := rfl

theorem execute_append (code code' : List Instruction) (stack : List Binary64) :
    execute (code ++ code') stack = execute code stack >>= execute code' := by
  simp only [execute, List.foldlM_append]
  rfl

/-- A single instruction is a program. -/
theorem execute_singleton (instruction : Instruction) (stack : List Binary64) :
    execute [instruction] stack = instruction.run stack := by
  rw [execute_cons]
  cases instruction.run stack <;> rfl

/-- When the machine stops early, it is at the first instruction that fails. -/
theorem execute_eq_error {code : List Instruction} {halt : Halt} :
    ∀ {stack : List Binary64}, execute code stack = .error halt →
      ∃ before instruction behind reached, code = before ++ instruction :: behind ∧
        execute before stack = .ok reached ∧ instruction.run reached = .error halt := by
  induction code with
  | nil =>
    intro stack h
    cases h
  | cons instruction code ih =>
    intro stack h
    rw [execute_cons] at h
    rcases hrun : instruction.run stack with halt' | reached
    · rw [hrun] at h
      cases h
      exact ⟨[], instruction, code, stack, rfl, rfl, hrun⟩
    · rw [hrun] at h
      obtain ⟨before, failing, behind, last, rfl, hbefore, hfailing⟩ := ih h
      refine ⟨instruction :: before, failing, behind, last, rfl, ?_, hfailing⟩
      rw [execute_cons, hrun]
      exact hbefore

/-! ## Faults of the machine -/

/-- The causes that lie in the numbers, not in the text or its tokens. -/
def Cause.IsArithmetic (cause : Cause) : Prop := cause = .divisionByZero ∨ cause = .overflow

/-- A number that does not pass the check is an overflow at the place it was checked for. -/
theorem Binary64.fault_of_checked {x : Binary64} {position : Nat} {fault : Fault}
    (h : x.checked position = .error fault) : fault = ⟨.overflow, position⟩ := by
  simp only [checked] at h
  split at h
  · cases h
  · cases h
    rfl

/-- Such a number is not finite. -/
theorem Binary64.isFinite_of_checked {x : Binary64} {position : Nat} {fault : Fault}
    (h : x.checked position = .error fault) : x.isFinite = false := by
  rw [← Bool.not_eq_true]
  intro hfinite
  rw [checked, if_pos hfinite] at h
  cases h

/-- An operator fails at its own place, for a reason that lies in the numbers. -/
theorem Operator.fault_of_apply {op : Operator} {left right : Binary64} {position : Nat}
    {fault : Fault} (h : op.apply left right position = .error fault) :
    fault.position = position ∧ fault.cause.IsArithmetic := by
  have hchecked : ∀ {x : Binary64}, x.checked position = .error fault →
      fault.position = position ∧ fault.cause.IsArithmetic := by
    intro x hx
    rw [Binary64.fault_of_checked hx]
    exact ⟨rfl, .inr rfl⟩
  cases op <;> simp only [apply] at h
  case div =>
    split at h
    · cases h
      exact ⟨rfl, .inl rfl⟩
    · exact hchecked h
  all_goals exact hchecked h

/-- A value that is on top of the stack has been put there. -/
theorem deliver_eq_ok {value : Except Fault Binary64} {stack : List Binary64} {v : Binary64} :
    deliver value stack = .ok (v :: stack) ↔ value = .ok v := by
  cases value <;> simp [deliver]

theorem deliver_eq_fault {value : Except Fault Binary64} {stack : List Binary64} {fault : Fault} :
    deliver value stack = .error (.fault fault) ↔ value = .error fault := by
  cases value <;> simp [deliver]

/-- An instruction fails at the place of its token, for a reason that lies in the numbers. -/
theorem Instruction.fault_of_run {instruction : Instruction} {stack : List Binary64}
    {fault : Fault} (h : instruction.run stack = .error (.fault fault)) :
    fault.position = instruction.position ∧ fault.cause.IsArithmetic := by
  match instruction, stack, h with
  | .push literal position, stack, h =>
    rw [Binary64.fault_of_checked (deliver_eq_fault.1 h)]
    exact ⟨rfl, .inr rfl⟩
  | .apply op position, right :: left :: stack, h =>
    exact Operator.fault_of_apply (deliver_eq_fault.1 h)

/-! ## The code of a phrase -/

/-- The literals and operators of a phrase in post-order. -/
def Phrase.code : {k : Nonterminal} → Phrase k → List Instruction
  | _, .integer literal position => [.push literal position]
  | _, .group _ inner _ => inner.code
  | _, .term inner => inner.code
  | _, .chain first more => first.code ++ more.code
  | _, .done => []
  | _, .round op position _ right more => right.code ++ .apply op position :: more.code

/-- Code that does what a phrase means: it puts the value on the stack, and the code of rounds takes
    the value that the chain has come to from there. -/
def Nonterminal.Does : (k : Nonterminal) → k.Meaning → List Instruction → Prop
  | .operand _, value, code | .chain _, value, code =>
    ∀ stack, execute code stack = deliver value stack
  | .rounds _, meaning, code =>
    ∀ left stack, execute code (left :: stack) = deliver (meaning left) stack

/-- **Compiled phrases mean the same.**  The induction is on the phrase; that nothing is assumed of
    the stack is what lets the code of a right operand run on top of the left one. -/
theorem Phrase.does_code {k : Nonterminal} (e : Phrase k) : k.Does e.eval e.code := by
  induction e with
  | integer literal position =>
    intro stack
    exact execute_singleton (.push literal position) stack
  | group opening inner closing ih => exact ih
  | term inner ih => exact ih
  | chain first more ih₁ ih₂ =>
    intro stack
    have hfirst : execute first.code stack = deliver first.eval stack := ih₁ stack
    show execute (first.code ++ more.code) stack = deliver (Except.bind first.eval more.eval) stack
    rw [execute_append, hfirst]
    rcases first.eval with fault | left
    · rfl
    · exact ih₂ left stack
  | done =>
    intro left stack
    rfl
  | round op position h right more ih₁ ih₂ =>
    intro left stack
    have hright : execute right.code (left :: stack) = deliver right.eval (left :: stack) :=
      ih₁ (left :: stack)
    show execute (right.code ++ .apply op position :: more.code) (left :: stack) =
      deliver (Except.bind right.eval fun value =>
        Except.bind (op.apply left value position) more.eval) stack
    rw [execute_append, hright]
    rcases right.eval with fault | value
    · rfl
    show Except.bind (deliver (op.apply left value position) stack) (execute more.code) =
      deliver (Except.bind (op.apply left value position) more.eval) stack
    rcases op.apply left value position with fault | result
    · rfl
    · exact ih₂ result stack

/-- The code of an expression computes its value and nothing else. -/
theorem execute_code (e : Expression) : execute e.code [] = deliver e.eval [] := e.does_code []

/-- The code of an expression comes to its value, and to no other one. -/
theorem execute_code_eq_ok {e : Expression} {value : Binary64} :
    execute e.code [] = .ok [value] ↔ e.eval = .ok value := by
  rw [execute_code, deliver_eq_ok]

/-- The fault of an expression is that of the first literal or operator, in post-order, that fails,
    and it lies at the place of that literal or operator. -/
theorem Phrase.eval_eq_error {e : Expression} {fault : Fault} (h : e.eval = .error fault) :
    ∃ before instruction behind stack, e.code = before ++ instruction :: behind ∧
      execute before [] = .ok stack ∧ instruction.run stack = .error (.fault fault) ∧
      fault.position = instruction.position ∧ fault.cause.IsArithmetic := by
  have hhalt : execute e.code [] = .error (.fault fault) := by
    rw [execute_code, deliver_eq_fault]
    exact h
  obtain ⟨before, instruction, behind, stack, hcode, hbefore, hrun⟩ := execute_eq_error hhalt
  exact ⟨before, instruction, behind, stack, hcode, hbefore, hrun, Instruction.fault_of_run hrun⟩

end Calculator
