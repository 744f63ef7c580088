/-
  Where the shell writes, and how its work can break off.

  The output is a run of bytes, which may have room for a fixed number of them.  A text that does
  not fit is cut off where the room ends, and the write fails; filling the room exactly does not.
  Reading fails on a line that is not UTF-8.  Either failure ends the shell's work.
-/

namespace Calculator.Shell

/-- Why the shell breaks off. -/
inductive Failure where
  /-- The line that was read is not UTF-8. -/
  | undecodable
  /-- The output has no room for all of a text. -/
  | full
  deriving DecidableEq

/-- The message for a failure. -/
def Failure.message : Failure → String
  | .undecodable => "stream did not contain valid UTF-8"
  | .full => "failed to write whole buffer"

/-- The bytes written so far, and how many there can be at most, if there is a limit. -/
structure Output where
  bytes : ByteArray
  capacity : Option Nat

/-- An output with nothing in it yet. -/
def Output.empty (capacity : Option Nat) : Output := ⟨.empty, capacity⟩

/-- An action that writes, and that a failure may end. -/
abbrev Action := EStateM Failure Output

/-- Writes a text, as far as there is room. -/
def write (text : String) : Action Unit := fun output =>
  let bytes := output.bytes ++ text.toUTF8
  match output.capacity with
  | none => .ok () { output with bytes }
  | some capacity =>
    if bytes.size ≤ capacity then .ok () { output with bytes }
    else .error .full { output with bytes := bytes.extract 0 capacity }

/-- Without a limit, all of a text is written. -/
theorem write_of_unlimited {text : String} {output : Output} (h : output.capacity = none) :
    write text output = .ok () { output with bytes := output.bytes ++ text.toUTF8 } := by
  simp only [write, h]

end Calculator.Shell
