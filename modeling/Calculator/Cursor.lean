/-
  A cursor over the pieces of a text.

  The cursor hands out one piece at a time.  A token is handed out as such; a stray character comes
  as a fault, and asking again goes on behind it.  When the pieces are used up the answer is the end
  of the input, as often as one asks, and its place is the length of the text.

  `position` is the start of the last piece handed out, whether it was a token or a fault.
-/
import Calculator.Fault
import Calculator.Lexeme

namespace Calculator

/-- The pieces still to come, the byte length of the whole text, and the start of the last piece
    that was handed out.  `left` counts the pieces still to come, so that nobody has to walk along
    them to know. -/
structure Cursor where
  pending : List Lexeme
  left : Nat
  length : Nat
  position : Nat
  left_eq : left = pending.length
  deriving DecidableEq

namespace Cursor

/-- A cursor in front of the given pieces of a text of the given length. -/
def ofPieces (pending : List Lexeme) (length position : Nat) : Cursor :=
  ⟨pending, pending.length, length, position, rfl⟩

/-- A cursor in front of the first piece. -/
def ofText (text : String) : Cursor :=
  ofPieces (Lexeme.scan 0 text.toList) (Text.byteLength text.toList) 0

/-- The cursor behind the first of the pieces still to come, which is given with the others. -/
def behind (cursor : Cursor) (piece : Lexeme) (rest : List Lexeme)
    (h : cursor.pending = piece :: rest) : Cursor where
  pending := rest
  left := cursor.left - 1
  length := cursor.length
  position := piece.start
  left_eq := by simp [cursor.left_eq, h]

/-- The next token, or the fault that stands in its place, and the cursor behind it. -/
def next (cursor : Cursor) : Except Fault Token × Cursor :=
  match h : cursor.pending with
  | [] => (.ok .endOfInput, { cursor with position := cursor.length })
  | piece :: rest =>
    match piece.reading with
    | .token token => (.ok token, cursor.behind piece rest h)
    | .stray c => (.error ⟨.strayCharacter c, piece.start⟩, cursor.behind piece rest h)

/-- The cursor after a number of steps, whatever they handed out. -/
def skip (cursor : Cursor) : Nat → Cursor
  | 0 => cursor
  | n + 1 => cursor.next.2.skip n

/-- Two cursors are the same if they agree on all but the count, which follows from the rest. -/
theorem ext_pending {c d : Cursor} (hpending : c.pending = d.pending)
    (hlength : c.length = d.length) (hposition : c.position = d.position) : c = d := by
  obtain ⟨pending, left, length, position, hleft⟩ := c
  obtain ⟨pending', left', length', position', hleft'⟩ := d
  subst hpending hlength hposition
  simp [hleft, hleft']

/-- Without pieces to come, the next token is the end of the input. -/
theorem next_of_nil {c : Cursor} (h : c.pending = []) :
    c.next = (.ok .endOfInput, ofPieces [] c.length c.length) := by
  unfold next
  split
  · refine Prod.ext rfl (ext_pending h rfl rfl)
  · next h' => simp [h] at h'

/-- The next of the pieces to come is handed out as the token or the fault that it is. -/
theorem next_of_cons {c : Cursor} {piece : Lexeme} {rest : List Lexeme}
    (h : c.pending = piece :: rest) :
    c.next = (match piece.reading with
      | .token token => .ok token
      | .stray x => .error ⟨.strayCharacter x, piece.start⟩,
      ofPieces rest c.length piece.start) := by
  unfold next
  split
  · next h' => simp [h] at h'
  · next piece' rest' h' =>
    obtain ⟨rfl, rfl⟩ : piece = piece' ∧ rest = rest' := by simpa [h] using h'
    split <;> exact Prod.ext rfl (ext_pending rfl rfl rfl)

/-- A step uses up one piece, as long as there is one. -/
@[simp] theorem pending_next (c : Cursor) : c.next.2.pending = c.pending.tail := by
  rcases h : c.pending with _ | ⟨piece, rest⟩
  · rw [next_of_nil h]; rfl
  · rw [next_of_cons h]; rfl

/-- The length of the text stays what it is. -/
@[simp] theorem length_next (c : Cursor) : c.next.2.length = c.length := by
  rcases h : c.pending with _ | ⟨piece, rest⟩
  · rw [next_of_nil h]; rfl
  · rw [next_of_cons h]; rfl

end Cursor

end Calculator
