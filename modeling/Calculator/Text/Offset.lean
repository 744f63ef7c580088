/-
  Offsets.

  A place in a text is the number of bytes in front of it, with the text written in UTF-8.  A
  character therefore moves the offset on by one to four, and only `byteLength` knows by how much.
-/

namespace Calculator.Text

/-- The number of bytes that the characters take in UTF-8. -/
def byteLength (cs : List Char) : Nat := cs.foldr (fun c bytes => c.utf8Size + bytes) 0

@[simp] theorem byteLength_nil : byteLength [] = 0 := rfl

@[simp] theorem byteLength_cons (c : Char) (cs : List Char) :
    byteLength (c :: cs) = c.utf8Size + byteLength cs := rfl

@[simp] theorem byteLength_append (xs ys : List Char) :
    byteLength (xs ++ ys) = byteLength xs + byteLength ys := by
  induction xs with
  | nil => simp
  | cons c xs ih => simp only [List.cons_append, byteLength_cons, ih, Nat.add_assoc]

example : byteLength ['a', 'é', '語', '😀'] = 10 := by decide

end Calculator.Text
