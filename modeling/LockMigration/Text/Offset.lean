/-
Byte offsets. Reports and messages name a place in a text by its offset in the UTF-8 encoding,
while the library works with character positions. `byteOffset` goes from positions to offsets and
`position` back; an offset inside a character belongs to that character, and an offset past the
end belongs to the end.
-/

namespace LockMigration.Text

/-- Number of bytes of the text in UTF-8. -/
def byteLength : List Char → Nat
  | [] => 0
  | c :: cs => c.utf8Size + byteLength cs

/-- The offset in bytes of position `i`. -/
def byteOffset (t : List Char) (i : Nat) : Nat :=
  byteLength (t.take i)

/-- The position of the character whose encoding covers byte `b`, or the end of the text. -/
def position : List Char → Nat → Nat
  | [], _ => 0
  | c :: cs, b => if b < c.utf8Size then 0 else position cs (b - c.utf8Size) + 1

@[simp]
theorem byteLength_append (s t : List Char) : byteLength (s ++ t) = byteLength s + byteLength t := by
  induction s with
  | nil => simp [byteLength]
  | cons c cs ih => simp [byteLength, ih, Nat.add_assoc]

/-- Positions survive the way through their offsets. -/
theorem position_byteOffset (t : List Char) (i : Nat) (h : i ≤ t.length) :
    position t (byteOffset t i) = i := by
  unfold byteOffset
  induction t generalizing i with
  | nil => simp_all [position]
  | cons c cs ih =>
    have hc := c.utf8Size_pos
    cases i with
    | zero => simp [position, byteLength, hc]
    | succ k => simp [position, byteLength, ih k (by simpa using h)]

end LockMigration.Text
