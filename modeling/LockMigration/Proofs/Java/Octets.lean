/-
Java source by its bytes. Comments, lines, delimiters, annotations and braces are marked by ASCII
characters, so every search of the library gives on the bytes of a text the offsets of the positions
that it gives on the text.
-/
import LockMigration.Proofs.Java.Member
import LockMigration.Proofs.Text.Octets

namespace LockMigration.Java

open Text

/-! ## Characters -/

section Context

variable (t : List Char)

/-- The position is the start of the text or that of an ASCII character. -/
def AtAscii (i : Nat) : Prop :=
  i = 0 ∨ ∃ c, t[i]? = some c ∧ c.toNat < 128

variable {t} in
theorem AtAscii.le {i : Nat} (h : AtAscii t i) : i ≤ t.length := by
  rcases h with rfl | ⟨c, hc, -⟩
  · exact Nat.zero_le _
  · exact Nat.le_of_lt (List.getElem?_eq_some_iff.1 hc).1

end Context

/-! ## Bodies -/

/-- A byte cursor has passed the positions that the character under it has. -/
theorem isPast_position {t : List Char} {n : Nat} (hn : n ≤ t.length) (cursor : Option Nat) :
    isPast cursor (byteOffset t n) = isPast (cursor.map (position t)) n := by
  cases cursor with
  | none => rfl
  | some b => exact decide_eq_decide.2 (lt_byteOffset_iff hn)

end LockMigration.Java
