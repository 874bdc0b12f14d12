/-
The bytes of a text. `octets t` is the UTF-8 encoding of `t`, one character per byte, so that a
position in it is a byte offset of `t` and the searches of the library search bytes when they are
given it. Bytes of ASCII characters stand for themselves and all others are beyond ASCII, so a
search for ASCII text finds the same places in the bytes as in the text (`marks_octets`).

`OnEdge` says that a byte offset lies between two characters, and `cut?` is the piece of a text
between two byte offsets, which exists only if the offsets are in order and on edges.
-/
import LockMigration.Proofs.Text.Marks
import LockMigration.Text.Offset

namespace LockMigration.Text

/-! ## Bytes -/

/-- The bytes of a character in UTF-8, each written as the character with its number. -/
def octetsOf (c : Char) : List Char :=
  (String.utf8EncodeChar c).map fun b => Char.ofNat b.toNat

/-- The bytes of a text. -/
def octets (t : List Char) : List Char :=
  t.flatMap octetsOf

theorem length_octetsOf (c : Char) : (octetsOf c).length = c.utf8Size := by
  rw [octetsOf, List.length_map, String.length_utf8EncodeChar]

theorem octetsOf_ascii {c : Char} (h : c.toNat < 128) : octetsOf c = [c] := by
  have hsize : c.utf8Size = 1 := by
    rw [Char.utf8Size_eq_one_iff, UInt32.le_iff_toNat_le]
    exact Nat.le_of_lt_succ h
  have hbyte : c.val.toUInt8.toNat = c.toNat := by
    rw [UInt32.toNat_toUInt8]
    exact Nat.mod_eq_of_lt (Nat.lt_trans h (by decide))
  rw [octetsOf, String.utf8EncodeChar_eq_singleton hsize, List.map_singleton, hbyte,
    Char.ofNat_toNat]

theorem byteOffset_succ (c : Char) (t : List Char) (i : Nat) :
    byteOffset (c :: t) (i + 1) = c.utf8Size + byteOffset t i :=
  rfl

theorem byteOffset_add (t : List Char) (i k : Nat) :
    byteOffset t (i + k) = byteOffset t i + byteOffset (t.drop i) k := by
  unfold byteOffset
  rw [List.take_add, byteLength_append]

/-- A byte offset lies before a position exactly if the character that covers it does. -/
theorem lt_byteOffset_iff {t : List Char} {n b : Nat} (hn : n ≤ t.length) :
    b < byteOffset t n ↔ position t b < n := by
  induction t generalizing n b with
  | nil =>
    obtain rfl : n = 0 := Nat.le_zero.1 hn
    exact iff_of_false (Nat.not_lt_zero b) (Nat.not_lt_zero _)
  | cons c t ih =>
    cases n with
    | zero => exact iff_of_false (Nat.not_lt_zero b) (Nat.not_lt_zero _)
    | succ n =>
      have := @ih n (b - c.utf8Size) (Nat.le_of_succ_le_succ hn)
      rw [byteOffset_succ, position]
      split <;> omega

/-- The offset after an ASCII character is one more. -/
theorem byteOffset_add_one {t : List Char} {i : Nat} {c : Char} (hi : t[i]? = some c)
    (hc : c.toNat < 128) : byteOffset t (i + 1) = byteOffset t i + 1 := by
  obtain ⟨hlt, rfl⟩ := List.getElem?_eq_some_iff.1 hi
  have hsize : t[i].utf8Size = 1 := by
    rw [← length_octetsOf, octetsOf_ascii hc]
    rfl
  rw [byteOffset_add, List.drop_eq_getElem_cons hlt, byteOffset_succ, hsize]
  rfl

/-- The byte offset lies between two characters, or at an end of the text. -/
def OnEdge (t : List Char) (b : Nat) : Prop :=
  (String.Pos.Raw.mk b).IsValid (String.ofList t)

instance (t : List Char) (b : Nat) : Decidable (OnEdge t b) :=
  inferInstanceAs (Decidable (String.Pos.Raw.IsValid _ _))

/-- The piece of the text between two byte offsets. There is none if the offsets are out of order
or beyond the text, or if one of them lies inside a character. -/
def cut? (t : List Char) (a b : Nat) : Option (List Char) :=
  if a ≤ b ∧ OnEdge t a ∧ OnEdge t b then some (slice t (position t a) (position t b)) else none

end LockMigration.Text
