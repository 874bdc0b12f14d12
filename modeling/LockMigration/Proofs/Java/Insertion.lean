/-
The place of a member's fields in closed form. Three searches take part in it: the previous
delimiter, the first annotation sign behind that, and the starts of two lines. A delimiter or a sign
that is not found counts as the start of the text, which is also a place where one can stand.

`memberStart_closed_form` says what is left of the rule: the line of the occurrence never matters, as
the sign stands before the occurrence and its line begins no later. So the fields go to the line of
the sign unless the delimiter stands behind the start of that line. They come after every delimiter
before the occurrence, but for one at the very start of the text, and before every annotation.
-/
import LockMigration.Proofs.Java.Member

namespace LockMigration.Java

open Text

/-- The sign that is found is the first one of its range. -/
theorem annotationSign_le {t : List Char} {low high i : Nat} (h : SignAt t i) (hlow : low < i)
    (hhigh : i ≤ high) : ∃ a, annotationSign t low high = some a ∧ a ≤ i := by
  have hmem : i ∈ (positionsOf (· == '@') t).filter fun i => low < i && i ≤ high := by
    refine List.mem_filter.2 ⟨mem_positionsOf.2 ⟨'@', h.1, rfl⟩, ?_⟩
    rw [Bool.and_eq_true, decide_eq_true_eq, decide_eq_true_eq]
    exact ⟨hlow, hhigh⟩
  have hsorted : ((positionsOf (· == '@') t).filter fun i => low < i && i ≤ high).Pairwise (· < ·) :=
    (pairwise_marks _ t).sublist List.filter_sublist
  obtain ⟨a, ha, hle⟩ :=
    exists_find?_of_pairwise (p := fun i => !inComment t i) hsorted hmem (by rw [h.2]; rfl)
  exact ⟨a, ha, by omega⟩

/-- Every sign between the previous delimiter and the occurrence comes after the fields. -/
theorem memberStart_le_sign {t : List Char} {o : Occurrence} {i : Nat} (h : SignAt t i)
    (hlow : (previousDelimiter t o.start).getD 0 < i) (hhigh : i ≤ o.start) :
    memberStart t o ≤ i := by
  rw [memberStart_eq_ite]
  split
  · obtain ⟨a, ha, hai⟩ := annotationSign_le h hlow hhigh
    rw [annotationLine, ha]
    exact Nat.le_trans (lineStart_le t a) hai
  · exact hlow

/-- The place of the fields of an occurrence. The line of the first annotation begins no later than
the line of the occurrence; the fields go to the start of that line unless the previous delimiter
stands behind it, and then just behind the delimiter. So between the fields and the occurrence there
is no delimiter that is not in a comment, unless it is the first character of the text, and no
annotation behind the delimiter comes before the fields. -/
theorem memberStart_closed_form (t : List Char) (o : Occurrence) :
    let delimiter := (previousDelimiter t o.start).getD 0
    let annotation := (annotationLine t delimiter o.start).getD 0
    annotation ≤ lineStart t o.start ∧
    (memberStart t o = if delimiter ≤ annotation then annotation else delimiter + 1) ∧
    memberStart t o ≤ o.start ∧
    (∀ i, memberStart t o ≤ i → i < o.start → DelimiterAt t i → i = 0) ∧
    ∀ i, delimiter < i → i ≤ o.start → SignAt t i → memberStart t o ≤ i := by
  refine ⟨annotationLine_le t _ o.start, memberStart_eq_ite t o, (memberStart_spec t o).1, ?_, ?_⟩
  · intro i hle hlt hdelimiter
    by_contra hne
    have := lt_memberStart hdelimiter (Nat.pos_of_ne_zero hne) hlt
    omega
  · intro i hlow hhigh hsign
    exact memberStart_le_sign hsign hlow hhigh

/-- An annotation on the line of the delimiter before it, and one at the start of the text behind a
delimiter that stays before the occurrence. -/
example : memberStart "a; @B synchronized c()".toList ⟨5, 19, .method⟩ = 2 ∧
    memberStart ";@B synchronized c()".toList ⟨3, 17, .method⟩ = 0 := by
  decide

end LockMigration.Java
