/-
The braces of a body by what they are, not by how they are searched for. The opening brace is the
first one from the end of the occurrence on. The closing brace is the first one up to which, from the
end of the occurrence on, as many braces close as open; the counter of that search may go below zero
on the way and come back. A search fails exactly if there is no such brace.
-/
import LockMigration.Proofs.Java.Member
import Mathlib.Data.Nat.Find
import Mathlib.Order.Bounds.Defs

namespace LockMigration.Java

open Text

/-! ## Opening braces -/

/-- An opening brace stands at position `i`, and that is not before `n`. -/
def OpensFrom (t : List Char) (n i : Nat) : Prop :=
  n ≤ i ∧ t[i]? = some '{'

theorem openBrace_eq_ok_iff {t : List Char} {o : Occurrence} {i : Nat} :
    openBrace t o = .ok i ↔ IsLeast {i | OpensFrom t o.stop i} i := by
  constructor
  · intro h
    obtain ⟨hle, hbrace, hfirst⟩ := openBrace_spec h
    refine ⟨⟨hle, hbrace⟩, ?_⟩
    rintro j ⟨hj, hchar⟩
    by_contra hlt
    exact hfirst j hj (by omega) hchar
  · rintro ⟨⟨hle, hbrace⟩, hleast⟩
    obtain ⟨k, rfl⟩ := Nat.exists_eq_add_of_le hle
    rw [← List.getElem?_drop] at hbrace
    obtain ⟨hlt, hchar⟩ := List.getElem?_eq_some_iff.1 hbrace
    have hfind : (t.drop o.stop).findIdx? (· == '{') = some k := by
      refine List.findIdx?_eq_some_iff_getElem.2 ⟨hlt, by rw [hchar]; rfl, ?_⟩
      intro j hj hopen
      rw [beq_iff_eq] at hopen
      have hge : o.stop + k ≤ o.stop + j := by
        refine hleast ⟨Nat.le_add_right _ _, ?_⟩
        rw [← List.getElem?_drop, List.getElem?_eq_getElem (by omega), hopen]
      omega
    rw [openBrace, hfind]

theorem openBrace_eq_error_iff {t : List Char} {o : Occurrence} {e : Fault} :
    openBrace t o = .error e ↔
      e = .openBraceNotFound (byteOffset t o.start) ∧ ∀ i, ¬ OpensFrom t o.stop i := by
  unfold openBrace
  constructor
  · intro h
    split at h
    · cases h
    · rename_i hnone
      refine ⟨(Except.error.inj h).symm, ?_⟩
      rintro i ⟨hle, hbrace⟩
      obtain ⟨k, rfl⟩ := Nat.exists_eq_add_of_le hle
      rw [← List.getElem?_drop] at hbrace
      have := List.findIdx?_eq_none_iff.1 hnone _ (List.mem_of_getElem? hbrace)
      cases this
  · rintro ⟨rfl, hno⟩
    split
    · rename_i k hk
      obtain ⟨hlt, hbrace, -⟩ := List.findIdx?_eq_some_iff_getElem.1 hk
      rw [beq_iff_eq] at hbrace
      refine absurd ⟨Nat.le_add_right _ _, ?_⟩ (hno (o.stop + k))
      rw [← List.getElem?_drop, List.getElem?_eq_getElem hlt, hbrace]
    · rfl

/-! ## Closing braces -/

/-- How much a character adds to the depth. -/
def rise (c : Char) : Int :=
  if c = '{' then 1 else if c = '}' then -1 else 0

/-- A brace at position `k` closes as many as were open at the start of the text and opened in
it. -/
def Evens (depth : Int) (t : List Char) (k : Nat) : Prop :=
  t[k]? = some '}' ∧ depth + (t.take (k + 1)).count '{' = (t.take (k + 1)).count '}'

theorem count_cons_rise (c : Char) (t : List Char) :
    ((c :: t).count '{' : Int) - (c :: t).count '}' = rise c + (t.count '{' - t.count '}') := by
  unfold rise
  by_cases hopen : c = '{'
  · subst hopen
    rw [if_pos rfl, List.count_cons_self, List.count_cons_of_ne (by decide)]
    omega
  by_cases hclose : c = '}'
  · subst hclose
    rw [if_neg hopen, if_pos rfl, List.count_cons_self, List.count_cons_of_ne (by decide)]
    omega
  · rw [if_neg hopen, if_neg hclose, List.count_cons_of_ne hclose, List.count_cons_of_ne hopen]
    omega

theorem evens_zero {depth : Int} {c : Char} {t : List Char} :
    Evens depth (c :: t) 0 ↔ c = '}' ∧ depth = 1 := by
  unfold Evens
  rw [List.getElem?_cons_zero, Option.some.injEq]
  refine and_congr_right ?_
  rintro rfl
  have hopen : ((['}'] : List Char).count '{' : Int) = 0 := rfl
  have hclose : ((['}'] : List Char).count '}' : Int) = 1 := rfl
  rw [List.take_succ_cons, List.take_zero, hopen, hclose, Int.add_zero]

theorem evens_succ {depth : Int} {c : Char} {t : List Char} {k : Nat} :
    Evens depth (c :: t) (k + 1) ↔ Evens (depth + rise c) t k := by
  unfold Evens
  rw [List.getElem?_cons_succ, List.take_succ_cons]
  have := count_cons_rise c (t.take (k + 1))
  refine and_congr_right fun _ => ?_
  omega

/-- The search by one character. -/
theorem closingIndex?_cons (depth : Int) (c : Char) (t : List Char) :
    closingIndex? depth (c :: t) =
      if c = '}' ∧ depth = 1 then some 0 else (closingIndex? (depth + rise c) t).map (· + 1) := by
  rw [closingIndex?]
  unfold rise
  by_cases hopen : c = '{'
  · subst hopen
    rw [if_pos rfl, if_pos rfl, if_neg (fun h => absurd h.1 (by decide))]
  rw [if_neg hopen, if_neg hopen]
  by_cases hclose : c = '}'
  · rw [if_pos hclose, if_pos hclose]
    by_cases hd : depth = 1
    · rw [if_pos hd, if_pos ⟨hclose, hd⟩]
    · rw [if_neg hd, if_neg (fun h => hd h.2)]
      rfl
  · rw [if_neg hclose, if_neg hclose, if_neg (fun h => hclose h.1), Int.add_zero]

/-- The search finds the first brace that evens the depth. -/
theorem closingIndex?_eq_some_iff {depth : Int} {t : List Char} {k : Nat} :
    closingIndex? depth t = some k ↔ IsLeast {k | Evens depth t k} k := by
  induction t generalizing depth k with
  | nil =>
    constructor
    · rintro ⟨⟩
    · rintro ⟨⟨hbrace, -⟩, -⟩
      cases hbrace
  | cons c t ih =>
    rw [closingIndex?_cons]
    by_cases hhere : c = '}' ∧ depth = 1
    · -- the first character is the brace, and nothing comes before it
      rw [if_pos hhere, Option.some.injEq]
      have hzero := evens_zero (t := t).2 hhere
      constructor
      · rintro rfl
        exact ⟨hzero, fun j _ => Nat.zero_le j⟩
      · rintro ⟨-, hleast⟩
        exact (Nat.le_zero.1 (hleast hzero)).symm
    · rw [if_neg hhere, Option.map_eq_some_iff]
      constructor
      · rintro ⟨j, hj, rfl⟩
        obtain ⟨hevens, hleast⟩ := ih.1 hj
        refine ⟨evens_succ.2 hevens, ?_⟩
        intro i hi
        cases i with
        | zero => exact absurd (evens_zero.1 hi) hhere
        | succ i => exact Nat.succ_le_succ (hleast (evens_succ.1 hi))
      · rintro ⟨hevens, hleast⟩
        cases k with
        | zero => exact absurd (evens_zero.1 hevens) hhere
        | succ k =>
          refine ⟨k, ih.2 ⟨evens_succ.1 hevens, ?_⟩, rfl⟩
          intro i hi
          exact Nat.le_of_succ_le_succ (hleast (evens_succ.2 hi))

/-- A closing brace stands at position `i`, and from position `n` up to it as many braces close as
open. -/
structure ClosesFrom (t : List Char) (n i : Nat) : Prop where
  le : n ≤ i
  brace : t[i]? = some '}'
  even : (slice t n (i + 1)).count '{' = (slice t n (i + 1)).count '}'

theorem closesFrom_add_iff {t : List Char} {n k : Nat} :
    ClosesFrom t n (n + k) ↔ Evens 0 (t.drop n) k := by
  have hslice : slice t n (n + k + 1) = (t.drop n).take (k + 1) := by
    rw [slice, List.drop_take, show n + k + 1 - n = k + 1 by omega]
  unfold Evens
  rw [List.getElem?_drop, ← hslice]
  constructor
  · rintro ⟨-, hbrace, heven⟩
    exact ⟨hbrace, by omega⟩
  · rintro ⟨hbrace, heven⟩
    exact ⟨Nat.le_add_right n k, hbrace, by omega⟩

theorem closeBrace_eq_ok_iff {t : List Char} {o : Occurrence} {i : Nat} :
    closeBrace t o = .ok i ↔ IsLeast {i | ClosesFrom t o.stop i} i := by
  have hsearch : closeBrace t o = .ok i ↔
      ∃ k, closingIndex? 0 (t.drop o.stop) = some k ∧ o.stop + k = i := by
    unfold closeBrace
    cases closingIndex? 0 (t.drop o.stop) with
    | none => simp
    | some k => simp
  rw [hsearch]
  constructor
  · rintro ⟨k, hk, rfl⟩
    obtain ⟨hevens, hleast⟩ := closingIndex?_eq_some_iff.1 hk
    refine ⟨closesFrom_add_iff.2 hevens, ?_⟩
    intro j hj
    obtain ⟨m, rfl⟩ := Nat.exists_eq_add_of_le hj.le
    exact Nat.add_le_add_left (hleast (closesFrom_add_iff.1 hj)) _
  · rintro ⟨hcloses, hleast⟩
    obtain ⟨k, rfl⟩ := Nat.exists_eq_add_of_le hcloses.le
    refine ⟨k, closingIndex?_eq_some_iff.2 ⟨closesFrom_add_iff.1 hcloses, ?_⟩, rfl⟩
    intro m hm
    exact Nat.le_of_add_le_add_left (hleast (closesFrom_add_iff.2 hm))

theorem closeBrace_eq_error_iff {t : List Char} {o : Occurrence} {e : Fault} :
    closeBrace t o = .error e ↔
      e = .closeBraceNotFound (byteOffset t o.start) ∧ ∀ i, ¬ ClosesFrom t o.stop i := by
  constructor
  · intro h
    constructor
    · unfold closeBrace at h
      split at h
      · cases h
      · exact (Except.error.inj h).symm
    · intro i hi
      classical
      -- where one closes there is a first one, and the search would have found that
      have hleast : IsLeast {i | ClosesFrom t o.stop i} (Nat.find ⟨i, hi⟩) :=
        ⟨Nat.find_spec ⟨i, hi⟩, fun j hj => Nat.find_min' ⟨i, hi⟩ hj⟩
      rw [closeBrace_eq_ok_iff.2 hleast] at h
      cases h
  · rintro ⟨rfl, hno⟩
    cases h : closeBrace t o with
    | ok i => exact absurd (closeBrace_eq_ok_iff.1 h).1 (hno i)
    | error e =>
      unfold closeBrace at h
      split at h
      · cases h
      · exact h.symm

/-- A brace that evens the depth has an opening one before it. -/
theorem exists_openBrace_of_closesFrom {t : List Char} {o : Occurrence} {i : Nat}
    (h : ClosesFrom t o.stop i) : ∃ j, OpensFrom t o.stop j ∧ j < i := by
  have hclose : '}' ∈ slice t o.stop (i + 1) := by
    obtain ⟨k, rfl⟩ := Nat.exists_eq_add_of_le h.le
    refine List.mem_of_getElem? (i := k) ?_
    rw [slice, List.getElem?_drop, List.getElem?_take_of_lt (by omega), h.brace]
  have hopen : '{' ∈ slice t o.stop (i + 1) := by
    rw [← List.count_pos_iff, h.even, List.count_pos_iff]
    exact hclose
  obtain ⟨k, hk⟩ := List.getElem?_of_mem hopen
  rw [slice, List.getElem?_drop] at hk
  have hlt : o.stop + k < i + 1 := by
    by_contra hge
    rw [List.getElem?_take_eq_none (by omega)] at hk
    cases hk
  rw [List.getElem?_take_of_lt hlt] at hk
  refine ⟨o.stop + k, ⟨Nat.le_add_right _ _, hk⟩, ?_⟩
  have hne : o.stop + k ≠ i := by
    rintro rfl
    rw [h.brace] at hk
    cases hk
  omega

end LockMigration.Java
