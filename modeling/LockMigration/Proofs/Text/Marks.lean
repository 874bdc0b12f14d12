/-
Searching before a position. The marks of a text are the positions of a range that pass a test, so
the last mark before a bound obeys a recurrence on the bound, and two texts that agree up to a
position have the same marks there. The marks of two texts put together are those of the first,
read on into the second, followed by those of the second.
-/
import LockMigration.Text.Marks
import Mathlib.Data.List.Basic
import Mathlib.Tactic.Common

namespace LockMigration.Text

/-! ## Marks as filtered ranges -/

theorem marks_append (p : List Char → Bool) (s t : List Char) :
    marks p (s ++ t) = marks (fun z => p (z ++ t)) s ++ (marks p t).map (· + s.length) := by
  unfold marks
  induction s with
  | nil => simp [marksFrom]
  | cons c s ih =>
    have shift : marksFrom p 1 (s ++ t) = marksFrom (fun z => p (z ++ t)) 1 s ++
        (marksFrom p 0 t).map (· + (s.length + 1)) := by
      rw [marksFrom_eq_map p (s ++ t) 1, marksFrom_eq_map _ s 1, ih, List.map_append, List.map_map]
      rfl
    by_cases h : p (c :: (s ++ t)) = true <;> simp [marksFrom, h, shift]

theorem marks_eq_filter_range (p : List Char → Bool) (t : List Char) :
    marks p t = (List.range t.length).filter (fun i => p (t.drop i)) := by
  induction t with
  | nil => rfl
  | cons c t ih =>
    have shift : marksFrom p 1 t = ((List.range t.length).map Nat.succ).filter
        (fun i => p ((c :: t).drop i)) := by
      rw [marksFrom_eq_map, List.filter_map]
      exact congrArg (List.map Nat.succ) ih
    rw [List.length_cons, List.range_succ_eq_map]
    by_cases h : p (c :: t) = true <;> simp [marks, marksFrom, h, shift]

/-- The marks before `n`, whatever lies behind it. -/
theorem filter_lt_marks (p : List Char → Bool) (t : List Char) (n : Nat) :
    (marks p t).filter (· < n) =
      (List.range n).filter (fun i => decide (i < t.length) && p (t.drop i)) := by
  rw [marks_eq_filter_range, List.filter_filter]
  have key : ∀ m k : Nat, (List.range m).filter (fun i => decide (i < k) && p (t.drop i)) =
      (List.range (min m k)).filter (fun i => p (t.drop i)) := by
    intro m k
    induction m with
    | zero => simp
    | succ m ih =>
      rw [List.range_succ, List.filter_append, ih]
      by_cases h : m < k
      · rw [Nat.min_eq_left (by omega), Nat.min_eq_left (by omega), List.range_succ,
          List.filter_append]
        simp [List.filter_cons, h]
      · rw [Nat.min_eq_right (by omega), Nat.min_eq_right (by omega)]
        simp [h]
  rw [key, key, Nat.min_comm]

/-- Two texts that agree as far as the test reads from before `n` have the same marks there. -/
theorem filter_lt_marks_congr {p : List Char → Bool} {s t : List Char} {n : Nat}
    (h : ∀ i < n, (decide (i < s.length) && p (s.drop i)) = (decide (i < t.length) && p (t.drop i))) :
    (marks p s).filter (· < n) = (marks p t).filter (· < n) := by
  rw [filter_lt_marks, filter_lt_marks]
  exact List.filter_congr fun i hi => h i (List.mem_range.1 hi)

/-! ## The last mark before a bound -/

theorem lastBefore?_zero (ps : List Nat) : lastBefore? 0 ps = none := by
  simp [lastBefore?]

/-- Moving the bound by one can only add the mark at the old bound. -/
theorem lastBefore?_succ (p : List Char → Bool) (t : List Char) (n : Nat) :
    lastBefore? (n + 1) (marks p t) =
      if n < t.length ∧ p (t.drop n) = true then some n else lastBefore? n (marks p t) := by
  unfold lastBefore?
  rw [filter_lt_marks, filter_lt_marks, List.range_succ, List.filter_append]
  by_cases h : n < t.length ∧ p (t.drop n) = true
  · simp [h]
  · rw [if_neg h]
    have : (decide (n < t.length) && p (t.drop n)) = false := by
      rw [Bool.eq_false_iff]
      simpa [Bool.and_eq_true] using h
    simp [this]

theorem lt_of_lastBefore? {n i : Nat} {ps : List Nat} (h : lastBefore? n ps = some i) : i < n := by
  have := List.mem_of_getLast? h
  simpa using (List.mem_filter.1 this).2

theorem mem_of_lastBefore? {n i : Nat} {ps : List Nat} (h : lastBefore? n ps = some i) : i ∈ ps :=
  (List.mem_filter.1 (List.mem_of_getLast? h)).1

theorem mem_positionsOf {p : Char → Bool} {t : List Char} {i : Nat} :
    i ∈ positionsOf p t ↔ ∃ c, t[i]? = some c ∧ p c = true := by
  unfold positionsOf
  rw [mem_marks, List.head?_drop]
  constructor
  · rintro ⟨-, h⟩
    exact (Option.any_eq_true _ _).1 h
  · rintro ⟨c, hc, hp⟩
    exact ⟨(List.getElem?_eq_some_iff.1 hc).1, by simp [hc, hp]⟩

theorem mem_startsOf {word t : List Char} {i : Nat} :
    i ∈ startsOf word t ↔ i < t.length ∧ word <+: t.drop i := by
  unfold startsOf
  rw [mem_marks, List.isPrefixOf_iff_prefix]

theorem getElem?_of_mem_startsOf {word t : List Char} {i j : Nat} (h : i ∈ startsOf word t)
    (hj : j < word.length) : t[i + j]? = word[j]? := by
  obtain ⟨rest, hrest⟩ := (mem_startsOf.1 h).2
  rw [← List.getElem?_drop, ← hrest, List.getElem?_append_left hj]

/-- The last mark before a bound is not before any other. -/
theorem le_lastBefore? {p : List Char → Bool} {t : List Char} {n i : Nat} (h : i ∈ marks p t)
    (hi : i < n) : ∃ j, lastBefore? n (marks p t) = some j ∧ i ≤ j := by
  induction n with
  | zero => omega
  | succ n ih =>
    rw [lastBefore?_succ]
    split
    · exact ⟨n, rfl, by omega⟩
    · rename_i hn
      refine ih (Nat.lt_of_le_of_ne (by omega) ?_)
      rintro rfl
      exact hn (mem_marks.1 h)

end LockMigration.Text
