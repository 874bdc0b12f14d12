/-
A computation that can fail, done for every member of a list: it succeeds with one result for each
member, in their order, or it fails with the first of them that does.
-/
import Mathlib.Data.List.Forall2

namespace LockMigration

theorem mapM_eq_ok_iff {α β ε : Type} {f : α → Except ε β} {xs : List α} {ys : List β} :
    xs.mapM f = .ok ys ↔ List.Forall₂ (fun x y => f x = .ok y) xs ys := by
  induction xs generalizing ys with
  | nil =>
    rw [List.mapM_nil]
    constructor
    · intro h; cases h; exact .nil
    · intro h; cases h; rfl
  | cons x xs ih =>
    rw [List.mapM_cons]
    cases hx : f x with
    | error e =>
      constructor
      · intro h; cases h
      · intro h; cases h with | cons h _ => rw [hx] at h; cases h
    | ok y =>
      cases hxs : xs.mapM f with
      | error e =>
        constructor
        · intro h; cases h
        · intro h; cases h with | cons _ h => rw [← ih, hxs] at h; cases h
      | ok zs =>
        constructor
        · intro h; cases h; exact .cons hx (ih.1 hxs)
        · intro h
          cases h with
          | cons h1 h2 =>
            rw [hx] at h1; cases h1
            rw [← ih, hxs] at h2; cases h2
            rfl

theorem exists_of_mem_mapM {α β ε : Type} {f : α → Except ε β} {xs : List α} {ys : List β}
    (h : xs.mapM f = .ok ys) {y : β} (hy : y ∈ ys) : ∃ x ∈ xs, f x = .ok y := by
  rw [mapM_eq_ok_iff] at h
  induction h with
  | nil => cases hy
  | @cons x z xs zs hx _ ih =>
    rcases List.mem_cons.1 hy with rfl | hy
    · exact ⟨x, by simp, hx⟩
    · obtain ⟨a, ha, hfa⟩ := ih hy
      exact ⟨a, List.mem_cons_of_mem x ha, hfa⟩

theorem ok_of_mem_mapM {α β ε : Type} {f : α → Except ε β} {xs : List α} {ys : List β}
    (h : xs.mapM f = .ok ys) {x : α} (hx : x ∈ xs) : ∃ y ∈ ys, f x = .ok y := by
  rw [mapM_eq_ok_iff] at h
  induction h with
  | nil => cases hx
  | @cons x z xs zs hz _ ih =>
    rcases List.mem_cons.1 hx with rfl | hx
    · exact ⟨z, List.mem_cons_self, hz⟩
    · obtain ⟨y, hy, hfx⟩ := ih hx
      exact ⟨y, List.mem_cons_of_mem z hy, hfx⟩

theorem exists_mapM_eq_ok {α β ε : Type} {f : α → Except ε β} {xs : List α}
    (h : ∀ x ∈ xs, ∃ y, f x = .ok y) : ∃ ys, xs.mapM f = .ok ys := by
  induction xs with
  | nil => exact ⟨[], rfl⟩
  | cons x xs ih =>
    obtain ⟨y, hy⟩ := h x List.mem_cons_self
    obtain ⟨ys, hys⟩ := ih fun z hz => h z (List.mem_cons_of_mem x hz)
    exact ⟨y :: ys, mapM_eq_ok_iff.2 (.cons hy (mapM_eq_ok_iff.1 hys))⟩

theorem mapM_eq_error {α β ε : Type} {f : α → Except ε β} {xs : List α} {e : ε}
    (h : xs.mapM f = .error e) :
    ∃ ys x zs os, xs = ys ++ x :: zs ∧ ys.mapM f = .ok os ∧ f x = .error e := by
  induction xs with
  | nil => cases h
  | cons x xs ih =>
    rw [List.mapM_cons] at h
    cases hx : f x with
    | error d =>
      rw [hx] at h
      cases h
      exact ⟨[], x, xs, [], rfl, rfl, hx⟩
    | ok y =>
      rw [hx] at h
      cases hxs : xs.mapM f with
      | ok os => rw [hxs] at h; cases h
      | error d =>
        rw [hxs] at h
        cases h
        obtain ⟨ys, z, zs, os, rfl, hys, hz⟩ := ih hxs
        refine ⟨x :: ys, z, zs, y :: os, rfl, ?_, hz⟩
        rw [List.mapM_cons, hx, hys]
        rfl

end LockMigration
