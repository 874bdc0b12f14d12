/-
Texts in parts. A word that begins in one part of a text ends in it, or stands across the boundary
to the next part; it cannot do so where one of the two characters at the boundary is no letter of
the word, and so no word of letters and digits does where one of them is neither. A test that is
made at every position of a text is made along its parts, one after the other, each with what comes
before it and what follows it.
-/
import LockMigration.Text.Blank
import Mathlib.Data.List.Basic
import Mathlib.Tactic.Common

namespace LockMigration.Text

/-! ## Words across parts -/

theorem prefix_or_across {word x y : List Char} (h : word <+: x ++ y) :
    word <+: x ∨ ∃ z, z ≠ [] ∧ word = x ++ z ∧ z <+: y := by
  by_cases hlen : word.length ≤ x.length
  · exact .inl (List.prefix_of_prefix_length_le h (List.prefix_append x y) hlen)
  · obtain ⟨z, hz⟩ := List.prefix_of_prefix_length_le (List.prefix_append x y) h (by omega)
    refine .inr ⟨z, ?_, hz.symm, ?_⟩
    · rintro rfl
      rw [List.append_nil] at hz
      exact hlen (Nat.le_of_eq (by rw [hz]))
    · rw [← hz] at h
      exact (List.prefix_append_right_inj x).1 h

theorem prefix_append_iff {word x y : List Char}
    (h : (∀ c ∈ x.getLast?, c ∉ word) ∨ ∀ c ∈ y.head?, c ∉ word) (hx : x ≠ []) :
    word <+: x ++ y ↔ word <+: x := by
  refine ⟨fun hw => ?_, fun hw => hw.trans (List.prefix_append x y)⟩
  rcases prefix_or_across hw with hw | ⟨z, hzne, hz, hzy⟩
  · exact hw
  · -- the characters on both sides of the boundary would be letters of the word
    exfalso
    rcases h with h | h
    · refine h _ (List.getLast?_eq_some_getLast hx) ?_
      rw [hz]
      exact List.mem_append_left z (List.getLast_mem hx)
    · refine h (z.head hzne) ?_ ?_
      · obtain ⟨w, rfl⟩ := hzy
        rw [Option.mem_def, List.head?_append, List.head?_eq_some_head hzne]
        rfl
      · rw [hz]
        exact List.mem_append_right x (List.head_mem hzne)

theorem not_mem_of_all {word : List Char} {p : Char → Bool}
    (hp : word.all (fun d => !p d) = true) {c : Char} (h : p c = true) : c ∉ word := by
  intro hc
  have := List.all_eq_true.1 hp c hc
  rw [h] at this
  cases this

/-! ## Boundaries of words -/

/-- One of the two characters at the boundary of `x` and `y` is neither a letter nor a digit. -/
def Boundary (x y : List Char) : Prop :=
  (∀ c ∈ x.getLast?, c.isAlphanum = false) ∨ ∀ c ∈ y.head?, c.isAlphanum = false

theorem isAlphanum_of_isBlank {c : Char} (h : isBlank c = true) : c.isAlphanum = false := by
  rw [Bool.eq_false_iff]
  intro ha
  delta Char.isAlphanum Char.isAlpha Char.isUpper Char.isLower Char.isDigit at ha
  simp only [Bool.or_eq_true, Bool.and_eq_true, decide_eq_true_eq, UInt32.le_iff_toNat_le,
    ge_iff_le] at ha
  change (65 ≤ c.toNat ∧ c.toNat ≤ 90 ∨ 97 ≤ c.toNat ∧ c.toNat ≤ 122) ∨
    48 ≤ c.toNat ∧ c.toNat ≤ 57 at ha
  simp only [isBlank, Bool.or_eq_true, Bool.and_eq_true, decide_eq_true_eq, beq_iff_eq] at h
  omega

namespace Boundary

variable {x y : List Char} {c : Char}

theorem of_last (h : c.isAlphanum = false) : Boundary (x ++ [c]) y := by
  refine .inl ?_
  intro d hd
  rw [List.getLast?_concat, Option.mem_some_iff] at hd
  rwa [← hd]

theorem of_head (h : c.isAlphanum = false) : Boundary x (c :: y) := by
  refine .inr ?_
  intro d hd
  rw [List.head?_cons, Option.mem_some_iff] at hd
  rwa [← hd]

theorem of_blanks (hne : y ≠ []) (h : ∀ c ∈ y, isBlank c = true) (z : List Char) :
    Boundary x (y ++ z) := by
  obtain ⟨c, w, rfl⟩ := List.exists_cons_of_ne_nil hne
  exact of_head (isAlphanum_of_isBlank (h c List.mem_cons_self))

theorem nil_left (y : List Char) : Boundary [] y :=
  .inl nofun

theorem nil_right (x : List Char) : Boundary x [] :=
  .inr nofun

theorem suffix {w : List Char} (h : Boundary x y) (hw : w <:+ x) : Boundary w y := by
  obtain ⟨v, rfl⟩ := hw
  by_cases hne : w = []
  · rw [hne]
    exact nil_left y
  · unfold Boundary at h
    rwa [List.getLast?_append_of_ne_nil v hne] at h

/-- A word that begins before a boundary ends before it. -/
theorem prefix_iff {word : List Char} (hword : ∀ c ∈ word, c.isAlphanum = true)
    (h : Boundary x y) (hx : x ≠ []) : word <+: x ++ y ↔ word <+: x := by
  have hne {d : Char} (hd : d.isAlphanum = false) : d ∉ word := by
    intro hmem
    rw [hword d hmem] at hd
    cases hd
  exact prefix_append_iff (h.imp (fun h d hd => hne (h d hd)) fun h d hd => hne (h d hd)) hx

end Boundary

/-! ## Tests along a part -/

/-- The test `P` holds at every position of the part `t`, of what comes before the position and
what is left of the text from there on. The part stands between `w` and `y`. -/
def Along (P : List Char → List Char → Prop) (w t y : List Char) : Prop :=
  ∀ x z, t = x ++ z → z ≠ [] → P (w ++ x) (z ++ y)

variable {P : List Char → List Char → Prop} {w t y : List Char}

theorem along_nil : Along P w [] y := by
  intro x z h hz
  exact absurd (List.append_eq_nil_iff.1 h.symm).2 hz

theorem along_append {u : List Char} :
    Along P w (t ++ u) y ↔ Along P w t (u ++ y) ∧ Along P (w ++ t) u y := by
  constructor
  · intro h
    refine ⟨?_, ?_⟩
    · rintro x z rfl hz
      have := h x (z ++ u) (List.append_assoc x z u) (by simp [hz])
      rwa [List.append_assoc] at this
    · rintro x z rfl hz
      have := h (t ++ x) z (List.append_assoc t x z).symm hz
      rwa [← List.append_assoc] at this
  · rintro ⟨ht, hu⟩ x z h hz
    rcases List.append_eq_append_iff.1 h with ⟨v, rfl, rfl⟩ | ⟨v, rfl, rfl⟩
    · rw [← List.append_assoc]
      exact hu v z rfl hz
    · by_cases hv : v = []
      · subst hv
        have := hu [] u rfl hz
        simpa only [List.append_nil, List.nil_append] using this
      · have := ht x v rfl hv
        rwa [List.append_assoc]

theorem along_singleton {c : Char} : Along P w [c] y ↔ P w (c :: y) := by
  constructor
  · intro h
    have := h [] [c] rfl (by simp)
    rwa [List.append_nil] at this
  · intro h x z hxz hz
    rcases List.append_eq_singleton_iff.1 hxz.symm with ⟨rfl, rfl⟩ | ⟨rfl, rfl⟩
    · rwa [List.append_nil]
    · exact absurd rfl hz

theorem along_cons {c : Char} :
    Along P w (c :: t) y ↔ P w (c :: (t ++ y)) ∧ Along P (w ++ [c]) t y := by
  have h : Along P w ([c] ++ t) y ↔ _ := along_append
  rw [along_singleton] at h
  exact h

instance Along.decidable [∀ x z, Decidable (P x z)] (w y : List Char) :
    (t : List Char) → Decidable (Along P w t y)
  | [] => isTrue along_nil
  | c :: t =>
    have := Along.decidable (w ++ [c]) y t
    decidable_of_iff _ along_cons.symm

end LockMigration.Text
