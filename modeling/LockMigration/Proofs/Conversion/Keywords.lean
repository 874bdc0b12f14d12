/-
The keywords on the two sides of an edit. No generated text and no boundary of one can be part of
a keyword, so the atoms of the new text are those of the parts of the old one, without the keyword
that was taken out and among the characters of the generated texts.
-/
import LockMigration.Proofs.Conversion.Frame

namespace LockMigration

open Text Java

attribute [local irreducible] keyword

/-! ## Cuts at blanks and brackets -/

namespace Java

theorem Cut.of_blanks_left {x : List Char} (hne : x ≠ []) (h : ∀ c ∈ x, isBlank c = true)
    (y : List Char) : Cut x y := by
  obtain ⟨w, c, rfl⟩ := (List.eq_nil_or_concat x).resolve_left hne
  rw [List.concat_eq_append] at h ⊢
  exact .of_last (not_mem_keyword_of_isBlank (h c (by simp)))

theorem Cut.of_blanks_right {y : List Char} (hne : y ≠ []) (h : ∀ c ∈ y, isBlank c = true)
    (x z : List Char) : Cut x (y ++ z) := by
  obtain ⟨c, w, rfl⟩ := List.exists_cons_of_ne_nil hne
  exact .of_head (not_mem_keyword_of_isBlank (h c (by simp)))

theorem isBlank_of_isLineBreak {c : Char} (h : isLineBreak c = true) : isBlank c = true := by
  simp only [isLineBreak, Bool.or_eq_true, beq_iff_eq] at h
  rcases h with rfl | rfl <;> decide

theorem atoms_blanks {t : List Char} (h : ∀ c ∈ t, isBlank c = true) : atoms t = t.map some :=
  atoms_quiet fun c hc => isQuiet_of_isBlank (h c hc)

/-- A text begins with the keyword if its first atom is one. -/
theorem head?_atoms {t : List Char} : (atoms t).head? = some none ↔ keyword <+: t := by
  constructor
  · intro h
    cases t with
    | nil => cases h
    | cons c t =>
      by_cases hk : keyword <+: c :: t
      · exact hk
      · rw [atoms_cons hk] at h
        cases h
  · rintro ⟨rest, rfl⟩
    rw [atoms_keyword_append]
    rfl

end Java

/-! ## Cuts at generated texts -/

namespace Locker

variable (l : Locker) (index indent : Nat)

theorem boundary_declarations (x y : List Char) :
    Boundary x (l.declarations index indent ++ y) := by
  obtain ⟨w, hw⟩ := l.declarations_ends index indent
  rw [hw]
  exact .of_head (by decide)

theorem cut_before_declarations (x y : List Char) : Cut x (l.declarations index indent ++ y) :=
  .of_boundary (l.boundary_declarations index indent x y)

theorem cut_declarations (y : List Char) : Cut (l.declarations index indent) y := by
  obtain ⟨w, hw⟩ := l.declarations_ends index indent
  rw [hw, List.append_cons, ← List.cons_append]
  exact .of_last (not_mem_keyword_of_isBlank (by decide))

theorem cut_openTry (y : List Char) : Cut (l.openTry index indent) y := by
  obtain ⟨w, hw⟩ := l.openTry_ends index indent
  rw [hw, ← List.cons_append]
  exact .of_last (not_mem_keyword_of_isDelimiter (by decide))

theorem boundary_closeTry (x y : List Char) : Boundary x (l.closeTry index indent ++ y) := by
  obtain ⟨w, hw, -⟩ := l.closeTry_ends index indent
  rw [hw, pad]
  cases indent with
  | zero => exact .of_head (by decide)
  | succ n => exact .of_head (by decide)

theorem cut_before_closeTry (x y : List Char) : Cut x (l.closeTry index indent ++ y) :=
  .of_boundary (l.boundary_closeTry index indent x y)

end Locker

namespace Conversion.Frame

variable {m : Frame}

theorem boundary_before (hm : m.Sound) (y : List Char) :
    Boundary m.before (m.member ++ (m.lead ++ y)) := by
  rcases hm.edge with h | ⟨w, c, h, hc⟩ | ⟨c, z, h, hc⟩
  · rw [h]
    exact .nil_left _
  · rw [h]
    exact .of_last (isAlphanum_of_isDelimiter hc)
  · rw [← List.append_assoc, h]
    exact .of_head (isAlphanum_of_isBlank (isBlank_of_isLineBreak hc))

theorem cut_before (hm : m.Sound) (y : List Char) : Cut m.before (m.member ++ (m.lead ++ y)) :=
  .of_boundary (boundary_before hm y)

/-- The atoms of the text with the keyword. -/
theorem atoms_text (hm : m.Sound) : atoms m.text =
    atoms m.before ++ (atoms m.member ++ (m.lead.map some ++ (none :: (m.trail.map some ++
      (atoms m.head ++ some '{' :: (atoms m.body ++ some '}' :: atoms m.after)))))) := by
  have hbrace : '{' ∉ keyword ∧ '}' ∉ keyword :=
    ⟨not_mem_keyword_of_isDelimiter (by decide), not_mem_keyword_of_isDelimiter (by decide)⟩
  unfold text
  simp only [List.append_assoc]
  rw [atoms_append (cut_before hm _), atoms_append (.of_blanks_right hm.lead_ne hm.lead_blank _ _),
    atoms_append (.of_blanks_left hm.lead_ne hm.lead_blank _), atoms_blanks hm.lead_blank,
    atoms_keyword_append, atoms_append (.of_blanks_left hm.trail_ne hm.trail_blank _),
    atoms_blanks hm.trail_blank, atoms_append (.of_head hbrace.1),
    atoms_cons (not_keyword_cons hbrace.1 _), atoms_append (.of_head hbrace.2),
    atoms_cons (not_keyword_cons hbrace.2 _)]

/-- The atoms of the text with a lock. -/
theorem atoms_locked (hm : m.Sound) (l : Locker) (index indent : Nat) :
    atoms (m.locked l index indent) =
      atoms m.before ++ ((l.declarations index indent).map some ++ (atoms m.member ++
        ((separator m.lead).map some ++ (atoms m.head ++ some '{' ::
          ((l.openTry index indent).map some ++ (atoms m.body ++
            ((l.closeTry index indent).map some ++ some '}' :: atoms m.after))))))) := by
  have hbrace : '{' ∉ keyword ∧ '}' ∉ keyword :=
    ⟨not_mem_keyword_of_isDelimiter (by decide), not_mem_keyword_of_isDelimiter (by decide)⟩
  have hne := separator_ne_nil hm.lead_ne hm.lead_blank
  have hblank := isBlank_of_mem_separator hm.lead_ne hm.lead_blank
  unfold locked
  simp only [List.append_assoc]
  rw [atoms_append (l.cut_before_declarations index indent _ _),
    atoms_append (l.cut_declarations index indent _),
    atoms_quiet (l.quiet_declarations index indent), atoms_append (.of_blanks_right hne hblank _ _),
    atoms_append (.of_blanks_left hne hblank _), atoms_blanks hblank,
    atoms_append (.of_head hbrace.1), atoms_cons (not_keyword_cons hbrace.1 _),
    atoms_append (l.cut_openTry index indent _), atoms_quiet (l.quiet_openTry index indent),
    atoms_append (l.cut_before_closeTry index indent _ _), atoms_append (.of_head hbrace.2),
    atoms_quiet (l.quiet_closeTry index indent), atoms_cons (not_keyword_cons hbrace.2 _)]

/-- A lock takes one keyword and some blanks out of the text, and nothing else. -/
theorem kept_locked (hm : m.Sound) (l : Locker) (index indent : Nat) :
    Kept 1 (atoms m.text) (atoms (m.locked l index indent)) := by
  rw [atoms_text hm, atoms_locked hm]
  refine .keeps _ (.adds _ (.keeps _ (.blanks hm.lead_blank (.adds _ (.drop ?_)))))
  refine .blanks hm.trail_blank (.keeps _ (.keep _ ?_))
  exact .adds _ (.keeps _ (.adds _ (.keep _ (.refl _))))

/-- A lock puts no keyword at the start of a text. -/
theorem not_keyword_locked (hm : m.Sound) (l : Locker) (index indent : Nat)
    (h : ¬ keyword <+: m.text) : ¬ keyword <+: m.locked l index indent := by
  rw [← head?_atoms, atoms_text hm] at h
  rw [← head?_atoms, atoms_locked hm]
  cases hb : atoms m.before with
  | cons a as => rwa [hb] at h
  | nil =>
    obtain ⟨w, hw⟩ := l.declarations_ends index indent
    rw [hw]
    simp

end Conversion.Frame

end LockMigration
