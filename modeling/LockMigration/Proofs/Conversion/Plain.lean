/-
Plain sources: no quotes, no line comments, no annotations, and no keyword that touches a place at
which generated text is put. In terms of atoms this is a condition on neighbours, so an edit
keeps it, and reading a plain text never leaves slashes or a quote on the line.
-/
import LockMigration.Proofs.Conversion.Keywords
import LockMigration.Proofs.Conversion.Readings
import Mathlib.Data.List.Chain

namespace LockMigration.Conversion

open Text Java

attribute [local irreducible] keyword

/-- A source without quotes, line comments and annotations, in which no keyword stands at the
start, right after a delimiter or right before a closing brace. -/
structure Plain (t : List Char) : Prop where
  quote : '"' ∉ t
  slashes : ¬ ['/', '/'] <:+: t
  sign : '@' ∉ t
  word : ∀ i ∈ startsOf keyword t, 0 < i ∧ t[i - 1]?.any isDelimiter = false ∧
    t[i + keyword.length]? ≠ some '}'

/-! ## Neighbours -/

/-- The atom `b` may follow the atom `a`. -/
structure Fits (a b : Option Char) : Prop where
  quote : b ≠ some '"'
  sign : b ≠ some '@'
  slashes : ¬ (a = some '/' ∧ b = some '/')
  word : b = none → ∀ c, a = some c → isDelimiter c = false
  brace : a = none → b ≠ some '}'

/-- The atoms of the text fit, and the first one may follow a delimiter. -/
def Smooth (t : List Char) : Prop :=
  List.IsChain Fits (some ';' :: atoms t)

/-- What stands before a text: nothing, a character, or a keyword. -/
inductive Follows : List Char → Option Char → Prop
  | start : Follows [] (some ';')
  | char (x : List Char) (c : Char) : Follows (x ++ [c]) (some c)
  | word (x : List Char) : Follows (x ++ keyword) none

theorem mem_startsOf_keyword (x rest : List Char) :
    x.length ∈ startsOf keyword (x ++ (keyword ++ rest)) := by
  rw [mem_startsOf, List.drop_left]
  refine ⟨?_, List.prefix_append _ _⟩
  simp only [List.length_append, length_keyword]
  omega

theorem isChain_of_plain {t x y : List Char} {a : Option Char} (h : Plain t) (ht : t = x ++ y)
    (hx : Follows x a) : List.IsChain Fits (a :: atoms y) := by
  induction y using atom_induction generalizing x a with
  | nil => exact .singleton a
  | word rest ih =>
    rw [atoms_keyword_append, List.isChain_cons_cons]
    refine ⟨⟨by simp, by simp, by simp, fun _ c hc => ?_, by simp⟩, ih (by rw [ht]; simp) (.word x)⟩
    -- at the start of the text there would be no room before the keyword
    obtain ⟨hpos, hdelim, -⟩ := h.word _ (ht ▸ mem_startsOf_keyword x rest)
    cases hx with
    | start => exact absurd hpos (Nat.lt_irrefl 0)
    | char x d =>
      cases hc
      rw [ht] at hdelim
      simpa using hdelim
    | word x => cases hc
  | other c rest hk ih =>
    have hmem : c ∈ t := by rw [ht]; simp
    rw [atoms_cons hk, List.isChain_cons_cons]
    refine ⟨⟨?_, ?_, ?_, by simp, ?_⟩, ih (by rw [ht]; simp) (.char x c)⟩
    · rintro ⟨⟩
      exact h.quote hmem
    · rintro ⟨⟩
      exact h.sign hmem
    · rintro ⟨rfl, ⟨⟩⟩
      cases hx with
      | char x => exact h.slashes ⟨x, rest, by rw [ht]; simp⟩
    · rintro rfl ⟨⟩
      cases hx with
      | word x =>
        rw [List.append_assoc] at ht
        refine (h.word _ (ht ▸ mem_startsOf_keyword x _)).2.2 ?_
        rw [ht, ← List.append_assoc, ← List.length_append]
        simp

/-- The atoms of a plain text fit. -/
theorem Plain.smooth {t : List Char} (h : Plain t) : Smooth t :=
  isChain_of_plain h rfl .start

/-! ## Generated text among the atoms -/

theorem isChain_quiet {q : List Char} (hq : ∀ c ∈ q, isQuiet c = true) :
    List.IsChain Fits (q.map some) := by
  induction q with
  | nil => exact .nil
  | cons c q ih =>
    refine (ih fun d hd => hq d (List.mem_cons_of_mem _ hd)).cons fun b hb => ?_
    cases q with
    | nil => cases hb
    | cons d q =>
      cases hb
      have hd := hq d (by simp)
      simp only [isQuiet, Bool.and_eq_true, bne_iff_ne, ne_eq] at hd
      exact ⟨by simpa using hd.1.1.2, by simpa using hd.1.2, by simp [hd.1.1.1.1], by simp, by simp⟩

/-- Quiet text in place of `z` keeps the atoms fitting, unless a delimiter of it comes to stand
right before a keyword or a closing brace of it right after one. -/
theorem isChain_splice {x y z : List (Option Char)} {q : List Char}
    (h : List.IsChain Fits (x ++ (z ++ y))) (hne : x ++ z ≠ []) (hq : ∀ c ∈ q, isQuiet c = true)
    (hqne : q ≠ []) (hfirst : q.head? ≠ some '}' ∨ x.getLast? ≠ some none)
    (hlast : (∀ c ∈ q.getLast?, isDelimiter c = false) ∨ y.head? ≠ some none) :
    List.IsChain Fits (x ++ (q.map some ++ y)) := by
  have hxz := h
  rw [← List.append_assoc] at hxz
  refine h.left_of_append.append ((isChain_quiet hq).append hxz.right_of_append ?_) ?_
  · intro a ha b hb
    rw [List.getLast?_map] at ha
    obtain ⟨c, hc, rfl⟩ := Option.map_eq_some_iff.1 ha
    have hquiet := hq c (List.mem_of_getLast? hc)
    simp only [isQuiet, Bool.and_eq_true, bne_iff_ne, ne_eq] at hquiet
    have hb' := (List.isChain_append.1 hxz).2.2 _ (List.getLast?_eq_some_getLast hne) b hb
    refine ⟨hb'.quote, hb'.sign, by simp [hquiet.1.1.1.1], ?_, by simp⟩
    rintro rfl d ⟨⟩
    exact (hlast.resolve_right fun h => h hb) c hc
  · intro a ha b hb
    obtain ⟨c, w, rfl⟩ := List.exists_cons_of_ne_nil hqne
    cases hb
    have hquiet := hq c (by simp)
    simp only [isQuiet, Bool.and_eq_true, bne_iff_ne, ne_eq] at hquiet
    refine ⟨by simpa using hquiet.1.1.2, by simpa using hquiet.1.2, by simp [hquiet.1.1.1.1],
      by simp, ?_⟩
    rintro rfl ⟨⟩
    exact hfirst.elim (fun h => h rfl) fun h => h ha

theorem isDelimiter_ne {c d : Char} (hc : isDelimiter c = true) (hd : isDelimiter d = false) :
    c ≠ d := by
  rintro rfl
  rw [hc] at hd
  cases hd

/-- An edit keeps a text smooth. -/
theorem Frame.smooth_locked {m : Frame} (hm : m.Sound) (l : Locker) (index indent : Nat)
    (h : Smooth m.text) : Smooth (m.locked l index indent) := by
  have hblank := isBlank_of_mem_separator hm.lead_ne hm.lead_blank
  have hne := separator_ne_nil hm.lead_ne hm.lead_blank
  unfold Smooth at h ⊢
  rw [Frame.atoms_text hm] at h
  rw [Frame.atoms_locked hm]
  generalize atoms m.before = before, atoms m.member = member, atoms m.head = head,
    atoms m.body = body, atoms m.after = after at h ⊢
  -- one generated text after the other, from left to right
  have hfields : List.IsChain Fits ((some ';' :: before) ++ ((l.declarations index indent).map some ++
      (member ++ (m.lead.map some ++ none :: (m.trail.map some ++ (head ++ some '{' ::
        (body ++ some '}' :: after))))))) := by
    obtain ⟨w, hw⟩ := l.declarations_ends index indent
    refine isChain_splice (z := []) h (by simp) (l.quiet_declarations index indent) (by simp [hw])
      (.inl (by simp [hw])) (.inl fun c hc => ?_)
    rw [hw, List.append_cons, ← List.cons_append, List.getLast?_concat] at hc
    cases hc
    decide
  have hword : List.IsChain Fits ((some ';' :: before ++ (l.declarations index indent).map some ++
      member) ++ ((separator m.lead).map some ++ (head ++ some '{' :: (body ++ some '}' :: after)))) := by
    refine isChain_splice (z := m.lead.map some ++ none :: m.trail.map some) (by simpa using hfields)
      (by simp) (fun c hc => isQuiet_of_isBlank (hblank c hc)) hne (.inl fun hc => ?_)
      (.inl fun c hc => isDelimiter_of_isBlank (hblank c (List.mem_of_getLast? hc)))
    exact isBlank_ne (hblank _ (List.mem_of_head? hc)) (by decide) rfl
  have hopen : List.IsChain Fits ((some ';' :: before ++ (l.declarations index indent).map some ++
      member ++ (separator m.lead).map some ++ head ++ [some '{']) ++
        ((l.openTry index indent).map some ++ (body ++ some '}' :: after))) := by
    obtain ⟨w, hw⟩ := l.openTry_ends index indent
    have h : List.IsChain Fits ((some ';' :: before ++ (l.declarations index indent).map some ++
        member ++ (separator m.lead).map some ++ head ++ [some '{']) ++
          ([] ++ (body ++ some '}' :: after))) := by
      simpa using hword
    refine isChain_splice h (by simp) (l.quiet_openTry index indent) (by simp [hw])
      (.inl (by simp [hw])) (.inr fun hb => ?_)
    have hbrace := (List.isChain_append.1 h).2.2 (some '{') List.getLast?_concat none hb
    exact absurd (hbrace.word rfl '{' rfl) (by decide)
  have hclose : List.IsChain Fits ((some ';' :: before ++ (l.declarations index indent).map some ++
      member ++ (separator m.lead).map some ++ head ++ [some '{'] ++
        (l.openTry index indent).map some ++ body) ++
          ((l.closeTry index indent).map some ++ some '}' :: after)) := by
    obtain ⟨w, hw, hmem⟩ := l.closeTry_ends index indent
    have h : List.IsChain Fits ((some ';' :: before ++ (l.declarations index indent).map some ++
        member ++ (separator m.lead).map some ++ head ++ [some '{'] ++
          (l.openTry index indent).map some ++ body) ++ ([] ++ some '}' :: after)) := by
      simpa using hopen
    refine isChain_splice h (by simp) (l.quiet_closeTry index indent) (by simp [hw])
      (.inr fun hb => ?_) (.inr (by simp))
    exact ((List.isChain_append.1 h).2.2 none hb (some '}') (by simp)).brace rfl rfl
  simpa using hclose

/-! ## Reading a smooth text -/

namespace Smooth

variable {t x y : List Char}

/-- Every atom has one before it that it fits. -/
theorem exists_fits (h : Smooth t) {b : Option Char} (hb : b ∈ atoms t) : ∃ a, Fits a b := by
  obtain ⟨l₁, l₂, hl⟩ := List.append_of_mem hb
  unfold Smooth at h
  rw [hl, ← List.cons_append] at h
  exact ⟨_, (List.isChain_append.1 h).2.2 _ (List.getLast?_eq_some_getLast (List.cons_ne_nil _ l₁)) b rfl⟩

theorem not_mem_sign (h : Smooth t) : '@' ∉ t := by
  intro hc
  rw [← spell_atoms t, spell, List.mem_flatMap] at hc
  obtain ⟨a, ha, hmem⟩ := hc
  cases a with
  | none =>
    revert hmem
    rw [Option.elim_none, keyword_eq]
    decide
  | some c =>
    rw [Option.elim_some, List.mem_singleton] at hmem
    subst hmem
    obtain ⟨b, hb⟩ := h.exists_fits ha
    exact hb.sign rfl

theorem not_keyword (h : Smooth t) : ¬ keyword <+: t := by
  intro hk
  rw [← head?_atoms] at hk
  exact absurd ((List.isChain_cons.1 h).1 none hk |>.word rfl ';' rfl) (by decide)

/-- No slashes and no quotes are left on the line. -/
theorem calm_read {r : Reading} {a : Option Char} (h : List.IsChain Fits (a :: atoms x))
    (hlast : r.last = some '/' → a = some '/') (hr : r.slashes = false ∧ r.quote = false) :
    (r.read x).slashes = false ∧ (r.read x).quote = false := by
  induction x using atom_induction generalizing r a with
  | nil => exact hr
  | word rest ih =>
    rw [atoms_keyword_append, List.isChain_cons_cons] at h
    rw [Reading.read_append]
    refine ih h.2 ?_ ?_
    · rw [keyword_eq]
      simp [Reading.next]
    · rw [keyword_eq]
      simp [Reading.next, hr, isLineBreak]
  | other c rest hk ih =>
    rw [atoms_cons hk, List.isChain_cons_cons] at h
    obtain ⟨hfit, h⟩ := h
    rw [Reading.read_cons]
    refine ih h (fun hl => ?_) ?_
    · simp only [Reading.next] at hl
      split at hl
      · exact hl
      · cases hl
    · have hq : c ≠ '"' := fun hc => hfit.quote (by rw [hc])
      have hs : ¬ (r.last = some '/' ∧ c = '/') := by
        rintro ⟨hl, hc⟩
        exact hfit.slashes ⟨hlast hl, by rw [hc]⟩
      simp only [Reading.next, hr, Bool.false_or]
      grind

theorem calm (h : Smooth (x ++ y)) (hcut : Cut x y) :
    (Reading.start.read x).slashes = false ∧ (Reading.start.read x).quote = false := by
  unfold Smooth at h
  rw [atoms_append hcut, ← List.cons_append] at h
  exact calm_read h.left_of_append nofun ⟨rfl, rfl⟩

/-- No keyword stands right after a delimiter. -/
theorem not_keyword_after {c : Char} (h : Smooth (x ++ [c] ++ y)) (hc : isDelimiter c = true) :
    ¬ keyword <+: y := by
  intro hk
  have hne := not_mem_keyword_of_isDelimiter hc
  unfold Smooth at h
  rw [atoms_append (.of_last hne), atoms_append (.of_head hne),
    atoms_cons (not_keyword_cons hne []), ← List.cons_append] at h
  have hfit := (List.isChain_append.1 h).2.2 (some c) (by rw [← List.cons_append]; exact List.getLast?_concat) none
    (head?_atoms.2 hk)
  rw [hfit.word rfl c rfl] at hc
  cases hc

/-- No keyword stands right before a closing brace. -/
theorem not_keyword_before (h : Smooth (x ++ '}' :: y)) : ¬ keyword <:+ x := by
  rintro ⟨w, rfl⟩
  have hbrace : '}' ∉ keyword := not_mem_keyword_of_isDelimiter (by decide)
  unfold Smooth at h
  rw [List.append_assoc, atoms_append_keyword, atoms_cons (not_keyword_cons hbrace y)] at h
  rw [← List.cons_append] at h
  exact ((List.isChain_cons.1 h.right_of_append).1 _ rfl).brace rfl rfl

end Smooth

end LockMigration.Conversion
