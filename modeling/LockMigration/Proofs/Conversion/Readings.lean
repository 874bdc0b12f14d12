/-
What is read on the two sides of an edit. The generated texts end lines, so the text after an edit
is read with the same comments open as before it, and with no more slashes and quotes on the line:
it is read with more ease. Behind the keyword the two readings are the same.

A keyword that is followed by blanks only stands behind every method that can be given a lock, and
a reading with more ease finds it there again.
-/
import LockMigration.Proofs.Conversion.Frame

namespace LockMigration

open Text Java Conversion

attribute [local irreducible] keyword

/-! ## Easier readings -/

namespace Java.Reading

/-- The reading `r'` differs from `r` only in slashes and quotes that `r'` does not have, and in
the blanks before it. -/
structure Eases (r r' : Reading) : Prop where
  last : r'.last = r.last
  block : r'.block = r.block
  slashes : r'.slashes = true → r.slashes = true
  quote : r'.quote = true → r.quote = true

namespace Eases

variable {r r' : Reading}

theorem next (h : r.Eases r') (c : Char) : (r.next c).Eases (r'.next c) where
  last := rfl
  block := by simp only [Reading.next, h.last, h.block]
  slashes := by
    simp only [Reading.next, h.last, Bool.and_eq_true, Bool.or_eq_true]
    rintro ⟨h1, h2⟩
    exact ⟨h1, h2.imp_left h.slashes⟩
  quote := by
    simp only [Reading.next, Bool.and_eq_true, Bool.or_eq_true]
    rintro ⟨h1, h2⟩
    exact ⟨h1, h2.imp_left h.quote⟩

theorem read (h : r.Eases r') (t : List Char) : (r.read t).Eases (r'.read t) := by
  induction t generalizing r r' with
  | nil => exact h
  | cons c t ih => exact ih (h.next c)

theorem fresh (hl : r.last = none) : r.Eases (Reading.fresh r.block) :=
  ⟨hl.symm, rfl, nofun, nofun⟩

/-- Blanks in code are in code for an easier reading. -/
theorem setting (h : r.Eases r') {c : Char} (hc : r.setting c = .code) : r'.setting c = .code := by
  have hs := h.slashes
  have hq := h.quote
  unfold Reading.setting at hc ⊢
  rw [h.block]
  grind

end Eases

/-- A run of blanks in code stays one for an easier reading. -/
theorem Eases.run_read {r r' : Reading} (h : r.Eases r') (hn : r.run = none → r'.run = none)
    (hc : r.run = some .code → r'.run = some .code) (t : List Char) :
    (r.read t).run = some .code → (r'.read t).run = some .code := by
  induction t generalizing r r' with
  | nil => exact hc
  | cons c t ih =>
    refine ih (h.next c) ?_ ?_
    · simp only [Reading.next]
      split <;> simp
    · simp only [Reading.next]
      split
      · cases hr : r.run with
        | none =>
          rw [hn hr]
          simpa using h.setting
        | some s =>
          rintro ⟨⟩
          rw [hc hr]
          rfl
      · simp

/-- Blanks that begin in code are read as code, and nothing of the line is left behind. -/
theorem read_blanks {r : Reading} {b : Char} {l : List Char} (hr : r.run = none)
    (h : ∀ c ∈ b :: l, isBlank c = true) (hc : r.setting b = .code) :
    r.read (b :: l) = .inCode := by
  obtain ⟨h1, h2, h3, h4⟩ := read_quiet (fun c hc => isQuiet_of_isBlank (h c hc)) (by simp) r
  have hrun := run_read_blanks hr h
  rw [hc] at hrun
  have hblock : r.block = false := by unfold Reading.setting at hc; grind
  have hquote : r.quote = false := by unfold Reading.setting at hc; grind
  have hslashes : (!(b :: l).any isLineBreak && r.slashes) = false := by
    unfold Reading.setting at hc
    rw [List.any_cons]
    grind
  cases hread : r.read (b :: l)
  simp only [hread, hblock, hslashes, hquote, Bool.and_false] at h1 h2 h3 h4 hrun
  rw [h1, h2, h3, h4, hrun, Reading.inCode]

theorem inCode_read_blanks {l : List Char} (h : ∀ c ∈ l, isBlank c = true) :
    Reading.inCode.read l = .inCode := by
  have hb : ∀ c ∈ ' ' :: l, isBlank c = true := by
    intro c hc
    rcases List.mem_cons.1 hc with rfl | hc
    · decide
    · exact h c hc
  exact @read_blanks .start ' ' l rfl hb rfl

/-- A line break at the end of a line is read like the blanks after it. -/
theorem next_fresh_line (block : Bool) (c : Char) :
    ((Reading.fresh block).next '\n').next c = (Reading.fresh block).next c := by
  by_cases hb : isBlank c = true <;>
    cases block <;> simp [Reading.next, Reading.fresh, Reading.setting, isLineBreak, hb,
      (by decide : isBlank '\n' = true)]

theorem inCode_read_keyword : Reading.inCode.read keyword = .start := by
  rw [keyword_eq]
  decide

end Java.Reading

namespace Conversion.Frame

variable {m : Frame}

/-! ## Up to the body -/

theorem text_eq (m : Frame) : m.text = m.before ++ m.member ++ m.lead ++ keyword ++ m.trail ++
    (m.head ++ ['{']) ++ (m.body ++ ['}']) ++ m.after := by
  simp [text]

theorem locked_eq (m : Frame) (l : Locker) (index indent : Nat) : m.locked l index indent =
    m.before ++ l.declarations index indent ++ m.member ++ separator m.lead ++ (m.head ++ ['{']) ++
      (l.openTry index indent ++ m.body ++ (l.closeTry index indent ++ ['}'])) ++ m.after := by
  simp [locked]

/-- The reading behind the opening brace. -/
def opened (m : Frame) : Reading :=
  Reading.inCode.read (m.head ++ ['{'])

theorem opened_last (m : Frame) : m.opened.last = none := by
  rw [opened, last_snoc]
  rfl

theorem opened_run (m : Frame) : m.opened.run = none :=
  (run_snoc _ _ _).2 (by decide)

theorem read_lead (hm : m.Sound) :
    Reading.start.read (m.before ++ m.member ++ m.lead) = .inCode := by
  obtain ⟨b, l, hl⟩ := List.exists_cons_of_ne_nil hm.lead_ne
  rw [Reading.read_append, hl]
  exact Reading.read_blanks hm.firm (hl ▸ hm.lead_blank) (hm.code b (by rw [hl]; rfl))

theorem read_trail (hm : m.Sound) :
    Reading.start.read (m.before ++ m.member ++ m.lead ++ keyword ++ m.trail) = .inCode := by
  obtain ⟨b, l, hl⟩ := List.exists_cons_of_ne_nil hm.trail_ne
  rw [Reading.read_append, Reading.read_append, read_lead hm, Reading.inCode_read_keyword, hl]
  exact Reading.read_blanks rfl (hl ▸ hm.trail_blank) (by simp [Reading.setting, Reading.start])

/-- Nothing before the member reaches into it. -/
theorem last_before (hm : m.Sound) : (Reading.start.read m.before).last = none ∨
    ∃ c z, m.member ++ m.lead = c :: z ∧ isLineBreak c = true := by
  rcases hm.edge with h | ⟨w, c, h, hc⟩ | h
  · rw [h]
    exact .inl rfl
  · rw [h, last_snoc, if_neg]
    · exact .inl rfl
    · rintro (rfl | rfl) <;> simp [isDelimiter] at hc
  · exact .inr h

/-- Behind the fields, the member is read with more ease. -/
theorem eases_member (hm : m.Sound) (hne : m.member ≠ []) (l : Locker) (index indent : Nat) :
    (Reading.start.read (m.before ++ m.member)).Eases
      (Reading.start.read (m.before ++ l.declarations index indent ++ m.member)) := by
  simp only [Reading.read_append, l.read_declarations]
  generalize hr : Reading.start.read m.before = r
  rcases last_before hm with h | ⟨c, z, h, hc⟩
  · rw [hr] at h
    refine Reading.Eases.read ⟨h.symm, ?_, ?_, ?_⟩ m.member <;> simp [Reading.next, Reading.fresh, isLineBreak]
  · -- the line break that the member begins with ends whatever was on the line
    obtain ⟨d, v, hv⟩ := List.exists_cons_of_ne_nil hne
    rw [hv] at h
    cases h
    rw [hv, Reading.read_cons, Reading.read_cons]
    refine Reading.Eases.read ⟨?_, ?_, ?_, ?_⟩ v
    · rfl
    · have hs : c ≠ '/' := by rintro rfl; simp [isLineBreak] at hc
      have ht : c ≠ '*' := by rintro rfl; simp [isLineBreak] at hc
      simp [Reading.next, Reading.fresh, hs, ht]
    · simp [Reading.next, hc]
    · simp [Reading.next, hc]

/-- The text up to the separator leaves the same reading as the text up to the blanks after the
keyword. -/
theorem read_separator (hm : m.Sound) (l : Locker) (index indent : Nat) :
    Reading.start.read (m.before ++ l.declarations index indent ++ m.member ++ separator m.lead) =
      .inCode := by
  have hblank := isBlank_of_mem_separator hm.lead_ne hm.lead_blank
  obtain ⟨b, z, hz⟩ := List.exists_cons_of_ne_nil hm.lead_ne
  have hcode := hm.code b (by rw [hz]; rfl)
  by_cases hne : m.member = []
  · -- the separator goes on with the line break that ends the fields
    have hblock : (Reading.start.read m.before).block = false := by
      rw [hne, List.append_nil] at hcode
      unfold Reading.setting at hcode
      grind
    rw [hne, List.append_nil, Reading.read_append, Reading.read_append, l.read_declarations, hblock]
    exact Reading.inCode_read_blanks hblank
  · -- the member ends with no blank, so the separator begins a run of its own
    have heases := eases_member hm hne l index indent
    have hrun : (Reading.start.read (m.before ++ l.declarations index indent ++ m.member)).run =
        none := by
      obtain ⟨w, c, hw⟩ := (List.eq_nil_or_concat m.member).resolve_left hne
      have hfirm := hm.firm
      rw [hw, List.concat_eq_append, ← List.append_assoc, run_snoc] at hfirm ⊢
      exact hfirm
    rw [Reading.read_append]
    rcases separator_eq hm.lead_ne hm.lead_blank with hs | ⟨hl, hs⟩
    · rw [hs, hz] at hblank ⊢
      exact Reading.read_blanks hrun hblank (heases.setting hcode)
    · refine hs ▸ Reading.read_blanks hrun (hs ▸ hblank) (heases.setting ?_)
      have hb : isLineBreak b = false := hl b (by rw [hz]; simp)
      unfold Reading.setting at hcode ⊢
      rw [hb] at hcode
      exact hcode

/-! ## Behind the body -/

theorem read_closing (hm : m.Sound) :
    Reading.start.read (m.before ++ m.member ++ m.lead ++ keyword ++ m.trail ++ (m.head ++ ['{']) ++
      (m.body ++ ['}'])) = m.opened.read (m.body ++ ['}']) := by
  rw [Reading.read_append _ _ (m.body ++ ['}']), Reading.read_append _ _ (m.head ++ ['{']),
    read_trail hm, opened]

/-- Behind the guarded body the same comments are open as behind the body, and the line is new. -/
theorem read_closing_locked (hm : m.Sound) (l : Locker) (index indent : Nat) :
    Reading.start.read (m.before ++ l.declarations index indent ++ m.member ++ separator m.lead ++
      (m.head ++ ['{']) ++ (l.openTry index indent ++ m.body ++ (l.closeTry index indent ++ ['}']))) =
        .fresh (m.opened.read (m.body ++ ['}'])).block := by
  have hblock := ((Reading.Eases.fresh m.opened_last).read m.body).block
  have hbrace : (m.opened.read (m.body ++ ['}'])).block = (m.opened.read m.body).block := by
    simp [Reading.next]
  rw [Reading.read_append _ _ (_ ++ (l.closeTry index indent ++ ['}'])),
    Reading.read_append _ _ (m.head ++ ['{']), read_separator hm,
    Reading.read_append _ _ (l.closeTry index indent ++ ['}']), Reading.read_append _ _ m.body,
    l.read_openTry, l.read_closeTry, hbrace, ← hblock, opened]

/-! ## A keyword before nothing but blanks -/

theorem none_mem_rolesFrom_of_eases {r r' : Reading} (h : r.Eases r') (hn : r.run = none)
    (hn' : r'.run = none) {i : Nat} {x : List Char} (hd : ∃ e ∈ rolesFrom i r x [], e.2 = none)
    (j : Nat) : ∃ e ∈ rolesFrom j r' x [], e.2 = none := by
  obtain ⟨e, he, hnone⟩ := hd
  obtain ⟨z, w, rfl, hw, -, s, hs, hentry⟩ := mem_rolesFrom.1 he
  rw [hnone] at hentry
  obtain rfl := Setting.eq_code_of_entry hentry
  refine ⟨(j + z.length, none), mem_rolesFrom.2 ⟨z, w, rfl, hw, rfl, .code, ?_, hentry⟩, rfl⟩
  exact h.run_read (fun _ => hn') (fun hc => by rw [hn] at hc; cases hc) z hs

/-- A lock takes no keyword away that has nothing but blanks behind it. -/
theorem none_mem_roles_locked (hm : m.Sound) (l : Locker) (index indent : Nat)
    (h : ∃ e ∈ roles m.text, e.2 = none) : ∃ e ∈ roles (m.locked l index indent), e.2 = none := by
  have hbrace : isBlank '}' = false ∧ '}' ∉ keyword :=
    ⟨by decide, not_mem_keyword_of_isDelimiter (by decide)⟩
  obtain ⟨e, he, hnone⟩ := h
  rw [roles, text_eq, rolesFrom_append, List.mem_append] at he
  -- the closing brace is not blank, so the keyword stands behind it
  replace he := he.resolve_left fun hx => by
    rw [← List.append_assoc] at hx
    exact kind_ne_none_of_mem hbrace.1 hbrace.2 hx hnone
  rw [read_closing hm] at he
  rw [roles, locked_eq, rolesFrom_append, read_closing_locked hm]
  have hlast : (m.opened.read (m.body ++ ['}'])).last = none := last_snoc _ _ _
  have hrun : (m.opened.read (m.body ++ ['}'])).run = none := (run_snoc _ _ _).2 hbrace.1
  obtain ⟨e, he', hnone'⟩ := none_mem_rolesFrom_of_eases (.fresh hlast) hrun rfl ⟨e, he, hnone⟩ _
  exact ⟨e, List.mem_append_right _ he', hnone'⟩

end Conversion.Frame

end LockMigration
