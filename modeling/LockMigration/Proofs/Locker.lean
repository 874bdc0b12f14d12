/-
The generated texts. They are quiet: no character of them can open or close a comment, stand for a
quote or an annotation, or belong to a keyword. A quiet text with a line break leaves nothing of
the line before it behind, and everything else as it was.
-/
import LockMigration.Locker
import LockMigration.Proofs.Java.Keyword

namespace LockMigration

open Text Java

attribute [local irreducible] keyword

/-- A character that is no part of a comment marker, no quote and no annotation sign, and that
never stands in a text with a whole keyword. -/
def isQuiet (c : Char) : Bool :=
  c != '/' && c != '*' && c != '"' && c != '@' && c != 'z'

/-! ## Quiet texts -/

theorem isQuiet_of_isBlank {c : Char} (h : isBlank c = true) : isQuiet c = true := by
  have hne (d : Char) (hd : isBlank d = false) : c ≠ d := isBlank_ne h hd
  simp [isQuiet, hne '/' (by decide), hne '*' (by decide), hne '"' (by decide),
    hne '@' (by decide), hne 'z' (by decide)]

theorem read_quiet {t : List Char} (h : ∀ c ∈ t, isQuiet c = true) (hne : t ≠ []) (r : Reading) :
    (r.read t).last = none ∧ (r.read t).block = r.block ∧
      (r.read t).slashes = (!t.any isLineBreak && r.slashes) ∧
      (r.read t).quote = (!t.any isLineBreak && r.quote) := by
  induction t generalizing r with
  | nil => exact absurd rfl hne
  | cons c t ih =>
    have hc := h c (by simp)
    simp only [isQuiet, Bool.and_eq_true, bne_iff_ne, ne_eq] at hc
    obtain ⟨⟨⟨⟨hs, ht⟩, hq⟩, -⟩, -⟩ := hc
    have next : (r.next c).last = none ∧ (r.next c).block = r.block ∧
        (r.next c).slashes = (!isLineBreak c && r.slashes) ∧
        (r.next c).quote = (!isLineBreak c && r.quote) := by
      have hs' : (c == '/') = false := by simpa using hs
      have hq' : (c == '"') = false := by simpa using hq
      simp [Reading.next, hs, ht, hs', hq']
    cases t with
    | nil => simpa using next
    | cons d t =>
      obtain ⟨h1, h2, h3, h4⟩ := ih (fun a ha => h a (List.mem_cons_of_mem _ ha)) (by simp)
        (r.next c)
      rw [Reading.read_cons]
      refine ⟨h1, by rw [h2, next.2.1], ?_, ?_⟩
      · rw [h3, next.2.2.1, @List.any_cons _ c, Bool.not_or, ← Bool.and_assoc,
          Bool.and_comm (!isLineBreak c)]
      · rw [h4, next.2.2.2, @List.any_cons _ c, Bool.not_or, ← Bool.and_assoc,
          Bool.and_comm (!isLineBreak c)]

/-- The reading behind a quiet line that ends with no blank. -/
def Java.Reading.fresh (block : Bool) : Reading :=
  ⟨none, block, false, false, none⟩

/-- The reading inside a run of blanks in code. -/
def Java.Reading.inCode : Reading :=
  ⟨none, false, false, false, some .code⟩

/-- Behind a quiet text that ends with no blank nothing of the line is left if the text has a line
break, or if there was nothing before. -/
theorem read_quiet_line {x : List Char} {c : Char} {r : Reading}
    (hx : ∀ d ∈ x ++ [c], isQuiet d = true)
    (hl : '\n' ∈ x ∨ r.slashes = false ∧ r.quote = false) (hc : isBlank c = false) :
    r.read (x ++ [c]) = .fresh r.block := by
  obtain ⟨h1, h2, h3, h4⟩ := read_quiet hx (by simp) r
  have hr := (run_snoc r x c).2 hc
  have hline : (!(x ++ [c]).any isLineBreak && r.slashes) = false ∧
      (!(x ++ [c]).any isLineBreak && r.quote) = false := by
    rcases hl with hl | ⟨hs, hq⟩
    · have hany : (x ++ [c]).any isLineBreak = true :=
        List.any_eq_true.2 ⟨'\n', List.mem_append_left _ hl, by decide⟩
      rw [hany]
      exact ⟨rfl, rfl⟩
    · rw [hs, hq, Bool.and_false]
      exact ⟨rfl, rfl⟩
  rw [hline.1] at h3
  rw [hline.2] at h4
  cases hread : r.read (x ++ [c])
  simp only [hread] at h1 h2 h3 h4 hr
  rw [h1, h2, h3, h4, hr, Reading.fresh]

theorem not_keyword_of_quiet {t : List Char} (h : ∀ c ∈ t, isQuiet c = true) :
    ¬ keyword <+: t := by
  intro hk
  have hz : 'z' ∈ keyword := by rw [keyword_eq]; decide
  have := h 'z' (hk.subset hz)
  simp [isQuiet] at this

theorem Java.Cut.suffix {x y z : List Char} (h : Cut x y) (hz : z <:+ x) : Cut z y := by
  obtain ⟨w, rfl⟩ := hz
  induction w with
  | nil => exact h
  | cons c w ih => exact ih h.tail

/-- No token begins in a quiet text. -/
theorem rolesFrom_quiet {x y : List Char} (h : ∀ c ∈ x, isQuiet c = true) (hcut : Cut x y)
    (i : Nat) (r : Reading) : rolesFrom i r x y = [] := by
  refine rolesFrom_eq_nil (fun z hz hx hk => ?_) i r
  rw [(hcut.suffix hx).keyword_iff hz] at hk
  exact not_keyword_of_quiet (fun c hc => h c (hx.subset hc)) hk

theorem atoms_quiet {t : List Char} (h : ∀ c ∈ t, isQuiet c = true) : atoms t = t.map some := by
  induction t with
  | nil => rfl
  | cons c t ih =>
    rw [atoms_cons (not_keyword_of_quiet h), ih fun a ha => h a (List.mem_cons_of_mem _ ha),
      List.map_cons]

namespace Locker

/-! ## Generated texts are quiet -/

theorem all_quiet_pad (width : Nat) : (pad width).all isQuiet = true := by
  rw [pad, List.all_replicate]
  split <;> decide

theorem all_quiet_digits (index : Nat) : (digits index).all isQuiet = true := by
  rw [List.all_eq_true]
  intro c hc
  have hd := Nat.isDigit_of_mem_toDigits (by decide) (by decide) hc
  have hne (d : Char) (h : d.isDigit = false) : c ≠ d := by
    rintro rfl
    rw [hd] at h
    cases h
  simp [isQuiet, hne '/' (by decide), hne '*' (by decide), hne '"' (by decide),
    hne '@' (by decide), hne 'z' (by decide)]

theorem all_quiet_handle (l : Locker) (index : Nat) : (l.handle index).all isQuiet = true := by
  unfold handle
  split
  · rw [List.all_append, all_quiet_digits]
    decide
  · rw [List.all_append, all_quiet_digits]
    decide

theorem quiet_declarations (l : Locker) (index indent : Nat) :
    ∀ c ∈ l.declarations index indent, isQuiet c = true := by
  rw [← List.all_eq_true]
  unfold declarations
  split
  · simp only [List.all_append, all_quiet_pad, all_quiet_digits, Bool.and_true]
    repeat rewrite [String.toList_ofList]
    decide
  · simp only [List.all_append, all_quiet_pad, all_quiet_digits, Bool.and_true]
    repeat rewrite [String.toList_ofList]
    decide

theorem quiet_openTry (l : Locker) (index indent : Nat) :
    ∀ c ∈ l.openTry index indent, isQuiet c = true := by
  rw [← List.all_eq_true]
  simp only [openTry, List.all_append, List.all_cons, all_quiet_pad, all_quiet_handle,
    Bool.and_true]
  repeat rewrite [String.toList_ofList]
  decide

theorem quiet_closeTry (l : Locker) (index indent : Nat) :
    ∀ c ∈ l.closeTry index indent, isQuiet c = true := by
  rw [← List.all_eq_true]
  simp only [closeTry, List.all_append, all_quiet_pad, all_quiet_handle, Bool.and_true]
  repeat rewrite [String.toList_ofList]
  decide

theorem quiet_importLine (l : Locker) : ∀ c ∈ l.importLine, isQuiet c = true := by
  rw [← List.all_eq_true]
  unfold importLine className
  split
  · repeat rewrite [String.toList_ofList]
    decide
  · repeat rewrite [String.toList_ofList]
    decide

/-! ## Their ends -/

theorem declarations_ends (l : Locker) (index indent : Nat) :
    ∃ w, l.declarations index indent = '\n' :: (w ++ [';', '\n']) := by
  have first : "\n\n".toList = ['\n', '\n'] := by decide
  unfold declarations
  split
  · have last : ".writeLock();\n".toList = ".writeLock()".toList ++ [';', '\n'] := by
      repeat rewrite [String.toList_ofList]
      rfl
    rw [first, last]
    simp only [List.append_assoc, List.cons_append, List.nil_append]
    simp only [← List.append_assoc]
    exact ⟨'\n' :: _, rfl⟩
  · have last : " = new StampedLock();\n".toList = " = new StampedLock()".toList ++ [';', '\n'] := by
      repeat rewrite [String.toList_ofList]
      rfl
    rw [first, last]
    simp only [List.append_assoc, List.cons_append, List.nil_append]
    simp only [← List.append_assoc]
    exact ⟨'\n' :: _, rfl⟩

theorem openTry_ends (l : Locker) (index indent : Nat) :
    ∃ w, l.openTry index indent = '\n' :: (w ++ ['\x7b']) := by
  have last : "try \x7b".toList = "try ".toList ++ ['\x7b'] := by decide
  unfold openTry
  rw [last, ← List.append_assoc]
  exact ⟨_, rfl⟩

theorem closeTry_ends (l : Locker) (index indent : Nat) :
    ∃ w, l.closeTry index indent = pad indent ++ '\x7d' :: w ∧ '\n' ∈ w := by
  have first : "\x7d finally \x7b\n".toList = '\x7d' :: " finally \x7b\n".toList := by decide
  unfold closeTry
  rw [first]
  simp only [List.append_assoc, List.cons_append]
  refine ⟨_, rfl, List.mem_append_left _ ?_⟩
  decide

/-! ## Reading them -/

theorem read_declarations (l : Locker) (index indent : Nat) (r : Reading) :
    r.read (l.declarations index indent) = (Reading.fresh r.block).next '\n' := by
  have hq := l.quiet_declarations index indent
  obtain ⟨w, hw⟩ := l.declarations_ends index indent
  have split : l.declarations index indent = ('\n' :: w) ++ [';'] ++ ['\n'] := by rw [hw]; simp
  rw [split] at hq ⊢
  rw [Reading.read_append, read_quiet_line (fun d hd => hq d (List.mem_append_left _ hd))
    (.inl (by simp)) (by decide)]
  rfl

theorem read_openTry (l : Locker) (index indent : Nat) (r : Reading) :
    r.read (l.openTry index indent) = .fresh r.block := by
  have hq := l.quiet_openTry index indent
  obtain ⟨w, hw⟩ := l.openTry_ends index indent
  rw [← List.cons_append] at hw
  rw [hw] at hq ⊢
  exact read_quiet_line hq (.inl (by simp)) (by decide)

theorem read_closeTry (l : Locker) (index indent : Nat) (r : Reading) :
    r.read (l.closeTry index indent ++ ['\x7d']) = .fresh r.block := by
  obtain ⟨w, hw, hl⟩ := l.closeTry_ends index indent
  refine read_quiet_line (fun d hd => ?_) (.inl (by rw [hw]; simp [hl])) (by decide)
  rcases List.mem_append.1 hd with hd | hd
  · exact l.quiet_closeTry index indent d hd
  · rw [List.mem_singleton.1 hd]
    decide

theorem read_importLine (l : Locker) (x : List Char) (hx : ∀ c ∈ x, isQuiet c = true) {r : Reading}
    (hr : '\n' ∈ x ∨ r.slashes = false ∧ r.quote = false) :
    r.read (x ++ l.importLine) = .fresh r.block := by
  have hq := l.quiet_importLine
  unfold importLine at hq ⊢
  rw [← List.append_assoc]
  refine read_quiet_line (fun d hd => ?_) (hr.imp_left (List.mem_append_left _)) (by decide)
  rw [List.append_assoc] at hd
  exact (List.mem_append.1 hd).elim (hx d) (hq d)

end Locker

end LockMigration
