/-
The import of a converted file. It is put on a line of its own after a semicolon, or on top of the
text, and no keyword can stand across its ends. It changes no kind as long as it is not put in the
middle of a line whose slashes or quotes still count behind it, and as long as the text does not
begin with a keyword, which would stand after a blank from then on.
-/
import LockMigration.Proofs.Conversion.Keywords
import LockMigration.Proofs.Conversion.Readings

namespace LockMigration.Conversion

open Text Java

attribute [local irreducible] keyword

/-! ## Where the import goes -/

theorem packageEnd?_eq_some {t : List Char} {n : Nat} (h : packageEnd? t = .ok (some n)) :
    ∃ x y, t = x ++ ';' :: y ∧ n = x.length + 1 := by
  unfold packageEnd? at h
  split at h
  · cases h
  · rename_i i _
    split at h
    · rename_i k hk
      cases h
      obtain ⟨hlt, hc, -⟩ := List.findIdx?_eq_some_iff_getElem.1 hk
      rw [List.length_drop] at hlt
      rw [List.getElem_drop, beq_iff_eq] at hc
      refine ⟨t.take (i + k), t.drop (i + k + 1), ?_, ?_⟩
      · rw [← hc, ← List.drop_eq_getElem_cons, List.take_append_drop]
      · rw [List.length_take, Nat.min_eq_left (by omega)]
    · cases h

/-- The import goes on top of a text without a package, or after a semicolon. -/
theorem insertImport_eq_ok {l : Locker} {t u : List Char} (h : insertImport l t = .ok u) :
    packagePosition? t = none ∧ u = l.importLine ++ ['\n', '\n'] ++ t ∨
      ∃ x y, t = x ++ ';' :: y ∧ packageEnd? t = .ok (some (x.length + 1)) ∧
        u = x ++ [';'] ++ (['\n', '\n'] ++ l.importLine) ++ y := by
  unfold insertImport at h
  cases hp : packageEnd? t with
  | error e => rw [hp] at h; cases h
  | ok pos =>
    rw [hp] at h
    cases pos with
    | none =>
      cases h
      refine .inl ⟨?_, rfl⟩
      unfold packageEnd? at hp
      split at hp
      · assumption
      · split at hp <;> cases hp
    | some n =>
      cases h
      obtain ⟨x, y, rfl, rfl⟩ := packageEnd?_eq_some hp
      refine .inr ⟨x, y, rfl, rfl, ?_⟩
      have htake : (x ++ ';' :: y).take (x.length + 1) = x ++ [';'] := by
        rw [List.append_cons]
        exact List.take_left' (by simp)
      have hdrop : (x ++ ';' :: y).drop (x.length + 1) = y := by
        rw [List.append_cons]
        exact List.drop_left' (by simp)
      simp only [htake, hdrop, List.append_assoc]

/-! ## What it keeps -/

theorem quiet_line (l : Locker) : ∀ c ∈ ['\n', '\n'] ++ l.importLine, isQuiet c = true := by
  intro c hc
  rcases List.mem_append.1 hc with hc | hc
  · simp only [List.mem_cons, List.not_mem_nil, or_false, or_self] at hc
    rw [hc]
    decide
  · exact l.quiet_importLine c hc

theorem not_mem_keyword_semicolon : ';' ∉ keyword :=
  not_mem_keyword_of_isDelimiter (by decide)

theorem cut_importLine (l : Locker) (x y : List Char) : Cut (x ++ l.importLine) y := by
  unfold Locker.importLine
  rw [← List.append_assoc, ← List.append_assoc]
  exact .of_last not_mem_keyword_semicolon

theorem cut_line (x y : List Char) : Cut (x ++ ['\n', '\n']) y := by
  rw [List.append_cons]
  exact .of_last (not_mem_keyword_of_isBlank (by decide))

/-- The import takes nothing out of the text. -/
theorem kept_insertImport {l : Locker} {t u : List Char} (h : insertImport l t = .ok u) :
    Kept 0 (atoms t) (atoms u) := by
  rcases insertImport_eq_ok h with ⟨-, rfl⟩ | ⟨x, y, rfl, -, rfl⟩
  · have hquiet : ∀ c ∈ l.importLine ++ ['\n', '\n'], isQuiet c = true := fun c hc =>
      quiet_line l c (by simpa [or_comm] using hc)
    rw [atoms_append (cut_line _ _), atoms_quiet hquiet]
    exact .adds _ (.refl _)
  · rw [List.append_cons x, atoms_append (.of_last not_mem_keyword_semicolon),
      List.append_assoc _ _ y, atoms_append (.of_last not_mem_keyword_semicolon),
      atoms_append (cut_importLine l _ _), atoms_quiet (quiet_line l)]
    exact .keeps _ (.adds _ (.refl _))

/-! ## What it leaves as it was -/

theorem read_import_top (l : Locker) :
    Reading.start.read (l.importLine ++ ['\n', '\n']) = .inCode := by
  have := l.read_importLine [] (by simp) (r := .start) (.inr ⟨rfl, rfl⟩)
  rw [List.nil_append] at this
  rw [Reading.read_append, this]
  rfl

/-- On top of a text the import changes no kind, unless the text begins with a keyword. -/
theorem kinds_import_top (l : Locker) {t : List Char} (h : ¬ keyword <+: t) :
    (roles (l.importLine ++ ['\n', '\n'] ++ t)).map Prod.snd = (roles t).map Prod.snd := by
  have hquiet : ∀ c ∈ l.importLine ++ ['\n', '\n'], isQuiet c = true := fun c hc =>
    quiet_line l c (by simpa [or_comm] using hc)
  unfold roles
  rw [rolesFrom_append, rolesFrom_quiet hquiet (cut_line _ _), List.nil_append, read_import_top,
    map_snd_rolesFrom _ 0]
  cases t with
  | nil => rfl
  | cons c t =>
    have hnext : Reading.inCode.next c = Reading.start.next c := Reading.next_fresh_line false c
    rw [rolesFrom_next hnext (by rwa [List.append_nil])]

/-- After a semicolon the import changes no kind, unless slashes or a quote stand before it on its
line. -/
theorem kinds_import_after (l : Locker) {x y : List Char}
    (hl : inLineComment (x ++ ';' :: y) x.length = false)
    (hq : afterQuote (x ++ ';' :: y) x.length = false) :
    (roles (x ++ [';'] ++ (['\n', '\n'] ++ l.importLine) ++ y)).map Prod.snd =
      (roles (x ++ ';' :: y)).map Prod.snd := by
  have hread : Reading.start.read (x ++ [';']) = .fresh (Reading.start.read x).block := by
    rw [inLineComment_eq (by decide)] at hl
    rw [afterQuote_eq] at hq
    rw [Reading.read_append]
    exact @read_quiet_line [] ';' _ (List.all_eq_true.1 (by decide)) (.inr ⟨hl, hq⟩) (by decide)
  have hline : (Reading.fresh (Reading.start.read x).block).read (['\n', '\n'] ++ l.importLine) =
      .fresh (Reading.start.read x).block :=
    l.read_importLine _ (List.all_eq_true.1 (by decide)) (.inl (by decide))
  unfold roles
  rw [List.append_cons x ';' y, rolesFrom_append, rolesFrom_append, rolesFrom_append _ _ _ y,
    rolesFrom_quiet (quiet_line l) (cut_importLine l _ _), List.append_nil, Reading.read_append,
    hread, hline, rolesFrom_upTo (by decide) not_mem_keyword_semicolon x _ (y ++ []),
    List.map_append, List.map_append, map_snd_rolesFrom (0 + _)]

end LockMigration.Conversion
