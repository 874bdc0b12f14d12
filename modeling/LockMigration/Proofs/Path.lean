/-
Paths and their components. A path is compared, ordered and cut by its components, while it is
printed and matched by its spelling; the lemmas here take the one to the other. Going to an entry of
a directory adds one name to the components (`components_under`), the parent has all components but
the last (`components_parent?`), and the order of paths is the lexicographic one on the components,
with two paths neither before the other exactly if they have the same (`compare_eq_eq`).

A tidy path is spelled as its components are, with one slash between them. Tidy paths with the same
components are equal.

The way up from a path goes from parent to parent and ends at the root directory, or at the empty
path (`upward_ancestors`).
-/
import LockMigration.Path
import Mathlib.Data.List.Basic

namespace LockMigration

/-- A text that can be the name of an entry. -/
structure IsName (n : List Char) : Prop where
  ne_nil : n ≠ []
  no_slash : '/' ∉ n
  ne_dot : n ≠ ['.']
  ne_dots : n ≠ ['.', '.']

instance (n : List Char) : Decidable (IsName n) :=
  decidable_of_iff (n ≠ [] ∧ '/' ∉ n ∧ n ≠ ['.'] ∧ n ≠ ['.', '.'])
    ⟨fun ⟨h1, h2, h3, h4⟩ => ⟨h1, h2, h3, h4⟩, fun ⟨h1, h2, h3, h4⟩ => ⟨h1, h2, h3, h4⟩⟩

/-- How a component is spelled. -/
def Component.chars : Component → List Char
  | .root => ['/']
  | .here => ['.']
  | .up => ['.', '.']
  | .name n => n

namespace Path

/-! ## Pieces -/

/-- The pieces between the slashes of a text. -/
def pieces (t : List Char) : List (List Char) :=
  (piecesFrom 0 [] t).map (·.1)

theorem piecesFrom_nil (i : Nat) (acc : List Char) : piecesFrom i acc [] = [(acc.reverse, i)] := rfl

theorem piecesFrom_cons (i : Nat) (acc : List Char) (c : Char) (t : List Char) :
    piecesFrom i acc (c :: t) =
      if c = '/' then (acc.reverse, i) :: piecesFrom (i + 1) [] t
      else piecesFrom (i + 1) (c :: acc) t := rfl

theorem map_fst_piecesFrom (i j : Nat) (acc t : List Char) :
    (piecesFrom i acc t).map (·.1) = (piecesFrom j acc t).map (·.1) := by
  induction t generalizing i j acc with
  | nil => rfl
  | cons c t ih =>
    rw [piecesFrom_cons, piecesFrom_cons]
    by_cases hc : c = '/'
    · rw [if_pos hc, if_pos hc, List.map_cons, List.map_cons, ih (i + 1) (j + 1)]
    · rw [if_neg hc, if_neg hc, ih (i + 1) (j + 1)]

theorem piecesFrom_append (i : Nat) (acc x y : List Char) :
    piecesFrom i acc (x ++ '/' :: y) = piecesFrom i acc x ++ piecesFrom (i + x.length + 1) [] y := by
  induction x generalizing i acc with
  | nil => rfl
  | cons c x ih =>
    rw [List.cons_append, piecesFrom_cons, piecesFrom_cons, List.length_cons,
      show i + (x.length + 1) + 1 = i + 1 + x.length + 1 by omega]
    by_cases hc : c = '/'
    · rw [if_pos hc, if_pos hc, ih, List.cons_append]
    · rw [if_neg hc, if_neg hc, ih]

theorem pieces_append (x y : List Char) : pieces (x ++ '/' :: y) = pieces x ++ pieces y := by
  unfold pieces
  rw [piecesFrom_append, List.map_append, map_fst_piecesFrom _ 0 [] y]

theorem piecesFrom_of_no_slash {t : List Char} (h : '/' ∉ t) (i : Nat) (acc : List Char) :
    piecesFrom i acc t = [(acc.reverse ++ t, i + t.length)] := by
  induction t generalizing i acc with
  | nil => rw [piecesFrom_nil, List.append_nil]; rfl
  | cons c t ih =>
    rw [List.mem_cons, not_or] at h
    rw [piecesFrom_cons, if_neg (Ne.symm h.1), ih h.2, List.reverse_cons, List.append_assoc,
      List.length_cons, show i + 1 + t.length = i + (t.length + 1) by omega]
    rfl

theorem pieces_of_no_slash {t : List Char} (h : '/' ∉ t) : pieces t = [t] := by
  rw [pieces, piecesFrom_of_no_slash h]
  rfl

theorem head?_pieces (t : List Char) : (pieces t).head? = some (t.takeWhile (· != '/')) := by
  have hfrom (i : Nat) (acc : List Char) : ((piecesFrom i acc t).map (·.1)).head? =
      some (acc.reverse ++ t.takeWhile (· != '/')) := by
    induction t generalizing i acc with
    | nil => rw [piecesFrom_nil, List.takeWhile_nil, List.append_nil]; rfl
    | cons c t ih =>
      rw [piecesFrom_cons]
      by_cases hc : c = '/'
      · rw [if_pos hc, List.takeWhile_cons_of_neg (by simp [hc]), List.append_nil]
        rfl
      · rw [if_neg hc, ih, List.takeWhile_cons_of_pos (by simp [hc]), List.reverse_cons,
          List.append_assoc]
        rfl
  exact hfrom 0 []

theorem head?_pieces_append (x y : List Char) :
    (pieces (x ++ '/' :: y)).head? = (pieces x).head? := by
  rw [pieces_append, List.head?_append, head?_pieces]
  rfl

/-- Where a piece ends, and how much text that takes. -/
theorem stop_of_mem_piecesFrom {i stop : Nat} {acc t piece : List Char}
    (h : (piece, stop) ∈ piecesFrom i acc t) :
    i ≤ stop ∧ piece.length ≤ acc.length + (stop - i) := by
  induction t generalizing i acc with
  | nil =>
    cases List.mem_singleton.1 h
    rw [List.length_reverse]
    omega
  | cons c t ih =>
    rw [piecesFrom_cons] at h
    split at h
    · rcases List.mem_cons.1 h with heq | h
      · cases heq
        rw [List.length_reverse]
        omega
      · have := ih h
        rw [List.length_nil] at this
        omega
    · have := ih h
      rw [List.length_cons] at this
      omega

/-- A text that is cut at the end of a piece has the pieces up to that one. -/
theorem piecesFrom_take {i stop : Nat} {acc t piece : List Char} {before behind}
    (h : piecesFrom i acc t = before ++ (piece, stop) :: behind) :
    piecesFrom i acc (t.take (stop - i)) = before ++ [(piece, stop)] := by
  have hle : i ≤ stop := by
    have hmem : (piece, stop) ∈ piecesFrom i acc t := by
      rw [h]
      simp
    exact (stop_of_mem_piecesFrom hmem).1
  induction t generalizing i acc before with
  | nil =>
    rw [piecesFrom_nil] at h
    cases before with
    | nil =>
      obtain ⟨heq, -⟩ := List.cons.inj h
      rw [List.take_nil, piecesFrom_nil, heq]
      rfl
    | cons b before => simp at h
  | cons c t ih =>
    rw [piecesFrom_cons] at h
    by_cases hc : c = '/'
    · rw [if_pos hc] at h
      cases before with
      | nil =>
        obtain ⟨heq, -⟩ := List.cons.inj h
        cases heq
        rw [Nat.sub_self, List.take_zero, piecesFrom_nil]
        rfl
      | cons b before =>
        obtain ⟨rfl, htail⟩ := List.cons.inj h
        replace htail : piecesFrom (i + 1) [] t = before ++ (piece, stop) :: behind := htail
        have hmem : (piece, stop) ∈ piecesFrom (i + 1) [] t := by
          rw [htail]
          simp
        have hlt := (stop_of_mem_piecesFrom hmem).1
        rw [show stop - i = stop - (i + 1) + 1 by omega, List.take_succ_cons,
          piecesFrom_cons, if_pos hc, ih htail hlt]
        rfl
    · rw [if_neg hc] at h
      have hmem : (piece, stop) ∈ piecesFrom (i + 1) (c :: acc) t := by
        rw [h]
        simp
      have hlt := (stop_of_mem_piecesFrom hmem).1
      rw [show stop - i = stop - (i + 1) + 1 by omega, List.take_succ_cons,
        piecesFrom_cons, if_neg hc, ih h hlt]

/-! ## Components -/

/-- The component of a path that is not one of its pieces: the root directory, or a dot that comes
first. -/
def lead (p : Path) : List Component :=
  if p.isAbsolute then [.root] else if (pieces p.chars).head? = some ['.'] then [.here] else []

theorem located_eq (p : Path) : p.located = p.lead.map (·, 1) ++
    (piecesFrom 0 [] p.chars).filterMap fun x => (component? x.1).map (·, x.2) := by
  have hlead : p.lead.map (·, 1) = if p.isAbsolute then [(Component.root, 1)]
      else if (piecesFrom 0 [] p.chars).head?.any (·.1 == ['.']) then [(Component.here, 1)]
      else [] := by
    unfold lead pieces
    rw [List.head?_map]
    split
    · rfl
    · cases (piecesFrom 0 [] p.chars).head? with
      | none => rfl
      | some x =>
        simp only [Option.any_some, beq_iff_eq, Option.map_some, Option.some.injEq]
        split
        · rfl
        · rfl
  rw [hlead]
  rfl

theorem components_eq (p : Path) :
    p.components = p.lead ++ (pieces p.chars).filterMap component? := by
  have hpieces : ((piecesFrom 0 [] p.chars).filterMap fun x => (component? x.1).map (·, x.2)).map
      (·.1) = (pieces p.chars).filterMap component? := by
    rw [List.map_filterMap, pieces, List.filterMap_map]
    refine List.filterMap_congr fun x _ => ?_
    rw [Option.map_map]
    exact Option.map_id'
  rw [components, located_eq, List.map_append, hpieces, List.map_map]
  congr 1
  exact List.map_id _

theorem component?_eq_none {t : List Char} (h : component? t = none) : t = [] ∨ t = ['.'] := by
  unfold component? at h
  split at h
  · exact .inl rfl
  · exact .inr rfl
  · cases h
  · cases h

theorem component?_eq_some {t : List Char} {c : Component} (h : component? t = some c) :
    c = .up ∨ ∃ n, c = .name n := by
  unfold component? at h
  split at h
  · cases h
  · cases h
  · cases h
    exact .inl rfl
  · cases h
    exact .inr ⟨_, rfl⟩

/-- A dot counts as a component only before all pieces. -/
theorem component?_ne_here (t : List Char) : component? t ≠ some .here := by
  intro h
  rcases component?_eq_some h with hc | ⟨n, hc⟩
  · cases hc
  · cases hc

theorem components_ne_nil {p : Path} (h : p.chars ≠ []) : p.components ≠ [] := by
  rw [components_eq]
  intro hnil
  obtain ⟨hlead, hpieces⟩ := List.append_eq_nil_iff.1 hnil
  have hfirst := List.filterMap_eq_nil_iff.1 hpieces _ (List.mem_of_head? (head?_pieces p.chars))
  unfold lead at hlead
  split at hlead
  · cases hlead
  · rename_i habsolute
    split at hlead
    · cases hlead
    · rename_i hdot
      rw [head?_pieces, Option.some.injEq] at hdot
      obtain ⟨c, cs, hchars⟩ := List.exists_cons_of_ne_nil h
      have hc : c ≠ '/' := fun hc => habsolute (by rw [isAbsolute, hchars, hc]; rfl)
      rw [hchars, List.takeWhile_cons_of_pos (by simpa using hc)] at hfirst hdot
      rcases component?_eq_none hfirst with heq | heq
      · cases heq
      · exact hdot heq

/-- What comes first in a path does not depend on what comes behind a slash. -/
theorem lead_append_slash (x y z : List Char) : lead ⟨x ++ '/' :: y⟩ = lead ⟨x ++ '/' :: z⟩ := by
  have habsolute : isAbsolute ⟨x ++ '/' :: y⟩ = isAbsolute ⟨x ++ '/' :: z⟩ := by
    cases x with
    | nil => rfl
    | cons c x => rfl
  unfold lead
  rw [habsolute, head?_pieces_append, head?_pieces_append]

theorem lead_eq_root_iff {p : Path} : p.lead = [.root] ↔ p.isAbsolute = true := by
  unfold lead
  split
  · rename_i habsolute
    exact iff_of_true rfl habsolute
  · rename_i habsolute
    split
    · simp [habsolute]
    · simp [habsolute]

theorem isAbsolute_of_lead {p : Path} (h : p.lead = []) : p.isAbsolute = false := by
  rw [← Bool.not_eq_true, ← lead_eq_root_iff, h]
  exact (List.cons_ne_nil _ _).symm

/-- The three ways to put a relative path behind another one. -/
theorem join_cases (p : Path) {q : Path} (hq : q.isAbsolute = false) :
    p.chars = [] ∧ p.join q = q ∨
    (∃ x, p.chars = x ++ ['/'] ∧ p.join q = ⟨x ++ '/' :: q.chars⟩) ∨
    p.chars ≠ [] ∧ p.join q = ⟨p.chars ++ '/' :: q.chars⟩ := by
  rw [join, hq, if_neg Bool.false_ne_true]
  by_cases hnil : p.chars = []
  · exact .inl ⟨hnil, by rw [if_pos (.inl hnil), hnil, List.nil_append]⟩
  · by_cases hslash : p.chars.getLast? = some '/'
    · obtain ⟨x, hx⟩ := List.getLast?_eq_some_iff.1 hslash
      refine .inr (.inl ⟨x, hx, ?_⟩)
      rw [if_pos (.inr hslash), hx, List.append_assoc]
      rfl
    · exact .inr (.inr ⟨hnil, if_neg (not_or.2 ⟨hnil, hslash⟩)⟩)

/-- Pieces that count are those of the one path and then those of the other. -/
theorem filterMap_pieces_join {α : Type} {f : List Char → Option α} (hf : f [] = none) (p : Path)
    {q : Path} (hq : q.isAbsolute = false) : (pieces (p.join q).chars).filterMap f =
      (pieces p.chars).filterMap f ++ (pieces q.chars).filterMap f := by
  have hempty : (pieces []).filterMap f = [] := List.filterMap_cons_none hf
  rcases join_cases p hq with ⟨hp, hjoin⟩ | ⟨x, hp, hjoin⟩ | ⟨-, hjoin⟩
  · rw [hjoin, hp, hempty, List.nil_append]
  · rw [hjoin, hp, pieces_append, pieces_append, List.filterMap_append, List.filterMap_append,
      hempty, List.append_nil]
  · rw [hjoin, pieces_append, List.filterMap_append]

theorem lead_join (p : Path) {q : Path} (hq : q.lead = []) : (p.join q).lead = p.lead := by
  rcases join_cases p (isAbsolute_of_lead hq) with ⟨hp, hjoin⟩ | ⟨x, hp, hjoin⟩ | ⟨hp, hjoin⟩
  · rw [hjoin, hq, lead, isAbsolute, hp]
    rfl
  · rw [hjoin, lead_append_slash x q.chars [], ← hp]
  · have habsolute : isAbsolute ⟨p.chars ++ '/' :: q.chars⟩ = p.isAbsolute := by
      rw [isAbsolute, isAbsolute, List.head?_append_of_ne_nil _ hp]
    rw [hjoin, lead, lead, habsolute, head?_pieces_append]

/-- A path that begins with one of its pieces is added component by component. -/
theorem components_join (p : Path) {q : Path} (hq : q.lead = []) :
    (p.join q).components = p.components ++ q.components := by
  rw [components_eq, components_eq p, components_eq q, lead_join p hq, hq, List.nil_append,
    filterMap_pieces_join rfl p (isAbsolute_of_lead hq), List.append_assoc]

/-! ## Names -/

theorem component?_of_isName {n : List Char} (h : IsName n) : component? n = some (.name n) := by
  unfold component?
  split
  · exact absurd rfl h.ne_nil
  · exact absurd rfl h.ne_dot
  · exact absurd rfl h.ne_dots
  · rfl

theorem lead_of_isName {n : List Char} (h : IsName n) : lead ⟨n⟩ = [] := by
  have habsolute : isAbsolute ⟨n⟩ = false := by
    by_contra hslash
    have : n.head? = some '/' := by simpa [isAbsolute] using hslash
    exact h.no_slash (List.mem_of_head? this)
  have hdot : (pieces n).head? ≠ some ['.'] := by
    rw [pieces_of_no_slash h.no_slash]
    exact fun heq => h.ne_dot (Option.some.inj heq)
  rw [lead, habsolute, if_neg Bool.false_ne_true, if_neg hdot]

theorem components_of_isName {n : List Char} (h : IsName n) : components ⟨n⟩ = [.name n] := by
  rw [components_eq, lead_of_isName h, pieces_of_no_slash h.no_slash, List.filterMap_cons,
    component?_of_isName h]
  rfl

/-- The path of an entry that the names lead to from a path. -/
def under (p : Path) (names : List (List Char)) : Path :=
  names.foldl (fun q n => q.join ⟨n⟩) p

theorem under_append (p : Path) (ns ms : List (List Char)) :
    p.under (ns ++ ms) = (p.under ns).under ms :=
  List.foldl_append ..

theorem components_under (p : Path) {names : List (List Char)} (h : ∀ n ∈ names, IsName n) :
    (p.under names).components = p.components ++ names.map .name := by
  induction names generalizing p with
  | nil => exact (List.append_nil _).symm
  | cons n names ih =>
    have hn := h n List.mem_cons_self
    have hjoin : (p.join ⟨n⟩).components = p.components ++ [.name n] := by
      rw [components_join p (lead_of_isName hn), components_of_isName hn]
    show ((p.join ⟨n⟩).under names).components = _
    rw [ih _ fun m hm => h m (List.mem_cons_of_mem n hm), hjoin, List.append_assoc]
    rfl

theorem lead_under (p : Path) {names : List (List Char)} (h : ∀ n ∈ names, IsName n) :
    (p.under names).lead = p.lead := by
  induction names generalizing p with
  | nil => rfl
  | cons n names ih =>
    show ((p.join ⟨n⟩).under names).lead = p.lead
    rw [ih _ fun m hm => h m (List.mem_cons_of_mem n hm),
      lead_join p (lead_of_isName (h n List.mem_cons_self))]

theorem map_name_injective : Function.Injective (List.map Component.name) :=
  List.map_injective_iff.2 fun _ _ h => Component.name.inj h

/-- Different names lead to different paths. -/
theorem under_injective {p : Path} {ns ms : List (List Char)} (hns : ∀ n ∈ ns, IsName n)
    (hms : ∀ n ∈ ms, IsName n) (h : (p.under ns).components = (p.under ms).components) :
    ns = ms := by
  rw [components_under p hns, components_under p hms, List.append_cancel_left_eq] at h
  exact map_name_injective h

/-! ## Tidy paths -/

/-- The path with the given components and no more slashes than it needs. -/
def ofComponents (cs : List Component) : Path :=
  cs.foldl (fun p c => p.join ⟨c.chars⟩) ⟨[]⟩

/-- A path is tidy when it is spelled as its components are: no two slashes meet, none comes last,
and no dot stands behind the first place. -/
def Tidy (p : Path) : Prop :=
  p = ofComponents p.components

instance (p : Path) : Decidable p.Tidy :=
  inferInstanceAs (Decidable (p = _))

theorem Tidy.eq_of_same {p q : Path} (hp : p.Tidy) (hq : q.Tidy)
    (h : p.components = q.components) : p = q := by
  rw [hp, hq, h]

theorem Tidy.under {p : Path} (hp : p.Tidy) {names : List (List Char)}
    (h : ∀ n ∈ names, IsName n) : (p.under names).Tidy := by
  unfold Tidy
  rw [components_under p h, ofComponents, List.foldl_append, List.foldl_map]
  have hbegins : p.components.foldl (fun p c => p.join ⟨c.chars⟩) ⟨[]⟩ = p := hp.symm
  rw [hbegins]
  rfl

example : (Path.ofString "src/main/java").Tidy ∧ (Path.ofString "/src").Tidy ∧
    ¬ (Path.ofString "src//main").Tidy ∧ ¬ (Path.ofString "src/").Tidy ∧
    ¬ (Path.ofString "src/./main").Tidy := by
  decide

/-! ## Parents -/

theorem lead_eq (p : Path) : p.lead = [] ∨ ∃ c, p.lead = [c] := by
  unfold lead
  split
  · exact .inr ⟨_, rfl⟩
  · split
    · exact .inr ⟨_, rfl⟩
    · exact .inl rfl

/-- The first character of a path that begins with a slash or a dot is a path of its own. -/
theorem components_take_one {p : Path} {c : Component} (h : p.lead = [c]) :
    components ⟨p.chars.take 1⟩ = [c] := by
  unfold lead at h
  split at h
  · rename_i habsolute
    obtain ⟨cs, hcs⟩ := List.head?_eq_some_iff.1 (beq_iff_eq.1 habsolute)
    rw [hcs]
    exact h
  · split at h
    · rename_i hdot
      rw [head?_pieces, Option.some.injEq] at hdot
      have hchars : p.chars = '.' :: p.chars.dropWhile (· != '/') := by
        nth_rewrite 1 [← List.takeWhile_append_dropWhile (p := (· != '/')) (l := p.chars)]
        rw [hdot]
        rfl
      rw [hchars]
      exact h
    · cases h

/-- A path that is cut where one of its pieces ends has the components up to that one. -/
theorem components_take_piece {p : Path} {c : Component} {stop : Nat} {before behind}
    (h : ((piecesFrom 0 [] p.chars).filterMap fun x => (component? x.1).map (·, x.2)) =
      before ++ (c, stop) :: behind) :
    components ⟨p.chars.take stop⟩ = p.lead ++ (before.map (·.1) ++ [c]) := by
  obtain ⟨early, late, hall, hearly, hlate⟩ := List.filterMap_eq_append_iff.1 h
  obtain ⟨skipped, ⟨piece, place⟩, late', rfl, hskipped, hpiece, -⟩ :=
    List.filterMap_eq_cons_iff.1 hlate
  obtain ⟨c', hc', heq⟩ := Option.map_eq_some_iff.1 hpiece
  obtain ⟨rfl, rfl⟩ : c' = c ∧ place = stop := Prod.mk.inj heq
  replace hc' : component? piece = some c' := hc'
  have hfrom : piecesFrom 0 [] p.chars = early ++ skipped ++ (piece, place) :: late' := by
    rw [hall, List.append_assoc]
  have htake : piecesFrom 0 [] (p.chars.take place) = early ++ skipped ++ [(piece, place)] :=
    piecesFrom_take hfrom
  have hplace : 0 < place := by
    have hmem : (piece, place) ∈ piecesFrom 0 [] p.chars := by
      rw [hfrom]
      simp
    have hlen := (stop_of_mem_piecesFrom hmem).2
    cases piece with
    | nil => cases hc'
    | cons d ds => simp only [List.length_cons, List.length_nil] at hlen; omega
  have hlead : lead ⟨p.chars.take place⟩ = p.lead := by
    have hhead : (pieces (p.chars.take place)).head? = (pieces p.chars).head? := by
      simp only [pieces, htake, hfrom, List.head?_map, List.head?_append, List.head?_cons]
    have habsolute : isAbsolute ⟨p.chars.take place⟩ = p.isAbsolute := by
      rw [isAbsolute, isAbsolute, List.head?_take, if_neg (by omega)]
    rw [lead, lead, habsolute, hhead]
  rw [components, located_eq, htake, hlead, List.filterMap_append, List.filterMap_append, hearly,
    List.filterMap_eq_nil_iff.2 hskipped]
  simp [hc', Function.comp_def]

/-- A path that is cut where a component ends has the components up to that one. -/
theorem components_take {p : Path} {c : Component} {stop : Nat} {before behind}
    (h : p.located = before ++ (c, stop) :: behind) :
    components ⟨p.chars.take stop⟩ = before.map (·.1) ++ [c] := by
  rw [located_eq] at h
  rcases lead_eq p with hlead | ⟨first, hlead⟩
  · rw [hlead, List.map_nil, List.nil_append] at h
    rw [components_take_piece h, hlead, List.nil_append]
  · rw [hlead, List.map_singleton, List.singleton_append] at h
    cases before with
    | nil =>
      obtain ⟨hfirst, -⟩ := List.cons.inj h
      obtain ⟨rfl, rfl⟩ : first = c ∧ 1 = stop := Prod.mk.inj hfirst
      exact components_take_one hlead
    | cons b before =>
      obtain ⟨rfl, htail⟩ := List.cons.inj h
      rw [components_take_piece htail, hlead]
      rfl

/-- A parent has all components but the last. -/
theorem components_parent? {p q : Path} (h : p.parent? = some q) :
    q.components = p.components.dropLast := by
  have hsplit {before : List (Component × Nat)} (hlocated : p.located.reverse = before) :
      p.located = before.reverse := by
    rw [← hlocated, List.reverse_reverse]
  unfold parent? at h
  split at h
  · cases h
  · cases h
  · rename_i hlocated
    cases h
    rw [components, components, hsplit hlocated]
    rfl
  · rename_i hlocated
    cases h
    replace hlocated := hsplit hlocated
    rw [List.reverse_cons, List.reverse_cons, List.append_assoc] at hlocated
    rw [components_take hlocated, components, hlocated]
    simp

theorem dropLast_append_name {p : Path} {n : List Char} (h : p.fileName? = some n) :
    p.components.dropLast ++ [.name n] = p.components := by
  refine List.dropLast_append_getLast? _ ?_
  unfold fileName? at h
  split at h
  · rename_i m hlast
    rw [← Option.some.inj h]
    exact hlast
  · cases h

theorem exists_parent? {p : Path} {n : List Char} (h : p.fileName? = some n) :
    ∃ q, p.parent? = some q := by
  unfold fileName? components at h
  unfold parent?
  rw [← List.reverse_reverse p.located] at h
  cases hlocated : p.located.reverse with
  | nil => rw [hlocated] at h; cases h
  | cons last rest =>
    obtain ⟨c, stop⟩ := last
    rw [hlocated, List.reverse_cons, List.map_append, List.map_singleton, List.getLast?_concat] at h
    cases c with
    | name m =>
      cases rest with
      | nil => exact ⟨_, rfl⟩
      | cons x rest => exact ⟨_, rfl⟩
    | root => cases h
    | here => cases h
    | up => cases h

/-! ## The way up -/

/-- The root directory comes before all other components, and only once. -/
theorem components_cases (p : Path) :
    p.isAbsolute = true ∧ (∃ cs, p.components = .root :: cs ∧ .root ∉ cs) ∨
      p.isAbsolute = false ∧ .root ∉ p.components := by
  have hpieces : .root ∉ (pieces p.chars).filterMap component? := by
    intro hmem
    obtain ⟨piece, -, hpiece⟩ := List.mem_filterMap.1 hmem
    rcases component?_eq_some hpiece with hc | ⟨n, hc⟩
    · cases hc
    · cases hc
  rw [components_eq]
  cases habsolute : p.isAbsolute with
  | true =>
    rw [lead_eq_root_iff.2 habsolute]
    exact .inl ⟨rfl, _, rfl, hpieces⟩
  | false =>
    refine .inr ⟨rfl, fun hmem => ?_⟩
    have hroot : .root ∈ p.lead := (List.mem_append.1 hmem).resolve_right hpieces
    rcases lead_eq p with hlead | ⟨c, hlead⟩
    · rw [hlead] at hroot
      cases hroot
    · rw [hlead, List.mem_singleton] at hroot
      rw [← hroot, lead_eq_root_iff, habsolute] at hlead
      cases hlead

/-- Where the way up from a path ends: at the root directory, or at the empty path. -/
def top (p : Path) : List Component :=
  if p.isAbsolute then [.root] else []

theorem components_of_parent?_eq_none {p : Path} (h : p.parent? = none) :
    p.components = p.top := by
  unfold parent? at h
  split at h
  · rename_i hlocated
    have hnil : p.components = [] := by
      rw [components, List.reverse_eq_iff.1 hlocated]
      rfl
    rcases components_cases p with ⟨-, cs, hcs, -⟩ | ⟨hrelative, -⟩
    · rw [hnil] at hcs
      cases hcs
    · rw [hnil, top, hrelative]
      rfl
  · rename_i stop before hlocated
    have hlast : p.components = before.reverse.map (·.1) ++ [.root] := by
      rw [components, List.reverse_eq_iff.1 hlocated, List.reverse_cons, List.map_append]
      rfl
    rcases components_cases p with ⟨habsolute, cs, hcs, hroot⟩ | ⟨-, hroot⟩
    · -- the root directory is the first component as well, and so the only one
      rw [hcs, top, if_pos habsolute]
      rw [hcs] at hlast
      rcases List.cons_eq_append_iff.1 hlast with ⟨-, hcs⟩ | ⟨tail, -, rfl⟩
      · exact hcs.symm
      · exact absurd (List.mem_append_right tail List.mem_cons_self) hroot
    · rw [hlast] at hroot
      exact absurd (List.mem_append_right _ List.mem_cons_self) hroot
  · cases h
  · cases h

theorem parent?_of_components_eq_root {p : Path} (h : p.components = [.root]) :
    p.parent? = none := by
  obtain ⟨⟨c, stop⟩, hlocated, rfl⟩ := List.map_eq_singleton_iff.1 h
  rw [parent?, hlocated]
  rfl

theorem top_parent? {p q : Path} (h : p.parent? = some q) : q.top = p.top := by
  have hcomponents := components_parent? h
  rcases components_cases p with ⟨hp, cs, hcs, -⟩ | ⟨hp, hroot⟩
  · cases cs with
    | nil =>
      rw [parent?_of_components_eq_root hcs] at h
      cases h
    | cons c cs =>
      rw [hcs, List.dropLast_cons_cons] at hcomponents
      rcases components_cases q with ⟨hq, -⟩ | ⟨-, hroot⟩
      · rw [top, top, hp, hq]
      · rw [hcomponents] at hroot
        exact absurd List.mem_cons_self hroot
  · rcases components_cases q with ⟨-, cs, hcs, -⟩ | ⟨hq, -⟩
    · rw [hcs] at hcomponents
      exact absurd (List.dropLast_subset _ (hcomponents ▸ List.mem_cons_self)) hroot
    · rw [top, top, hp, hq]

/-- The directories from `start` upward, nearest first: each is the parent of the one before it, and
there are `count` of them or the last is where the way up ends. -/
structure Upward (start : Path) (count : Nat) (dirs : List Path) : Prop where
  first : dirs.head? = some start
  parents : dirs.IsChain fun p q => p.parent? = some q
  length_le : dirs.length ≤ count
  ends : dirs.length < count → ∃ last, dirs.getLast? = some last ∧ last.components = start.top

theorem upward_singleton (start : Path) (count : Nat) (h : 0 < count → start.parent? = none) :
    start.Upward (count + 1) [start] where
  first := rfl
  parents := .singleton start
  length_le := Nat.le_add_left 1 count
  ends hlt := ⟨start, rfl, components_of_parent?_eq_none (h (Nat.lt_of_succ_lt_succ hlt))⟩

theorem Upward.cons {start parent : Path} {count : Nat} {dirs : List Path}
    (h : parent.Upward count dirs) (hparent : start.parent? = some parent) :
    start.Upward (count + 1) (start :: dirs) := by
  obtain ⟨rest, rfl⟩ := List.head?_eq_some_iff.1 h.first
  refine ⟨rfl, .cons_cons hparent h.parents, Nat.succ_le_succ h.length_le, fun hlt => ?_⟩
  obtain ⟨last, hlast, htop⟩ := h.ends (Nat.lt_of_succ_lt_succ hlt)
  exact ⟨last, hlast, htop.trans (top_parent? hparent)⟩

theorem upward_ancestors (start : Path) (count : Nat) :
    start.Upward (count + 1) (start.ancestors (count + 1)) := by
  induction count generalizing start with
  | zero =>
    have hone : start.ancestors 1 = [start] := by
      rw [ancestors]
      cases start.parent? with
      | none => rfl
      | some q => rfl
    rw [hone]
    exact upward_singleton start 0 fun h => absurd h (Nat.lt_irrefl 0)
  | succ count ih =>
    rw [ancestors]
    cases hparent : start.parent? with
    | none => exact upward_singleton start (count + 1) fun _ => hparent
    | some q => exact (ih q).cons hparent

end Path

/-! ## The order of paths -/

/-- What a component is compared by: its kind, and then the characters of its name. -/
def Component.key : Component → List Nat
  | .name n => 3 :: n.map Char.toNat
  | c => [c.rank]

theorem compareChars_eq (a b : List Char) :
    compareChars a b = List.compareLex compare (a.map Char.toNat) (b.map Char.toNat) := by
  induction a generalizing b with
  | nil =>
    cases b with
    | nil => rfl
    | cons d b => rfl
  | cons c a ih =>
    cases b with
    | nil => rfl
    | cons d b => rw [compareChars, ih, List.map_cons, List.map_cons, List.compareLex_cons_cons]

theorem Component.compare_eq (a b : Component) :
    a.compare b = List.compareLex Ord.compare a.key b.key := by
  cases a with
  | name n =>
    cases b with
    | name m =>
      rw [key, key, List.compareLex_cons_cons, ← compareChars_eq]
      rfl
    | root => rfl
    | here => rfl
    | up => rfl
  | root => cases b <;> rfl
  | here => cases b <;> rfl
  | up => cases b <;> rfl

theorem Component.key_injective : Function.Injective Component.key := by
  intro a b h
  cases a with
  | name n =>
    cases b with
    | name m =>
      have hchars := List.map_injective_iff.2 (fun _ _ => Char.toNat_inj.1) (List.cons.inj h).2
      rw [hchars]
    | root => cases h
    | here => cases h
    | up => cases h
  | root => cases b <;> simp_all [key, rank]
  | here => cases b <;> simp_all [key, rank]
  | up => cases b <;> simp_all [key, rank]

namespace Path

/-- What a path is compared by. -/
def keys (p : Path) : List (List Nat) :=
  p.components.map Component.key

theorem compareComponents_eq (as bs : List Component) : compareComponents as bs =
    List.compareLex (List.compareLex Ord.compare) (as.map Component.key) (bs.map Component.key) := by
  induction as generalizing bs with
  | nil =>
    cases bs with
    | nil => rfl
    | cons b bs => rfl
  | cons a as ih =>
    cases bs with
    | nil => rfl
    | cons b bs =>
      rw [compareComponents, ih, Component.compare_eq, List.map_cons, List.map_cons,
        List.compareLex_cons_cons]

theorem compare_eq (p q : Path) :
    p.compare q = List.compareLex (List.compareLex Ord.compare) p.keys q.keys :=
  compareComponents_eq ..

instance : Std.TransCmp Path.compare where
  eq_swap := by
    intro p q
    rw [compare_eq, compare_eq]
    exact Std.OrientedCmp.eq_swap
  isLE_trans := by
    intro p q r
    rw [compare_eq, compare_eq, compare_eq]
    exact Std.TransCmp.isLE_trans

/-- Neither of two paths comes before the other exactly if they have the same components. -/
theorem compare_eq_eq {p q : Path} : p.compare q = .eq ↔ p.components = q.components := by
  rw [compare_eq]
  constructor
  · intro h
    exact List.map_injective_iff.2 Component.key_injective (Std.LawfulEqCmp.eq_of_compare h)
  · intro h
    rw [keys, keys, h]
    exact Std.ReflCmp.compare_self

/-- The one path comes strictly before the other. -/
def Before (p q : Path) : Prop :=
  p.compare q = .lt

instance : Std.Irrefl Before where
  irrefl p h := by
    rw [Before, compare_eq_eq.2 rfl] at h
    cases h

instance : Std.Antisymm Before where
  antisymm p q h h' := by
    have hgt : p.compare q = .gt := Std.OrientedCmp.gt_iff_lt.2 h'
    rw [Before, hgt] at h
    cases h

/-! ## Paths that are the same -/

theorem same_iff {p q : Path} : p.same q = true ↔ p.components = q.components := by
  unfold same
  rw [beq_iff_eq]

theorem same_refl (p : Path) : p.same p = true :=
  same_iff.2 rfl

theorem same_comm (p q : Path) : p.same q = q.same p := by
  rw [Bool.eq_iff_iff, same_iff, same_iff, eq_comm]

theorem same_congr {p q : Path} (h : p.same q = true) (r : Path) : p.same r = q.same r := by
  unfold same
  rw [same_iff.1 h]

end Path

end LockMigration
