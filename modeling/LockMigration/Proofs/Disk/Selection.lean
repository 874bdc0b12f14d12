/-
The files that a configuration selects. They are those that lie under one of its roots, have a name
that ends with the mask, match no pattern, and lie in no excluded package, where a package is a list
of names and contains what begins with all of them (`Wanted`); and they come in the strict order of
paths (`sourceFiles_exact`).

A list in strict order is determined by its members, so how the roots are listed does not matter. It
is enough that each root of either list that is there lies in a root of the other (`Covers`).
-/
import LockMigration.Proofs.Disk.Walk
import Mathlib

namespace LockMigration

namespace Selection

/-! ## Packages -/

/-- What stands between the dots of a package, from the outermost name on. -/
def packageNames (package : List Char) : List (List Char) :=
  (package.splitOn '.').filter (!·.isEmpty)

/-- The text before the first dot grows by a character that is none. -/
theorem splitOn_dot_cons {c : Char} (hc : c ≠ '.') (package : List Char) :
    ∃ first rest, package.splitOn '.' = first :: rest ∧
      (c :: package).splitOn '.' = (c :: first) :: rest := by
  obtain ⟨first, rest, hsplit⟩ :=
    List.exists_cons_of_ne_nil (List.splitOnP_ne_nil (· == '.') package)
  refine ⟨first, rest, hsplit, ?_⟩
  rw [List.splitOn, List.splitOnP_cons_eq_if_modifyHead, if_neg (mt beq_iff_eq.1 hc), hsplit]
  rfl

theorem splitOn_dot_dot (package : List Char) :
    ('.' :: package).splitOn '.' = [] :: package.splitOn '.' := by
  rw [List.splitOn, List.splitOnP_cons_eq_if_modifyHead]
  rfl

theorem segments_eq (package : List Char) : segments package = packageNames package := by
  unfold segments packageNames
  congr 1
  induction package with
  | nil => rfl
  | cons c package ih =>
    rw [List.foldr_cons, ih]
    by_cases hc : c = '.'
    · rw [if_pos hc, hc, splitOn_dot_dot]
    · obtain ⟨first, rest, hsplit, hcons⟩ := splitOn_dot_cons hc package
      rw [if_neg hc, hsplit, hcons]

/-- The names of a package are made of its characters, without the dots. -/
theorem mem_of_mem_splitOn {package s : List Char} (hs : s ∈ package.splitOn '.') :
    ∀ c ∈ s, c ∈ package ∧ c ≠ '.' := by
  induction package generalizing s with
  | nil =>
    obtain rfl : s = [] := List.mem_singleton.1 hs
    intro c hc
    cases hc
  | cons x package ih =>
    have hpart (hs : s ∈ package.splitOn '.') : ∀ c ∈ s, c ∈ x :: package ∧ c ≠ '.' :=
      fun c hc => ⟨List.mem_cons_of_mem x (ih hs c hc).1, (ih hs c hc).2⟩
    by_cases hx : x = '.'
    · rw [hx, splitOn_dot_dot] at hs
      rcases List.mem_cons.1 hs with rfl | hs
      · intro c hc
        cases hc
      · exact hpart hs
    · obtain ⟨first, rest, hsplit, hcons⟩ := splitOn_dot_cons hx package
      rw [hcons] at hs
      rcases List.mem_cons.1 hs with rfl | hs
      · intro c hc
        rcases List.mem_cons.1 hc with rfl | hc
        · exact ⟨List.mem_cons_self, hx⟩
        · obtain ⟨hmem, hne⟩ := ih (by rw [hsplit]; exact List.mem_cons_self) c hc
          exact ⟨List.mem_cons_of_mem x hmem, hne⟩
      · exact hpart (by rw [hsplit]; exact List.mem_cons_of_mem first hs)

theorem isName_of_mem_packageNames {package s : List Char} (h : '/' ∉ package)
    (hs : s ∈ packageNames package) : IsName s := by
  obtain ⟨hs, hne⟩ := List.mem_filter.1 hs
  have hchars := mem_of_mem_splitOn hs
  refine ⟨by simpa using hne, fun hslash => h (hchars _ hslash).1, ?_, ?_⟩
  · rintro rfl
    exact (hchars '.' (by simp)).2 rfl
  · rintro rfl
    exact (hchars '.' (by simp)).2 rfl

/-- The directory of a package has the components of the source path, and then its names. -/
theorem components_join_packagePath (source : Path) {package : List Char} (h : '/' ∉ package) :
    (source.join (packagePath package)).components =
      source.components ++ (packageNames package).map .name := by
  have hpath : packagePath package = Path.under ⟨[]⟩ (packageNames package) := by
    rw [← segments_eq]
    rfl
  have hnames : ∀ s ∈ packageNames package, IsName s := fun s => isName_of_mem_packageNames h
  have hlead : (packagePath package).lead = [] := by
    rw [hpath]
    exact Path.lead_under ⟨[]⟩ hnames
  rw [Path.components_join source hlead, hpath, Path.components_under ⟨[]⟩ hnames]
  rfl

/-! ## Filters -/

theorem keeps_iff {s : Selection} {p : Path} : s.keeps p = true ↔
    (∃ name, p.fileName? = some name ∧ s.mask <:+ name) ∧
    (∀ g ∈ s.patterns, Glob.isMatch g p.chars = false) ∧
    ∀ dir ∈ s.excluded, ¬ dir.components <+: p.components.dropLast := by
  have hmask : p.fileName?.any (fun name => s.mask.isSuffixOf name) = true ↔
      ∃ name, p.fileName? = some name ∧ s.mask <:+ name := by
    simp only [Option.any_eq_true, List.isSuffixOf_iff_suffix]
  unfold keeps
  rw [Bool.and_eq_true, Bool.and_eq_true, and_assoc, hmask]
  refine and_congr_right fun ⟨name, hname, _⟩ => and_congr (by simp) ?_
  obtain ⟨dir, hdir⟩ := Path.exists_parent? hname
  simp only [hdir, Option.any_some, Path.startsWith, Path.components_parent? hdir,
    Bool.not_eq_true', List.any_eq_false, List.isPrefixOf_iff_prefix]

end Selection

open Selection (packageNames)

/-- What a configuration says about the path of a file that is to be migrated. The patterns are
those that its globs spell. -/
structure Config.Wanted (c : Config) (patterns : List Glob.Pattern) (p : Path) : Prop where
  masked : ∃ name, p.fileName? = some name ∧ c.fileMask.toList <:+ name
  unmatched : ∀ g ∈ patterns, Glob.isMatch g p.chars = false
  /-- What stands between the source path and the name of the file does not begin with a package. -/
  outside : ∀ source ∈ c.sourcePath, ∀ dirs name,
    p.components = source.components ++ dirs ++ [.name name] →
    ∀ package ∈ c.excludePackages, ¬ (packageNames package.toList).map .name <+: dirs

/-- The paths to walk do not tell which of their files are wanted. -/
theorem Config.wanted_startingPaths {c : Config} {patterns : List Glob.Pattern} {p : Path}
    (paths : List Path) :
    { c with startingPaths := paths }.Wanted patterns p ↔ c.Wanted patterns p :=
  ⟨fun ⟨masked, unmatched, outside⟩ => ⟨masked, unmatched, outside⟩,
    fun ⟨masked, unmatched, outside⟩ => ⟨masked, unmatched, outside⟩⟩

namespace Selection

theorem ofConfig_eq_ok {c : Config} {patterns : List Glob.Pattern}
    (h : Config.patterns c.excludePaths = .ok patterns) : ofConfig c = .ok
      { roots := c.roots
        mask := c.fileMask.toList
        patterns := patterns
        excluded := c.sourcePath.toList.flatMap fun source =>
          c.excludePackages.map fun e => source.join (packagePath e.toList) } := by
  unfold ofConfig excludePaths
  rw [h]
  cases c.sourcePath with
  | none => rfl
  | some source =>
    rw [Option.toList_some, List.flatMap_singleton]
    rfl

theorem exists_ofConfig {c : Config} {patterns : List Glob.Pattern}
    (hpatterns : Config.patterns c.excludePaths = .ok patterns)
    (hpackages : ∀ e ∈ c.excludePackages, '/' ∉ e.toList) :
    ∃ s, ofConfig c = .ok s ∧ s.roots = c.roots ∧
      ∀ p, s.keeps p = true ↔ c.Wanted patterns p := by
  refine ⟨_, ofConfig_eq_ok hpatterns, rfl, fun p => ?_⟩
  rw [keeps_iff]
  constructor
  · rintro ⟨hmask, hmatch, hdirs⟩
    refine ⟨hmask, hmatch, ?_⟩
    intro source hsource dirs name hp package hpackage hbegins
    refine hdirs (source.join (packagePath package.toList)) ?_ ?_
    · exact List.mem_flatMap.2 ⟨source, Option.mem_toList.2 hsource,
        List.mem_map.2 ⟨package, hpackage, rfl⟩⟩
    · rw [components_join_packagePath source (hpackages package hpackage), hp,
        List.dropLast_concat]
      exact (List.prefix_append_right_inj _).2 hbegins
  · rintro ⟨⟨name, hname, hmask⟩, hmatch, houtside⟩
    refine ⟨⟨name, hname, hmask⟩, hmatch, ?_⟩
    intro dir hdir hbegins
    obtain ⟨source, hsource, hdir⟩ := List.mem_flatMap.1 hdir
    obtain ⟨package, hpackage, rfl⟩ := List.mem_map.1 hdir
    rw [components_join_packagePath source (hpackages package hpackage)] at hbegins
    obtain ⟨rest, hrest⟩ := hbegins
    have hp : p.components =
        source.components ++ ((packageNames package.toList).map Component.name ++ rest) ++
          [Component.name name] := by
      rw [← List.append_assoc, hrest, Path.dropLast_append_name hname]
    exact houtside source (Option.mem_toList.1 hsource) _ name hp package hpackage
      (List.prefix_append _ _)

/-! ## Order -/

theorem dropRepeats_sublist (ps : List Path) : (dropRepeats ps).Sublist ps := by
  fun_induction dropRepeats ps with
  | case1 p q rest _ ih => exact ih.trans ((List.sublist_cons_self q rest).cons_cons p)
  | case2 p q rest _ ih => exact ih.cons_cons p
  | case3 ps => exact List.Sublist.refl ps

/-- In a list that is in order the same paths are neighbours, so all repeats are dropped. -/
theorem pairwise_dropRepeats {ps : List Path}
    (h : ps.Pairwise fun p q => (p.compare q).isLE = true) :
    (dropRepeats ps).Pairwise Path.Before := by
  fun_induction dropRepeats ps with
  | case1 p q rest _ ih => exact ih (h.sublist ((List.sublist_cons_self q rest).cons_cons p))
  | case2 p q rest hsame ih =>
    obtain ⟨hp, hrest⟩ := List.pairwise_cons.1 h
    have hlt : p.compare q = .lt := by
      rcases Ordering.isLE_iff_eq_lt_or_eq_eq.1 (hp q List.mem_cons_self) with hlt | heq
      · exact hlt
      · exact absurd (Path.same_iff.2 (Path.compare_eq_eq.1 heq)) hsame
    refine List.pairwise_cons.2 ⟨fun x hx => ?_, ih hrest⟩
    rcases List.mem_cons.1 ((dropRepeats_sublist (q :: rest)).subset hx) with rfl | hx
    · exact hlt
    · exact Std.TransCmp.lt_of_lt_of_isLE hlt ((List.pairwise_cons.1 hrest).1 x hx)
  | case3 ps hshort =>
    cases ps with
    | nil => exact .nil
    | cons p ps =>
      cases ps with
      | nil => exact List.pairwise_singleton _ p
      | cons q ps => exact absurd rfl (hshort p q ps)

/-- No path is lost, where no path is spelled in two ways. -/
theorem mem_dropRepeats {ps : List Path}
    (h : ∀ p ∈ ps, ∀ q ∈ ps, p.components = q.components → p = q) {p : Path} (hp : p ∈ ps) :
    p ∈ dropRepeats ps := by
  fun_induction dropRepeats ps with
  | case1 q r rest hsame ih =>
    have hsub : q :: rest ⊆ q :: r :: rest := List.cons_subset_cons q (List.subset_cons_self r rest)
    refine ih (fun x hx y hy => h x (hsub hx) y (hsub hy)) ?_
    have heq : q = r := h q (by simp) r (by simp) (Path.same_iff.1 hsame)
    rcases List.mem_cons.1 hp with rfl | hp
    · exact List.mem_cons_self
    · rwa [heq]
  | case2 q r rest _ ih =>
    rcases List.mem_cons.1 hp with rfl | hp
    · exact List.mem_cons_self
    · have hsub := List.subset_cons_self q (r :: rest)
      exact List.mem_cons_of_mem q (ih (fun x hx y hy => h x (hsub hx) y (hsub hy)) hp)
  | case3 ps => exact hp

theorem pairwise_arrange (ps : List Path) : (arrange ps).Pairwise Path.Before := by
  have hle (p q : Path) : (p.compare q != .gt) = (p.compare q).isLE := by
    cases p.compare q with
    | lt => rfl
    | eq => rfl
    | gt => rfl
  unfold arrange
  simp only [hle]
  refine pairwise_dropRepeats (List.pairwise_mergeSort ?_ ?_ ps)
  · intro p q r
    exact Std.TransCmp.isLE_trans
  · intro p q
    cases hcompare : p.compare q with
    | lt => rfl
    | eq => rfl
    | gt => rw [Std.OrientedCmp.gt_iff_lt.1 hcompare]; rfl

theorem mem_arrange {ps : List Path}
    (h : ∀ p ∈ ps, ∀ q ∈ ps, p.components = q.components → p = q) {p : Path} :
    p ∈ arrange ps ↔ p ∈ ps := by
  unfold arrange
  constructor
  · intro hp
    exact List.mem_mergeSort.1 ((dropRepeats_sublist _).subset hp)
  · intro hp
    refine mem_dropRepeats ?_ (List.mem_mergeSort.2 hp)
    intro x hx y hy
    exact h x (List.mem_mergeSort.1 hx) y (List.mem_mergeSort.1 hy)

end Selection

namespace Disk

variable {d : Disk} {c : Config} {patterns : List Glob.Pattern}

/-! ## Roots that cover each other -/

/-- Each of the other roots that is there lies in one of the roots. -/
def Covers (d : Disk) (roots others : List Path) : Prop :=
  ∀ s ∈ others, d.isThere s = true →
    ∃ r ∈ roots, d.isThere r = true ∧ ∃ names, (∀ n ∈ names, IsName n) ∧ s = r.under names

theorem Covers.of_subset {rs ss : List Path} (h : ∀ s ∈ ss, d.isThere s = true → s ∈ rs) :
    d.Covers rs ss :=
  fun s hs hthere => ⟨s, h s hs hthere, hthere, [], fun n hn => (by cases hn), rfl⟩

theorem Covers.trans {rs ss ts : List Path} (hrs : d.Covers rs ss) (hss : d.Covers ss ts) :
    d.Covers rs ts := by
  intro t ht hthere
  obtain ⟨s, hs, hs', ms, hms, rfl⟩ := hss t ht hthere
  obtain ⟨r, hr, hr', ns, hns, rfl⟩ := hrs s hs hs'
  refine ⟨r, hr, hr', ns ++ ms, fun n hn => ?_, (Path.under_append r ns ms).symm⟩
  rcases List.mem_append.1 hn with hn | hn
  · exact hns n hn
  · exact hms n hn

/-- The lists name the same roots in different ways. -/
inductive Regrouped (d : Disk) : List Path → List Path → Prop where
  | permuted {rs ss : List Path} (perm : rs.Perm ss) : Regrouped d rs ss
  | repeated {rs : List Path} {r : Path} (mem : r ∈ rs) : Regrouped d rs (r :: rs)
  /-- A path inside one of the roots is a root as well. -/
  | nested {rs : List Path} {r : Path} {names : List (List Char)} (mem : r ∈ rs)
      (there : d.isThere r = true) (isName : ∀ n ∈ names, IsName n) :
      Regrouped d rs (r.under names :: rs)
  | missing {rs : List Path} {r : Path} (absent : d.isThere r = false) : Regrouped d rs (r :: rs)
  | symm {rs ss : List Path} (h : Regrouped d rs ss) : Regrouped d ss rs
  | trans {rs ss ts : List Path} (h : Regrouped d rs ss) (h' : Regrouped d ss ts) :
      Regrouped d rs ts

theorem Regrouped.covers {rs ss : List Path} (h : Regrouped d rs ss) :
    d.Covers rs ss ∧ d.Covers ss rs := by
  have hmore (r : Path) (rs : List Path) : d.Covers (r :: rs) rs :=
    .of_subset fun s hs _ => List.mem_cons_of_mem r hs
  induction h with
  | permuted perm =>
    exact ⟨.of_subset fun s hs _ => perm.mem_iff.2 hs, .of_subset fun s hs _ => perm.mem_iff.1 hs⟩
  | @repeated rs r mem =>
    refine ⟨.of_subset fun s hs _ => ?_, hmore r rs⟩
    rcases List.mem_cons.1 hs with rfl | hs
    · exact mem
    · exact hs
  | @nested rs r names mem there isName =>
    refine ⟨fun s hs hthere => ?_, hmore _ rs⟩
    rcases List.mem_cons.1 hs with rfl | hs
    · exact ⟨r, mem, there, names, isName, rfl⟩
    · exact Covers.of_subset (fun s hs _ => hs) s hs hthere
  | @missing rs r absent =>
    refine ⟨.of_subset fun s hs hthere => ?_, hmore r rs⟩
    rcases List.mem_cons.1 hs with rfl | hs
    · rw [absent] at hthere
      cases hthere
    · exact hs
  | symm h ih => exact ih.symm
  | trans h h' ih ih' => exact ⟨ih.1.trans ih'.1, ih'.2.trans ih.2⟩

/-- The roots that are there are spelled as their components are, and can be walked. -/
def Ready (d : Disk) (roots : List Path) : Prop :=
  ∀ r ∈ roots, d.isThere r = true → r.Tidy ∧ d.Passable r

/-- The path is that of a file under one of the roots. -/
def Listed (d : Disk) (roots : List Path) (p : Path) : Prop :=
  ∃ r ∈ roots, d.FileUnder r p

theorem isThere_of_fileUnder {r p : Path} (h : d.FileUnder r p) : d.isThere r = true := by
  obtain ⟨loc, names, hloc, -, -⟩ := h
  rw [isThere, hloc]
  rfl

theorem Ready.of_covers (hd : d.WellFormed) {rs ss : List Path} (h : d.Ready rs)
    (hcovers : d.Covers rs ss) : d.Ready ss := by
  intro s hs hthere
  obtain ⟨r, hr, hr', names, hnames, rfl⟩ := hcovers s hs hthere
  obtain ⟨htidy, hpassable⟩ := h r hr hr'
  exact ⟨htidy.under hnames, hpassable.under hd hnames hr' hthere⟩

theorem Listed.of_covers {rs ss : List Path} (hcovers : d.Covers rs ss) {p : Path}
    (h : d.Listed ss p) : d.Listed rs p := by
  obtain ⟨s, hs, hunder⟩ := h
  obtain ⟨r, hr, hr', names, hnames, rfl⟩ := hcovers s hs (isThere_of_fileUnder hunder)
  exact ⟨r, hr, hunder.of_under hnames hr'⟩

theorem Ready.tidy {roots : List Path} (h : d.Ready roots) {p : Path} (hp : d.Listed roots p) :
    p.Tidy := by
  obtain ⟨r, hr, hunder⟩ := hp
  have htidy := (h r hr (isThere_of_fileUnder hunder)).1
  obtain ⟨loc, names, -, hbelow, rfl⟩ := hunder
  exact htidy.under hbelow.isName

/-! ## Selected files -/

/-- The files under the roots that a selection keeps, in order. -/
theorem exists_select (hd : d.WellFormed) {s : Selection}
    (hroots : ∀ r ∈ s.roots, d.isThere r = true → d.Passable r)
    (hspelling : ∀ p q, d.Listed s.roots p → d.Listed s.roots q →
      p.components = q.components → p = q) :
    ∃ files, d.select s = .ok files ∧ files.Pairwise Path.Before ∧
      ∀ p, p ∈ files ↔ d.Listed s.roots p ∧ s.keeps p = true := by
  have hpassable : ∀ r ∈ s.roots, ∃ ps, d.filesBelow r = .ok ps := by
    intro r hr
    by_cases hthere : d.isThere r = true
    · exact (hroots r hr hthere).2
    · exact ⟨[], by rw [filesBelow, if_pos (by simp [hthere])]⟩
  obtain ⟨found, hfound⟩ := exists_mapM_eq_ok hpassable
  have hmem (p : Path) : p ∈ found.flatten ↔ d.Listed s.roots p := by
    rw [List.mem_flatten]
    constructor
    · rintro ⟨ps, hps, hp⟩
      obtain ⟨r, hr, hbelow⟩ := exists_of_mem_mapM hfound hps
      exact ⟨r, hr, (mem_filesBelow hd (fun hthere => (hroots r hr hthere).1) hbelow p).1 hp⟩
    · rintro ⟨r, hr, hunder⟩
      obtain ⟨ps, hps, hbelow⟩ := ok_of_mem_mapM hfound hr
      exact ⟨ps, hps, (mem_filesBelow hd (fun hthere => (hroots r hr hthere).1) hbelow p).2 hunder⟩
  refine ⟨Selection.arrange (found.flatten.filter s.keeps), ?_, Selection.pairwise_arrange _, ?_⟩
  · unfold select
    rw [hfound]
    rfl
  · intro p
    rw [Selection.mem_arrange, List.mem_filter, hmem]
    intro x hx y hy
    exact hspelling x y ((hmem x).1 (List.mem_filter.1 hx).1) ((hmem y).1 (List.mem_filter.1 hy).1)

theorem exists_sourceFiles (hd : d.WellFormed)
    (hpatterns : Config.patterns c.excludePaths = .ok patterns)
    (hpackages : ∀ e ∈ c.excludePackages, '/' ∉ e.toList)
    (hroots : ∀ r ∈ c.roots, d.isThere r = true → d.Passable r)
    (hspelling : ∀ p q, d.Listed c.roots p → d.Listed c.roots q →
      p.components = q.components → p = q) :
    ∃ files, d.sourceFiles c = .ok files ∧ files.Pairwise Path.Before ∧
      ∀ p, p ∈ files ↔ d.Listed c.roots p ∧ c.Wanted patterns p := by
  obtain ⟨s, hs, heq, hkeeps⟩ := Selection.exists_ofConfig hpatterns hpackages
  rw [← heq] at hroots hspelling ⊢
  obtain ⟨files, hfiles, hsorted, hmem⟩ := exists_select hd hroots hspelling
  refine ⟨files, ?_, hsorted, fun p => ?_⟩
  · unfold sourceFiles
    rw [hs]
    exact hfiles
  · rw [hmem, hkeeps]

theorem Ready.exists_sourceFiles (hd : d.WellFormed)
    (hpatterns : Config.patterns c.excludePaths = .ok patterns)
    (hpackages : ∀ e ∈ c.excludePackages, '/' ∉ e.toList) (h : d.Ready c.roots) :
    ∃ files, d.sourceFiles c = .ok files ∧ files.Pairwise Path.Before ∧
      ∀ p, p ∈ files ↔ d.Listed c.roots p ∧ c.Wanted patterns p := by
  refine Disk.exists_sourceFiles hd hpatterns hpackages (fun r hr hthere => (h r hr hthere).2) ?_
  intro p q hp hq
  exact (h.tidy hp).eq_of_same (h.tidy hq)

/-- The files that a configuration selects are those under its roots that it wants, each of them once
and in the order of paths; and they are the same for every other list of these roots. -/
theorem sourceFiles_exact (hd : d.WellFormed)
    (hpatterns : Config.patterns c.excludePaths = .ok patterns)
    (hpackages : ∀ e ∈ c.excludePackages, '/' ∉ e.toList) (hready : d.Ready c.roots) :
    ∃ files, d.sourceFiles c = .ok files ∧ files.Pairwise Path.Before ∧
      (∀ p, p ∈ files ↔ (∃ r ∈ c.roots, d.FileUnder r p) ∧ c.Wanted patterns p) ∧
      ∀ paths, d.Regrouped c.roots { c with startingPaths := paths }.roots →
        d.sourceFiles { c with startingPaths := paths } = .ok files := by
  obtain ⟨files, hfiles, hsorted, hmem⟩ := hready.exists_sourceFiles hd hpatterns hpackages
  refine ⟨files, hfiles, hsorted, hmem, fun paths hregrouped => ?_⟩
  obtain ⟨hcovers, hcovers'⟩ := hregrouped.covers
  obtain ⟨others, hothers, hsorted', hmem'⟩ := Ready.exists_sourceFiles
    (c := { c with startingPaths := paths }) hd hpatterns hpackages (hready.of_covers hd hcovers)
  have hsame : others = files := by
    refine hsorted'.eq_of_mem_iff hsorted fun p => ?_
    rw [hmem', hmem, Config.wanted_startingPaths]
    exact and_congr_left' ⟨Listed.of_covers hcovers, Listed.of_covers hcovers'⟩
  rw [hothers, hsame]

/-- The location that a path without dots spells. -/
def place (path : String) : Location :=
  Path.pieces path.toList

/-- A tree with two packages whose names begin alike, a folder of generated files, and a link. -/
def packageTree : Disk where
  entries :=
    [(place "src", .directory), (place "src/com", .directory), (place "src/com/ex", .directory),
     (place "src/com/ex/A.java", .file .empty), (place "src/com/example", .directory),
     (place "src/com/example/B.java", .file .empty), (place "src/com/example/b.txt", .file .empty),
     (place "src/gen", .directory), (place "src/gen/G.java", .file .empty),
     (place "src/lib", .link (.ofString "com/example"))]

/-- Leaves out one of the packages and the generated files. -/
def packageConfig : Config where
  startingPaths := [.ofString "src"]
  excludePaths := ["**/gen/*"]
  excludePackages := ["com.ex"]
  sourcePath := some (.ofString "src")

theorem wellFormed_packageTree : packageTree.WellFormed := by
  decide

theorem passable_packageTree : packageTree.Passable (.ofString "src") :=
  ⟨by decide, _, by cbv⟩

theorem sourceFiles_exact_packageTree : ∃ patterns files,
    Config.patterns packageConfig.excludePaths = .ok patterns ∧
    packageTree.Ready packageConfig.roots ∧
    packageTree.sourceFiles packageConfig = .ok files ∧ files.Pairwise Path.Before ∧
    (∀ p, p ∈ files ↔ (∃ r ∈ packageConfig.roots, packageTree.FileUnder r p) ∧
      packageConfig.Wanted patterns p) ∧
    packageTree.sourceFiles { packageConfig with
      startingPaths := [.ofString "src/com", .ofString "none", .ofString "src"] } = .ok files := by
  have hready : packageTree.Ready packageConfig.roots := by
    intro r hr _
    obtain rfl : r = .ofString "src" := List.mem_singleton.1 hr
    exact ⟨by decide, passable_packageTree⟩
  have hregrouped : packageTree.Regrouped packageConfig.roots
      [.ofString "src/com", .ofString "none", .ofString "src"] := by
    have hmem : Path.ofString "src" ∈ [.ofString "none", .ofString "src"] :=
      List.mem_cons_of_mem _ List.mem_cons_self
    have hnested := Regrouped.nested (d := packageTree) hmem (by cbv)
      (show ∀ n ∈ ["com".toList], IsName n by decide)
    exact .trans (.missing (by cbv)) hnested
  obtain ⟨files, hfiles, hsorted, hmem, hpaths⟩ := sourceFiles_exact (d := packageTree)
    (c := packageConfig) wellFormed_packageTree rfl (by decide) hready
  exact ⟨_, files, rfl, hready, hfiles, hsorted, hmem, hpaths _ hregrouped⟩

example : packageTree.sourceFiles packageConfig =
    .ok [.ofString "src/com/example/B.java", .ofString "src/lib/B.java"] := by
  cbv

end Disk

end LockMigration
