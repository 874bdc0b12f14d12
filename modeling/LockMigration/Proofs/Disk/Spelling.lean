/-
Roots with a dot before them. The same directory can be given as `src` and as `./src`, and the walk
finds the same files below both (`fileUnder_dotted`). But the files keep the spelling of their root,
and the exclusions look at that spelling: patterns at its characters, packages at its components,
of which the dot that comes first is one. So the two roots select the same files exactly if no
exclusion tells the spellings of a file apart (`dotted_root_selects`). A pattern that begins with any
folders does not; a package below a source path without a dot leaves out nothing below a root with
one.
-/
import LockMigration.Proofs.Disk.Selection

namespace LockMigration

namespace Path

/-! ## Dotted paths -/

/-- The path seen from the working directory, which is named by a dot. -/
def dotted (p : Path) : Path :=
  ⟨'.' :: '/' :: p.chars⟩

theorem dotted_injective : Function.Injective dotted := by
  intro p q h
  cases p
  cases q
  cases h
  rfl

theorem pieces_dotted (p : Path) : pieces p.dotted.chars = ['.'] :: pieces p.chars :=
  pieces_append ['.'] p.chars

theorem components_dotted (p : Path) :
    p.dotted.components = .here :: (pieces p.chars).filterMap component? := by
  have hlead : p.dotted.lead = [.here] := by
    rw [lead, pieces_dotted]
    rfl
  rw [components_eq, hlead, pieces_dotted]
  rfl

/-- The dot is one more component, unless the path begins with one already. -/
theorem components_dotted_cases {p : Path} (h : p.isAbsolute = false) :
    p.lead = [] ∧ p.dotted.components = .here :: p.components ∨
      p.lead = [.here] ∧ p.dotted.components = p.components := by
  rw [components_dotted, components_eq]
  unfold lead
  rw [h, if_neg Bool.false_ne_true]
  split
  · exact .inr ⟨rfl, rfl⟩
  · exact .inl ⟨rfl, rfl⟩

theorem fileName?_dotted {p : Path} (h : p.isAbsolute = false) (hne : p.chars ≠ []) :
    p.dotted.fileName? = p.fileName? := by
  unfold fileName?
  rcases components_dotted_cases h with ⟨-, heq⟩ | ⟨-, heq⟩
  · obtain ⟨x, xs, hxs⟩ := List.exists_cons_of_ne_nil (components_ne_nil hne)
    rw [heq, hxs, List.getLast?_cons_cons]
  · rw [heq]

theorem compare_dotted {p q : Path} (hp : p.isAbsolute = false) (hq : q.isAbsolute = false)
    (hlead : p.lead = q.lead) : p.dotted.compare q.dotted = p.compare q := by
  unfold compare
  rcases components_dotted_cases hp with ⟨hp, heq⟩ | ⟨hp, heq⟩
  · rcases components_dotted_cases hq with ⟨-, heq'⟩ | ⟨hq, -⟩
    · rw [heq, heq']
      rfl
    · rw [hlead, hq] at hp
      cases hp
  · rcases components_dotted_cases hq with ⟨hq, -⟩ | ⟨-, heq'⟩
    · rw [hlead, hq] at hp
      cases hp
    · rw [heq, heq']

theorem getLast?_dotted {p : Path} (h : p.chars ≠ []) :
    p.dotted.chars.getLast? = p.chars.getLast? :=
  List.getLast?_append_of_ne_nil ['.', '/'] h

theorem dotted_join {p q : Path} (hne : p.chars ≠ []) (hq : q.isAbsolute = false) :
    (p.join q).dotted = p.dotted.join q := by
  have hne' : p.dotted.chars ≠ [] := List.cons_ne_nil _ _
  unfold join
  rw [hq, if_neg Bool.false_ne_true, if_neg Bool.false_ne_true, getLast?_dotted hne]
  by_cases hlast : p.chars.getLast? = some '/'
  · rw [if_pos (.inr hlast), if_pos (.inr hlast)]
    rfl
  · rw [if_neg (not_or.2 ⟨hne, hlast⟩), if_neg (not_or.2 ⟨hne', hlast⟩)]
    rfl

end Path

namespace Disk

variable {d : Disk}

theorem dotted_under {p : Path} {names : List (List Char)} (hne : p.chars ≠ [])
    (hnames : ∀ n ∈ names, IsName n) : (p.under names).dotted = p.dotted.under names := by
  induction names generalizing p with
  | nil => rfl
  | cons n names ih =>
    have hn := hnames n List.mem_cons_self
    have hrelative := Path.isAbsolute_of_lead (Path.lead_of_isName hn)
    show ((p.join ⟨n⟩).under names).dotted = (p.dotted.join ⟨n⟩).under names
    rw [ih (chars_join_ne_nil hne hn) fun m hm => hnames m (List.mem_cons_of_mem n hm),
      Path.dotted_join hne hrelative]

theorem hops_dotted {p : Path} (hne : p.chars ≠ []) : hops p.dotted = .stay :: hops p := by
  have hinner : inner p.dotted = .stay :: inner p := by
    rw [inner, Path.pieces_dotted]
    rfl
  rw [hops_eq, hops_eq, hinner, Path.getLast?_dotted hne, List.cons_append]

/-- Both spellings lead to the same place. -/
theorem locate_dotted {p : Path} (h : p.isAbsolute = false) (hne : p.chars ≠ [])
    (hlen : Text.byteLength p.chars + 2 ≤ pathLimit) : d.locate p.dotted = d.locate p := by
  have hnul : p.dotted.chars.contains '\x00' = p.chars.contains '\x00' := rfl
  have hbytes : Text.byteLength p.dotted.chars = 2 + Text.byteLength p.chars :=
    Text.byteLength_append ['.', '/'] p.chars
  unfold locate resolve
  rw [hnul, if_neg (show ¬ Text.byteLength p.dotted.chars > pathLimit by omega),
    if_neg (show ¬ Text.byteLength p.chars > pathLimit by omega),
    if_neg (show ¬ p.dotted.chars.isEmpty = true from Bool.false_ne_true),
    if_neg (show ¬ p.chars.isEmpty = true by simpa using hne), h, hops_dotted hne, follow]
  rfl

/-- The same files lie under both. -/
theorem fileUnder_dotted {r : Path} (h : r.isAbsolute = false) (hne : r.chars ≠ [])
    (hlen : Text.byteLength r.chars + 2 ≤ pathLimit) {q : Path} :
    d.FileUnder r.dotted q ↔ ∃ p, d.FileUnder r p ∧ q = p.dotted := by
  unfold FileUnder
  rw [locate_dotted h hne hlen]
  constructor
  · rintro ⟨loc, names, hloc, hbelow, rfl⟩
    exact ⟨_, ⟨loc, names, hloc, hbelow, rfl⟩, (dotted_under hne hbelow.isName).symm⟩
  · rintro ⟨p, ⟨loc, names, hloc, hbelow, rfl⟩, rfl⟩
    exact ⟨loc, names, hloc, hbelow, dotted_under hne hbelow.isName⟩

end Disk

/-! ## Exclusions -/

open Selection (packageNames)

/-- True for a pattern that begins with any folders and goes on with a character other than a
dot. -/
def Glob.floats : Glob.Pattern → Bool
  | .anyFolders :: .char c :: _ => c != '.'
  | _ => false

/-- Among the folders can be the dot. -/
theorem Glob.isMatch_dotted {g : Glob.Pattern} (h : Glob.floats g = true) (s : List Char) :
    Glob.isMatch g ('.' :: '/' :: s) = Glob.isMatch g s := by
  unfold floats at h
  split at h
  · rename_i c ps
    have hdot : isMatch (.char c :: ps) ('.' :: '/' :: s) = false := by
      rw [isMatch, beq_false_of_ne (Ne.symm (bne_iff_ne.1 h)), Bool.false_and]
    have hfolders : afterFolders ('.' :: '/' :: s) = s :: afterFolders s := rfl
    rw [isMatch, isMatch, hdot, hfolders, List.any_cons, Bool.false_or]
  · cases h

namespace Config

variable {c : Config} {patterns : List Glob.Pattern} {p : Path}

theorem wanted_dotted_of_floats (hpackages : c.excludePackages = [])
    (hpatterns : ∀ g ∈ patterns, Glob.floats g = true) (hp : p.isAbsolute = false)
    (hne : p.chars ≠ []) : c.Wanted patterns p.dotted ↔ c.Wanted patterns p := by
  have hmatch : ∀ g ∈ patterns, Glob.isMatch g p.dotted.chars = Glob.isMatch g p.chars :=
    fun g hg => Glob.isMatch_dotted (hpatterns g hg) p.chars
  have houtside (q : Path) : ∀ source ∈ c.sourcePath, ∀ dirs name,
      q.components = source.components ++ dirs ++ [Component.name name] →
      ∀ package ∈ c.excludePackages,
        ¬ (packageNames package.toList).map Component.name <+: dirs := by
    intro source _ dirs name _ package hpackage
    rw [hpackages] at hpackage
    cases hpackage
  constructor
  · rintro ⟨masked, unmatched, -⟩
    rw [Path.fileName?_dotted hp hne] at masked
    exact ⟨masked, fun g hg => hmatch g hg ▸ unmatched g hg, houtside p⟩
  · rintro ⟨masked, unmatched, -⟩
    rw [← Path.fileName?_dotted hp hne] at masked
    exact ⟨masked, fun g hg => (hmatch g hg).trans (unmatched g hg), houtside p.dotted⟩

/-- A source path without a dot before it does not begin a path that has one, and so its packages
contain no such path. -/
theorem wanted_dotted_of_source (hsource : ∀ source ∈ c.sourcePath, source.lead = [])
    (hne : ∀ source ∈ c.sourcePath, source.chars ≠ []) : c.Wanted patterns p.dotted ↔
      (∃ name, p.dotted.fileName? = some name ∧ c.fileMask.toList <:+ name) ∧
      ∀ g ∈ patterns, Glob.isMatch g p.dotted.chars = false := by
  refine ⟨fun ⟨masked, unmatched, _⟩ => ⟨masked, unmatched⟩,
    fun ⟨masked, unmatched⟩ => ⟨masked, unmatched, ?_⟩⟩
  intro source hs dirs name heq
  exfalso
  obtain ⟨x, xs, hxs⟩ := List.exists_cons_of_ne_nil (Path.components_ne_nil (hne source hs))
  rw [Path.components_dotted, hxs] at heq
  have hx : x ∈ (Path.pieces source.chars).filterMap Path.component? := by
    rw [← List.nil_append (List.filterMap _ _), ← hsource source hs, ← Path.components_eq, hxs]
    exact List.mem_cons_self
  obtain ⟨piece, -, hpiece⟩ := List.mem_filterMap.1 hx
  rw [← (List.cons.inj heq).1] at hpiece
  exact Path.component?_ne_here piece hpiece

end Config

namespace Disk

variable {d : Disk} {c : Config} {patterns : List Glob.Pattern} {r : Path}

/-- A single root gives each file one spelling. -/
theorem eq_of_listed_singleton {p q : Path} (hp : d.Listed [r] p) (hq : d.Listed [r] q)
    (h : p.components = q.components) : p = q := by
  obtain ⟨_, hr, loc, names, -, hbelow, rfl⟩ := hp
  obtain rfl := List.mem_singleton.1 hr
  obtain ⟨_, hr, loc', names', -, hbelow', rfl⟩ := hq
  obtain rfl := List.mem_singleton.1 hr
  rw [Path.under_injective hbelow.isName hbelow'.isName h]

theorem listed_singleton {p : Path} : d.Listed [r] p ↔ d.FileUnder r p := by
  simp only [Listed, List.mem_singleton, exists_eq_left]

/-- A file under a root begins as the root does. -/
theorem lead_of_fileUnder {p : Path} (h : d.FileUnder r p) : p.lead = r.lead := by
  obtain ⟨loc, names, -, hbelow, rfl⟩ := h
  exact Path.lead_under r hbelow.isName

theorem isAbsolute_of_fileUnder {p : Path} (h : d.FileUnder r p) (hr : r.isAbsolute = false) :
    p.isAbsolute = false := by
  rw [← Bool.not_eq_true, ← Path.lead_eq_root_iff] at hr ⊢
  rwa [lead_of_fileUnder h]

theorem chars_ne_nil_of_fileUnder {p : Path} (h : d.FileUnder r p) : p.chars ≠ [] := by
  obtain ⟨loc, names, hloc, hbelow, rfl⟩ := h
  exact chars_under_ne_nil (locate_eq_ok.1 hloc).2.1 hbelow.isName

/-- The files under a single root that a configuration wants. -/
theorem exists_sourceFiles_singleton (hd : d.WellFormed)
    (hpatterns : Config.patterns c.excludePaths = .ok patterns)
    (hpackages : ∀ e ∈ c.excludePackages, '/' ∉ e.toList)
    (hr : d.isThere r = true → d.Passable r) :
    ∃ files, d.sourceFiles { c with startingPaths := [r] } = .ok files ∧
      files.Pairwise Path.Before ∧ ∀ p, p ∈ files ↔ d.FileUnder r p ∧ c.Wanted patterns p := by
  have hroots : ∀ s ∈ [r], d.isThere s = true → d.Passable s := by
    intro s hs
    rwa [List.mem_singleton.1 hs]
  obtain ⟨files, hfiles, hsorted, hmem⟩ :=
    exists_sourceFiles (c := { c with startingPaths := [r] }) hd hpatterns hpackages hroots
      fun p q => eq_of_listed_singleton
  refine ⟨files, hfiles, hsorted, fun p => ?_⟩
  rw [hmem, Config.wanted_startingPaths]
  exact and_congr_left' listed_singleton

/-- The dot does not change the order of files under one root. -/
theorem pairwise_map_dotted (hr : r.isAbsolute = false) {files : List Path}
    (hfiles : ∀ p ∈ files, d.FileUnder r p) (h : files.Pairwise Path.Before) :
    (files.map Path.dotted).Pairwise Path.Before := by
  rw [List.pairwise_map]
  refine h.imp_of_mem fun {p q} hp hq hbefore => ?_
  have hlead : p.lead = q.lead :=
    (lead_of_fileUnder (hfiles p hp)).trans (lead_of_fileUnder (hfiles q hq)).symm
  unfold Path.Before
  rw [Path.compare_dotted (isAbsolute_of_fileUnder (hfiles p hp) hr)
    (isAbsolute_of_fileUnder (hfiles q hq) hr) hlead]
  exact hbefore

/-- A root and the same root with a dot before it select the same files, the dot apart, exactly if no
exclusion tells the two spellings of a file apart. Patterns that begin with any folders do not. But a
package below a source path without a dot leaves out no file at all below a root with one. -/
theorem dotted_root_selects (hd : d.WellFormed)
    (hpatterns : Config.patterns c.excludePaths = .ok patterns)
    (hpackages : ∀ e ∈ c.excludePackages, '/' ∉ e.toList) (hr : r.isAbsolute = false)
    (hne : r.chars ≠ []) (hlen : Text.byteLength r.chars + 2 ≤ pathLimit)
    (hpassable : d.isThere r = true → d.Passable r ∧ d.Passable r.dotted) :
    ∃ plain dots, d.sourceFiles { c with startingPaths := [r] } = .ok plain ∧
      d.sourceFiles { c with startingPaths := [r.dotted] } = .ok dots ∧
      (dots = plain.map Path.dotted ↔
        ∀ p, d.FileUnder r p → (c.Wanted patterns p.dotted ↔ c.Wanted patterns p)) ∧
      (c.excludePackages = [] → (∀ g ∈ patterns, Glob.floats g = true) →
        dots = plain.map Path.dotted) ∧
      ((∀ source ∈ c.sourcePath, source.lead = [] ∧ source.chars ≠ []) → ∀ p, p ∈ dots ↔
        d.FileUnder r.dotted p ∧ (∃ name, p.fileName? = some name ∧ c.fileMask.toList <:+ name) ∧
        ∀ g ∈ patterns, Glob.isMatch g p.chars = false) := by
  have hthere : d.isThere r.dotted = d.isThere r := by
    rw [isThere, isThere, locate_dotted hr hne hlen]
  obtain ⟨plain, hplain, hsorted, hmem⟩ :=
    exists_sourceFiles_singleton hd hpatterns hpackages fun h => (hpassable h).1
  obtain ⟨dots, hdots, hsorted', hmem'⟩ :=
    exists_sourceFiles_singleton hd hpatterns hpackages fun h => (hpassable (hthere ▸ h)).2
  have hmap := pairwise_map_dotted hr (fun p hp => ((hmem p).1 hp).1) hsorted
  have hexact : dots = plain.map Path.dotted ↔
      ∀ p, d.FileUnder r p → (c.Wanted patterns p.dotted ↔ c.Wanted patterns p) := by
    constructor
    · intro heq p hp
      have hdotted : p.dotted ∈ dots ↔ p ∈ plain := by
        rw [heq, List.mem_map_of_injective Path.dotted_injective]
      rwa [hmem', hmem, and_iff_right hp,
        and_iff_right ((fileUnder_dotted hr hne hlen).2 ⟨p, hp, rfl⟩)] at hdotted
    · intro hwanted
      -- both lists are in strict order, so it is enough that they have the same members
      refine hsorted'.eq_of_mem_iff hmap fun q => ?_
      rw [hmem', fileUnder_dotted hr hne hlen, List.mem_map]
      constructor
      · rintro ⟨⟨p, hp, rfl⟩, hq⟩
        exact ⟨p, (hmem p).2 ⟨hp, (hwanted p hp).1 hq⟩, rfl⟩
      · rintro ⟨p, hp, rfl⟩
        obtain ⟨hunder, hp⟩ := (hmem p).1 hp
        exact ⟨⟨p, hunder, rfl⟩, (hwanted p hunder).2 hp⟩
  refine ⟨plain, dots, hplain, hdots, hexact, fun hnone hfloats => hexact.2 fun p hp => ?_,
    fun hsource p => ?_⟩
  · exact Config.wanted_dotted_of_floats hnone hfloats (isAbsolute_of_fileUnder hp hr)
      (chars_ne_nil_of_fileUnder hp)
  · rw [hmem']
    refine and_congr_right fun hp => ?_
    obtain ⟨p, -, rfl⟩ := (fileUnder_dotted hr hne hlen).1 hp
    exact Config.wanted_dotted_of_source (fun s hs => (hsource s hs).1) fun s hs => (hsource s hs).2

theorem passable_dotted_packageTree : packageTree.Passable (.ofString "./src") :=
  ⟨by decide, _, by cbv⟩

theorem dotted_root_selects_packageTree :
    packageTree.Passable (.ofString "src") ∧ packageTree.Passable (.ofString "./src") ∧
    ∃ plain dots,
      packageTree.sourceFiles { packageConfig with
        excludePackages := [], startingPaths := [.ofString "src"] } = .ok plain ∧
      packageTree.sourceFiles { packageConfig with
        excludePackages := [], startingPaths := [.ofString "./src"] } = .ok dots ∧
      dots = plain.map Path.dotted := by
  obtain ⟨plain, dots, h, h', -, hfloats, -⟩ := dotted_root_selects (d := packageTree)
    (c := { packageConfig with excludePackages := [] }) (r := .ofString "src")
    wellFormed_packageTree rfl (by decide) (by decide) (by decide) (by decide)
    fun _ => ⟨passable_packageTree, passable_dotted_packageTree⟩
  exact ⟨passable_packageTree, passable_dotted_packageTree, plain, dots, h, h',
    hfloats rfl (by decide)⟩

/-- A file in an excluded package is selected because its root has a dot before it. -/
theorem dotted_root_keeps_package :
    packageTree.Passable (.ofString "src") ∧ packageTree.Passable (.ofString "./src") ∧
    ∃ plain dots,
      packageTree.sourceFiles { packageConfig with
        startingPaths := [.ofString "src"] } = .ok plain ∧
      packageTree.sourceFiles { packageConfig with
        startingPaths := [.ofString "./src"] } = .ok dots ∧
      .ofString "./src/com/ex/A.java" ∈ dots ∧ .ofString "src/com/ex/A.java" ∉ plain ∧
      dots ≠ plain.map Path.dotted := by
  refine ⟨passable_packageTree, passable_dotted_packageTree, _, _, by cbv, by cbv, ?_⟩
  decide

end Disk

end LockMigration
