/-
Which configuration is found for a directory. The search looks at the directory and its parents,
nearest first, as many as it may or up to the root directory (`upward_ancestors`). Of the file in
each of them it matters only whether it is absent, unreadable, unparsable or parsed
(`foundConfig?_eq`): the nearest parsed one decides, with its configuration or with the fault of it
(`discoverConfig_of_decides`), and where there is none the configuration is the default one
(`discoverConfig_of_none`).

The main statement, `discoverConfig_nearest`, holds for every tree and every directory, and compares
the tree with all others in which the files that count are in the same states.
-/
import LockMigration.Disk.Settings
import LockMigration.Proofs.Path
import Mathlib

namespace LockMigration

namespace Disk

variable {d : Disk}

/-! ## One file -/

/-- The states that the configuration file of a directory can be in. -/
inductive ConfigState where
  /-- There is no such file. -/
  | absent
  /-- It cannot be read as a text. -/
  | unreadable
  /-- Its text is no configuration. -/
  | unparsable
  /-- Its text is a configuration, which may make sense or not. -/
  | parsed (c : Config)

/-- The path of a directory's configuration file. -/
def configFile (dir : Path) : Path :=
  dir.join (.ofString configFileName)

/-- The state of a directory's configuration file. -/
def configState (d : Disk) (dir : Path) : ConfigState :=
  match d.readText (configFile dir) with
  | .error .missing => .absent
  | .error _ => .unreadable
  | .ok text =>
    match Config.parse text with
    | .error _ => .unparsable
    | .ok c => .parsed c

theorem configState_of_readText {dir : Path} {text : String}
    (h : d.readText (configFile dir) = .ok text) : d.configState dir =
      match Config.parse text with
      | .error _ => .unparsable
      | .ok c => .parsed c := by
  rw [configState, h]

/-- What a parsed file decides: its configuration, or what is wrong with it. -/
def verdict (dir : Path) (c : Config) : Except Error Config :=
  (c.validate.mapError (·.inContext (configFile dir).display)).map fun _ => c

theorem verdict_cases (dir : Path) (c : Config) :
    c.validate = .ok () ∧ verdict dir c = .ok c ∨
      ∃ e fault, c.validate = .error e ∧ verdict dir c = .error fault ∧
        fault.message = (configFile dir).display ++ ": " ++ e.message := by
  unfold verdict
  cases c.validate with
  | ok u => exact .inl ⟨rfl, rfl⟩
  | error e => exact .inr ⟨e, e.inContext (configFile dir).display, rfl, rfl, rfl⟩

/-- Only a parsed file is not passed over. -/
theorem foundConfig?_eq (d : Disk) (dir : Path) : d.foundConfig? (configFile dir) =
    match d.configState dir with
    | .parsed c => (verdict dir c).map some
    | _ => .ok none := by
  unfold foundConfig? configState verdict
  cases d.readText (configFile dir) with
  | error fault =>
    cases fault with
    | missing => rfl
    | _ => rfl
  | ok text =>
    dsimp only
    cases Config.parse text with
    | error e => rfl
    | ok c =>
      dsimp only
      cases c.validate with
      | error e => rfl
      | ok u => rfl

/-! ## The search -/

theorem foundConfig?_of_passed {dir : Path} (h : ∀ c, d.configState dir ≠ .parsed c) :
    d.foundConfig? (configFile dir) = .ok none := by
  rw [foundConfig?_eq]
  split
  · rename_i c hc
    exact absurd hc (h c)
  · rfl

theorem firstConfig?_append {near : List Path} (far : List Path)
    (h : ∀ dir ∈ near, ∀ c, d.configState dir ≠ .parsed c) :
    d.firstConfig? ((near ++ far).map configFile) = d.firstConfig? (far.map configFile) := by
  induction near with
  | nil => rfl
  | cons dir near ih =>
    rw [List.cons_append, List.map_cons, firstConfig?,
      foundConfig?_of_passed (h dir List.mem_cons_self)]
    exact ih fun p hp => h p (List.mem_cons_of_mem dir hp)

theorem firstConfig?_of_parsed {dir : Path} {c : Config} (far : List Path)
    (h : d.configState dir = .parsed c) :
    d.firstConfig? ((dir :: far).map configFile) = (verdict dir c).map some := by
  rw [List.map_cons, firstConfig?, foundConfig?_eq, h]
  dsimp only
  cases verdict dir c with
  | error e => rfl
  | ok c => rfl

theorem firstConfig?_congr {d' : Disk} {dirs : List Path}
    (h : ∀ dir ∈ dirs, d'.configState dir = d.configState dir) :
    d'.firstConfig? (dirs.map configFile) = d.firstConfig? (dirs.map configFile) := by
  induction dirs with
  | nil => rfl
  | cons dir dirs ih =>
    rw [List.map_cons, firstConfig?, firstConfig?, foundConfig?_eq, foundConfig?_eq,
      h dir List.mem_cons_self, ih fun p hp => h p (List.mem_cons_of_mem dir hp)]

/-- The directories begin with `near` and `dir`, and the file of `dir` is the first of theirs that is
parsed. -/
structure Decides (d : Disk) (dirs near : List Path) (dir : Path) (c : Config) : Prop where
  begins : near ++ [dir] <+: dirs
  passed : ∀ q ∈ near, ∀ c, d.configState q ≠ .parsed c
  parsed : d.configState dir = .parsed c

theorem exists_decides (d : Disk) (dirs : List Path) :
    (∃ near dir c, d.Decides dirs near dir c) ∨ ∀ q ∈ dirs, ∀ c, d.configState q ≠ .parsed c := by
  induction dirs with
  | nil => exact .inr fun q hq => absurd hq List.not_mem_nil
  | cons dir dirs ih =>
    by_cases hdir : ∃ c, d.configState dir = .parsed c
    · obtain ⟨c, hc⟩ := hdir
      exact .inl ⟨[], dir, c, ⟨dirs, rfl⟩, fun q hq => absurd hq List.not_mem_nil, hc⟩
    · have hpassed : ∀ c, d.configState dir ≠ .parsed c := fun c hc => hdir ⟨c, hc⟩
      rcases ih with ⟨near, last, c, hbegins, hnear, hlast⟩ | hnone
      · refine .inl ⟨dir :: near, last, c, ?_, List.forall_mem_cons.2 ⟨hpassed, hnear⟩, hlast⟩
        exact List.cons_prefix_cons.2 ⟨rfl, hbegins⟩
      · exact .inr (List.forall_mem_cons.2 ⟨hpassed, hnone⟩)

theorem discoverConfig_of_decides {start : Path} {near : List Path} {dir : Path} {c : Config}
    (h : d.Decides (start.ancestors searchDepth) near dir c) :
    d.discoverConfig start = verdict dir c := by
  obtain ⟨far, hfar⟩ := h.begins
  rw [List.append_assoc] at hfar
  have hfirst : d.firstConfig? (configPaths start) = (verdict dir c).map some := by
    show d.firstConfig? ((start.ancestors searchDepth).map configFile) = _
    rw [← hfar, firstConfig?_append _ h.passed]
    exact firstConfig?_of_parsed far h.parsed
  rw [discoverConfig, hfirst]
  cases verdict dir c with
  | error e => rfl
  | ok c => rfl

theorem discoverConfig_of_none {start : Path}
    (h : ∀ q ∈ start.ancestors searchDepth, ∀ c, d.configState q ≠ .parsed c) :
    d.discoverConfig start = .ok {} := by
  have hfirst : d.firstConfig? (configPaths start) = .ok none := by
    show d.firstConfig? ((start.ancestors searchDepth).map configFile) = _
    rw [← List.append_nil (start.ancestors searchDepth), firstConfig?_append [] h]
    rfl
  rw [discoverConfig, hfirst]
  rfl

theorem discoverConfig_congr {d' : Disk} {start : Path}
    (h : ∀ q ∈ start.ancestors searchDepth, d'.configState q = d.configState q) :
    d'.discoverConfig start = d.discoverConfig start := by
  have hfirst : d'.firstConfig? (configPaths start) = d.firstConfig? (configPaths start) :=
    firstConfig?_congr h
  rw [discoverConfig, discoverConfig, hfirst]

/-- The directories that are looked at are the given one and its parents, ten at most and none above
the root directory. The nearest one whose file can be read and parsed decides: its configuration is
the result, or an error that begins with the path of the file and says what is wrong with it. If
there is none, the result is the default configuration.

The deciding file is all that counts: a tree that has it, and nothing parsed nearer by, has the same
result, whatever else is in it. So has a tree with the same files in all of the directories. -/
theorem discoverConfig_nearest (d : Disk) (start : Path) :
    start.Upward 10 (start.ancestors 10) ∧
    ((∃ near dir c, d.Decides (start.ancestors 10) near dir c) ∨
      (∀ q ∈ start.ancestors 10, ∀ c, d.configState q ≠ .parsed c) ∧
        d.discoverConfig start = .ok {}) ∧
    (∀ near dir c, d.Decides (start.ancestors 10) near dir c →
      (c.validate = .ok () ∧ d.discoverConfig start = .ok c ∨
        ∃ e fault, c.validate = .error e ∧ d.discoverConfig start = .error fault ∧
          fault.message = (configFile dir).display ++ ": " ++ e.message) ∧
      ∀ d' : Disk, (∀ q ∈ near, ∀ c, d'.configState q ≠ .parsed c) →
        d'.configState dir = d.configState dir →
        d'.discoverConfig start = d.discoverConfig start) ∧
    ∀ d' : Disk, (∀ q ∈ start.ancestors 10, d'.configState q = d.configState q) →
      d'.discoverConfig start = d.discoverConfig start := by
  refine ⟨start.upward_ancestors 9, ?_, fun near dir c h => ⟨?_, fun d' hpassed hsame => ?_⟩,
    fun d' => discoverConfig_congr⟩
  · exact (d.exists_decides (start.ancestors 10)).imp_right fun hnone =>
      ⟨hnone, discoverConfig_of_none hnone⟩
  · rw [discoverConfig_of_decides h]
    exact verdict_cases dir c
  · have h' : d'.Decides (start.ancestors 10) near dir c :=
      ⟨h.begins, hpassed, hsame.trans h.parsed⟩
    rw [discoverConfig_of_decides h, discoverConfig_of_decides h']

/-- A project with a file that makes no sense, in it a module with a broken file, and above it the
given file. -/
def projectTree (above : String) : Disk where
  entries := [
    ([".syncmigrate.toml".toList], .file above.toUTF8),
    (["app".toList], .directory),
    (["app".toList, ".syncmigrate.toml".toList], .file "file_mask = \"\"\n".toUTF8),
    (["app".toList, "core".toList], .directory),
    (["app".toList, "core".toList, ".syncmigrate.toml".toList], .file "offset = [\n".toUTF8)]

theorem configState_app (above : String) :
    (projectTree above).configState (.ofString "/app") = .parsed { fileMask := "" } := by
  have hread : (projectTree above).readText (configFile (.ofString "/app")) =
      .ok "file_mask = \"\"\n" := by
    cbv
  have hparse : Config.parse "file_mask = \"\"\n" = .ok { fileMask := "" } := by decide +kernel
  rw [configState_of_readText hread, hparse]

theorem configState_core (above : String) :
    (projectTree above).configState (.ofString "/app/core") = .unparsable := by
  have hread : (projectTree above).readText (configFile (.ofString "/app/core")) =
      .ok "offset = [\n" := by
    cbv
  have hparse : (Config.parse "offset = [\n").toOption = none := by decide +kernel
  rw [configState_of_readText hread]
  cases hresult : Config.parse "offset = [\n" with
  | error e => rfl
  | ok c => rw [hresult] at hparse; cases hparse

theorem ancestors_core : (Path.ofString "/app/core").ancestors 10 =
    [.ofString "/app/core", .ofString "/app", .ofString "/"] := by
  decide

theorem discoverConfig_nearest_projectTree :
    (projectTree "").Decides ((Path.ofString "/app/core").ancestors 10)
      [.ofString "/app/core"] (.ofString "/app") { fileMask := "" } ∧
    (∃ fault, (projectTree "").discoverConfig (.ofString "/app/core") = .error fault ∧
      fault.message =
        "/app/.syncmigrate.toml: Configuration error: file_mask must not be empty") ∧
    (projectTree "offset = 8\n").discoverConfig (.ofString "/app/core") =
      (projectTree "").discoverConfig (.ofString "/app/core") := by
  have hpassed (above : String) : ∀ q ∈ [Path.ofString "/app/core"], ∀ c,
      (projectTree above).configState q ≠ .parsed c := by
    intro q hq c hparsed
    rw [List.mem_singleton.1 hq, configState_core] at hparsed
    cases hparsed
  have h : (projectTree "").Decides ((Path.ofString "/app/core").ancestors 10)
      [.ofString "/app/core"] (.ofString "/app") { fileMask := "" } :=
    ⟨⟨[.ofString "/"], ancestors_core.symm⟩, hpassed "", configState_app ""⟩
  obtain ⟨-, -, hdecides, -⟩ := discoverConfig_nearest (projectTree "") (.ofString "/app/core")
  obtain ⟨hresult, hother⟩ := hdecides _ _ _ h
  refine ⟨h, ?_, hother _ (hpassed _) ((configState_app _).trans (configState_app _).symm)⟩
  rcases hresult with ⟨hvalid, -⟩ | ⟨e, fault, hinvalid, hfault, hmessage⟩
  · cases hvalid
  · refine ⟨fault, hfault, ?_⟩
    cases hinvalid
    rw [hmessage]
    decide

end Disk

end LockMigration
