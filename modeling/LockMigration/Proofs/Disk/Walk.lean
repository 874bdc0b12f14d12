/-
A walk finds every file. The bound on the directories that lie in each other is never reached: a
link that leads back to a place of the trail is an error, so the places that links lead to are all
different, and between two links the walk only goes down (`Room`). So a walk that ends without an
error lists exactly the files at and below its root, each by the path of the root with the names
behind it (`mem_filesBelow`). And a root inside one that can be walked can be walked as well, since
the walk that began outside has come to it (`Passable.under`).
-/
import LockMigration.Proofs.Disk.Tree
import LockMigration.Proofs.Outcomes
import Mathlib.Data.List.Induction
import Mathlib.Data.List.Perm.Subperm

namespace LockMigration.Disk

variable {d : Disk}

/-! ## Trees -/

/-- The entries form a tree: they have names that paths can spell, and each lies in a directory. -/
structure WellFormed (d : Disk) : Prop where
  names : ∀ row ∈ d.entries, ∀ n ∈ row.1, IsName n
  parents : ∀ row ∈ d.entries, d.entry? row.1.dropLast = some .directory

instance (e : Option Entry) : Decidable (e = some .directory) :=
  match e with
  | some .directory => .isTrue rfl
  | some (.file _) => .isFalse (by intro h; cases h)
  | some (.link _) => .isFalse (by intro h; cases h)
  | none => .isFalse (by intro h; cases h)

instance (d : Disk) : Decidable d.WellFormed :=
  decidable_of_iff ((∀ row ∈ d.entries, ∀ n ∈ row.1, IsName n) ∧
      ∀ row ∈ d.entries, d.entry? row.1.dropLast = some .directory)
    ⟨fun ⟨names, parents⟩ => ⟨names, parents⟩, fun ⟨names, parents⟩ => ⟨names, parents⟩⟩

theorem mem_entries_of_isSome {loc : Location} (hne : loc ≠ []) (h : (d.entry? loc).isSome = true) :
    loc ∈ d.entries.map (·.1) := by
  unfold entry? at h
  rw [if_neg (by simpa using hne), Option.isSome_map, List.find?_isSome] at h
  obtain ⟨row, hrow, heq⟩ := h
  exact List.mem_map.2 ⟨row, hrow, beq_iff_eq.1 heq⟩

theorem mem_names {loc : Location} {n : List Char} :
    n ∈ d.names loc ↔ loc ++ [n] ∈ d.entries.map (·.1) := by
  unfold names
  rw [List.mem_filterMap, List.mem_map]
  constructor
  · rintro ⟨⟨place, e⟩, hrow, heq⟩
    replace heq : (if place.dropLast == loc then place.getLast? else none) = some n := heq
    split at heq
    · rename_i hdir
      obtain ⟨init, rfl⟩ := List.getLast?_eq_some_iff.1 heq
      rw [beq_iff_eq, List.dropLast_concat] at hdir
      exact ⟨_, hrow, by rw [hdir]⟩
    · cases heq
  · rintro ⟨⟨place, e⟩, hrow, rfl⟩
    refine ⟨_, hrow, ?_⟩
    show (if (loc ++ [n]).dropLast == loc then (loc ++ [n]).getLast? else none) = some n
    rw [List.dropLast_concat, if_pos (beq_self_eq_true loc), List.getLast?_concat]

theorem isSome_entry?_of_mem {loc : Location} (h : loc ∈ d.entries.map (·.1)) :
    (d.entry? loc).isSome = true := by
  unfold entry?
  split
  · rfl
  · rw [Option.isSome_map, List.find?_isSome]
    obtain ⟨row, hrow, rfl⟩ := List.mem_map.1 h
    exact ⟨row, hrow, beq_self_eq_true _⟩

namespace WellFormed

/-- An entry lies in a directory. -/
theorem directory (hd : d.WellFormed) {loc : Location} {n : List Char}
    (h : (d.entry? (loc ++ [n])).isSome = true) : d.entry? loc = some .directory := by
  obtain ⟨row, hrow, heq⟩ := List.mem_map.1 (mem_entries_of_isSome (by simp) h)
  have := hd.parents row hrow
  rwa [heq, List.dropLast_concat] at this

theorem isName (hd : d.WellFormed) {loc : Location} {n : List Char} (h : n ∈ d.names loc) :
    IsName n := by
  obtain ⟨row, hrow, heq⟩ := List.mem_map.1 (mem_names.1 h)
  exact hd.names row hrow n (by rw [heq]; simp)

/-- The places on the way to an entry are all different, and each of them is an entry. -/
theorem exists_chain (hd : d.WellFormed) {loc : Location} (h : (d.entry? loc).isSome = true) :
    ∃ chain : List Location, chain.Nodup ∧ chain ⊆ d.entries.map (·.1) ∧
      chain.length = loc.length ∧ ∀ x ∈ chain, x.length ≤ loc.length := by
  induction loc using List.reverseRecOn with
  | nil => exact ⟨[], List.nodup_nil, List.nil_subset _, rfl, fun x hx => by cases hx⟩
  | append_singleton loc n ih =>
    obtain ⟨chain, hnodup, hsub, hlen, hle⟩ := ih (by rw [hd.directory h]; rfl)
    refine ⟨(loc ++ [n]) :: chain, List.nodup_cons.2 ⟨?_, hnodup⟩, ?_, ?_, ?_⟩
    · intro hmem
      have := hle _ hmem
      rw [List.length_append, List.length_singleton] at this
      omega
    · exact List.cons_subset.2 ⟨mem_entries_of_isSome (by simp) h, hsub⟩
    · rw [List.length_cons, hlen, List.length_append, List.length_singleton]
    · intro x hx
      rw [List.length_append, List.length_singleton]
      rcases List.mem_cons.1 hx with rfl | hx
      · exact Nat.le_of_eq (by rw [List.length_append, List.length_singleton])
      · exact Nat.le_succ_of_le (hle x hx)

theorem length_le (hd : d.WellFormed) {loc : Location} (h : (d.entry? loc).isSome = true) :
    loc.length ≤ d.entries.length := by
  obtain ⟨chain, hnodup, hsub, hlen, -⟩ := hd.exists_chain h
  have := (List.subperm_of_subset hnodup hsub).length_le
  rw [List.length_map] at this
  omega

end WellFormed

/-- A step by a name leads to an entry of that name. -/
theorem isSome_of_step {links : Nat} {loc next : Location} {n : List Char}
    (h : d.follow false links loc [.name n] = .ok (.found next)) :
    (d.entry? (loc ++ [n])).isSome = true := by
  rw [follow_name] at h
  split at h
  · cases h
  · cases hentry : d.entry? (loc ++ [n]) with
    | none => rw [hentry] at h; cases h
    | some e => rfl

/-- Without a link in the way a step leads to the entry itself. -/
theorem step_eq {links : Nat} {loc next : Location} {n : List Char}
    (h : d.follow false links loc [.name n] = .ok (.found next))
    (hlink : ∀ aim, d.entry? (loc ++ [n]) ≠ some (.link aim)) : next = loc ++ [n] := by
  rw [follow_name] at h
  split at h
  · cases h
  · cases hentry : d.entry? (loc ++ [n]) with
    | none => rw [hentry] at h; cases h
    | some e =>
      rw [hentry] at h
      cases e with
      | file bytes => cases h; rfl
      | directory =>
        simp only [follow] at h
        cases h
        rfl
      | link aim => exact absurd hentry (hlink aim)

theorem FileBelow.isSome {loc : Location} {names : List (List Char)} (hd : d.WellFormed)
    (h : FileBelow d loc names) : (d.entry? loc).isSome = true := by
  cases h with
  | here file => rw [file]; rfl
  | inside name step rest => rw [hd.directory (isSome_of_step step)]; rfl

/-! ## Depth -/

/-- There is room for the walk below a place. The jumps are places that links led to. -/
def Room (d : Disk) (depth : Nat) (trail : Trail) (loc : Location) : Prop :=
  ∃ jumps : List Location, jumps.Nodup ∧ (∀ j ∈ jumps, j = loc ∨ j ∈ trail.map (·.1)) ∧
    (∀ j ∈ jumps, (d.entry? j).isSome = true) ∧
    d.walkDepth ≤ depth + jumps.length * (d.entries.length + 2) + loc.length

theorem length_le_of_places {places : List Location} (hnodup : places.Nodup)
    (h : ∀ x ∈ places, (d.entry? x).isSome = true) : places.length ≤ d.entries.length + 1 := by
  have hsub : places ⊆ [] :: d.entries.map (·.1) := by
    intro x hx
    by_cases hne : x = []
    · exact hne ▸ List.mem_cons_self
    · exact List.mem_cons_of_mem _ (mem_entries_of_isSome hne (h x hx))
  have := (List.subperm_of_subset hnodup hsub).length_le
  rwa [List.length_cons, List.length_map] at this

namespace Room

variable {depth : Nat} {trail : Trail} {loc : Location}

theorem start (loc : Location) : Room d d.walkDepth [] loc :=
  ⟨[], List.nodup_nil, fun j hj => (by cases hj), fun j hj => (by cases hj), by omega⟩

/-- The bound is not reached. -/
theorem pos (hd : d.WellFormed) (h : Room d depth trail loc) (hloc : (d.entry? loc).isSome = true) :
    0 < depth := by
  obtain ⟨jumps, hnodup, -, hplaces, hroom⟩ := h
  have hjumps := Nat.mul_le_mul_right (d.entries.length + 2) (length_le_of_places hnodup hplaces)
  have hlen := hd.length_le hloc
  have hdepth : d.walkDepth =
      (d.entries.length + 1) * (d.entries.length + 2) + (d.entries.length + 2) :=
    Nat.succ_mul (d.entries.length + 1) _
  omega

theorem down (h : Room d (depth + 1) trail loc) (path : Path) (n : List Char) :
    Room d depth ((loc, path) :: trail) (loc ++ [n]) := by
  obtain ⟨jumps, hnodup, htrail, hplaces, hroom⟩ := h
  refine ⟨jumps, hnodup, fun j hj => .inr ?_, hplaces, ?_⟩
  · exact List.mem_cons.2 (htrail j hj)
  · rw [List.length_append, List.length_singleton]
    omega

theorem jump (hd : d.WellFormed) (h : Room d (depth + 1) trail loc)
    (hloc : (d.entry? loc).isSome = true) {path : Path} {there : Location}
    (hthere : (d.entry? there).isSome = true)
    (hnew : there ∉ ((loc, path) :: trail).map (·.1)) :
    Room d depth ((loc, path) :: trail) there := by
  obtain ⟨jumps, hnodup, htrail, hplaces, hroom⟩ := h
  have hlen := hd.length_le hloc
  refine ⟨there :: jumps, List.nodup_cons.2 ⟨fun hmem => ?_, hnodup⟩, ?_, ?_, ?_⟩
  · exact hnew (List.mem_cons.2 (htrail there hmem))
  · intro j hj
    rcases List.mem_cons.1 hj with rfl | hj
    · exact .inl rfl
    · exact .inr (List.mem_cons.2 (htrail j hj))
  · intro j hj
    rcases List.mem_cons.1 hj with rfl | hj
    · exact hthere
    · exact hplaces j hj
  · rw [List.length_cons, Nat.succ_mul]
    omega

end Room

/-! ## The files of a walk -/

/-- What a walk lists for the entry `n` of the directory at `loc`, which it reached as `path`. -/
def visit (d : Disk) (depth : Nat) (trail : Trail) (loc : Location) (path : Path) (n : List Char) :
    Except WalkFault (List Path) :=
  match d.entry? (loc ++ [n]) with
  | some (.link _) =>
    match d.locate (path.join ⟨n⟩) with
    | .ok there =>
      match ((loc, path) :: trail).find? (·.1 == there) with
      | some (_, ancestor) => .error (.loop (path.join ⟨n⟩) ancestor)
      | none => d.filesFrom depth ((loc, path) :: trail) (path.join ⟨n⟩)
    | .error fault => .error (.broken (path.join ⟨n⟩) fault)
  | _ => d.filesFrom depth ((loc, path) :: trail) (path.join ⟨n⟩)

theorem filesFrom_directory {depth : Nat} {trail : Trail} {path : Path} {loc : Location}
    (hloc : d.locate path = .ok loc) (hentry : d.entry? loc = some .directory) :
    d.filesFrom (depth + 1) trail path =
      ((d.names loc).mapM (d.visit depth trail loc path)).map List.flatten := by
  rw [filesFrom, hloc]
  simp only [hentry]
  rfl

/-- The entry at a location, which the walk comes to by a path, is no link, or it is one to a place
that the walk is not in. -/
def Fresh (d : Disk) (trail : Trail) (loc : Location) (path : Path) : Prop :=
  (∀ aim, d.entry? loc ≠ some (.link aim)) ∨
    ∃ there, d.locate path = .ok there ∧ there ∉ trail.map (·.1)

theorem Fresh.mono {trail less : Trail} {loc : Location} {path : Path}
    (hsub : less.map (·.1) ⊆ trail.map (·.1)) (h : d.Fresh trail loc path) :
    d.Fresh less loc path := by
  rcases h with hlink | ⟨there, hthere, hnew⟩
  · exact .inl hlink
  · exact .inr ⟨there, hthere, fun hmem => hnew (hsub hmem)⟩

theorem find?_trail_eq_none {trail : Trail} {loc : Location} :
    trail.find? (·.1 == loc) = none ↔ loc ∉ trail.map (·.1) := by
  simp only [List.find?_eq_none, beq_iff_eq, List.mem_map, not_exists, not_and]

/-- An entry is walked like a root, unless it is a link back. -/
theorem visit_eq_ok {depth : Nat} {trail : Trail} {loc : Location} {path : Path} {n : List Char}
    {ps : List Path} : d.visit depth trail loc path n = .ok ps ↔
      d.Fresh ((loc, path) :: trail) (loc ++ [n]) (path.join ⟨n⟩) ∧
        d.filesFrom depth ((loc, path) :: trail) (path.join ⟨n⟩) = .ok ps := by
  unfold visit Fresh
  split
  · rename_i aim hentry
    have hlink : ¬ ∀ aim, d.entry? (loc ++ [n]) ≠ some (.link aim) := fun h => h aim hentry
    rw [or_iff_right hlink]
    split
    · rename_i there hthere
      split
      · rename_i hfind
        constructor
        · intro h
          cases h
        · rintro ⟨⟨there', heq, hnew⟩, -⟩
          obtain rfl := Except.ok.inj (hthere.symm.trans heq)
          rw [find?_trail_eq_none.2 hnew] at hfind
          cases hfind
      · rename_i hnew
        exact ⟨fun h => ⟨⟨there, hthere, find?_trail_eq_none.1 hnew⟩, h⟩, And.right⟩
    · rename_i fault hfault
      constructor
      · intro h
        cases h
      · rintro ⟨⟨there, hthere, -⟩, -⟩
        rw [hfault] at hthere
        cases hthere
  · rename_i hlink
    exact (and_iff_right (.inl hlink)).symm

theorem locate_of_filesFrom {depth : Nat} {trail : Trail} {path : Path} {ps : List Path}
    (h : d.filesFrom (depth + 1) trail path = .ok ps) : ∃ loc, d.locate path = .ok loc := by
  unfold filesFrom at h
  cases hloc : d.locate path with
  | error fault => rw [hloc] at h; cases h
  | ok loc => exact ⟨loc, rfl⟩

/-- From an entry on, the walk goes on at the place that its name leads to, and there is room. -/
theorem step_of_visit (hd : d.WellFormed) {depth : Nat} {trail : Trail} {path : Path}
    {loc : Location} {n : List Char} {ps : List Path} (hloc : d.locate path = .ok loc)
    (hdir : d.entry? loc = some .directory) (hroom : Room d (depth + 1) trail loc)
    (hn : n ∈ d.names loc) (h : d.visit depth trail loc path n = .ok ps) :
    ∃ next, d.locate (path.join ⟨n⟩) = .ok next ∧
      d.follow false linkLimit loc [.name n] = .ok (.found next) ∧
      ((d.entry? next).isSome = true → Room d depth ((loc, path) :: trail) next) := by
  have hstep {next : Location} (hnext : d.locate (path.join ⟨n⟩) = .ok next) :
      d.follow false linkLimit loc [.name n] = .ok (.found next) := by
    obtain ⟨loc', hloc', hstep⟩ :=
      locate_of_join (hd.isName hn) (locate_eq_ok.1 hloc).2.1 hnext
    rwa [← Except.ok.inj (hloc.symm.trans hloc')] at hstep
  obtain ⟨hlink | ⟨there, hthere, hnew⟩, hfiles⟩ := visit_eq_ok.1 h
  · have hdown := hroom.down path n
    obtain ⟨depth, rfl⟩ := Nat.exists_eq_add_one.2
      (hdown.pos hd (isSome_entry?_of_mem (mem_names.1 hn)))
    obtain ⟨next, hnext⟩ := locate_of_filesFrom hfiles
    refine ⟨next, hnext, hstep hnext, fun _ => ?_⟩
    rwa [step_eq (hstep hnext) hlink]
  · exact ⟨there, hthere, hstep hthere,
      fun hsome => hroom.jump hd (by rw [hdir]; rfl) hsome hnew⟩

/-- A walk of a directory that ends without an error comes to each of its entries. -/
theorem visits_of_filesFrom {depth : Nat} {trail : Trail} {path : Path} {loc : Location}
    {ps : List Path} (hloc : d.locate path = .ok loc) (hdir : d.entry? loc = some .directory)
    (h : d.filesFrom (depth + 1) trail path = .ok ps) : ∃ lists,
      (d.names loc).mapM (d.visit depth trail loc path) = .ok lists ∧ lists.flatten = ps := by
  rw [filesFrom_directory hloc hdir] at h
  cases hlists : (d.names loc).mapM (d.visit depth trail loc path) with
  | error fault => rw [hlists] at h; cases h
  | ok lists =>
    rw [hlists] at h
    exact ⟨lists, rfl, Except.ok.inj h⟩

/-- What a walk lists for a place that is no directory. -/
theorem filesFrom_leaf (depth : Nat) (trail : Trail) {path : Path} {loc : Location}
    (hloc : d.locate path = .ok loc) (hdir : d.entry? loc ≠ some .directory) :
    ∃ ps, d.filesFrom (depth + 1) trail path = .ok ps ∧
      ∀ p, p ∈ ps ↔ p = path ∧ ∃ bytes, d.entry? loc = some (.file bytes) := by
  rw [filesFrom, hloc]
  cases hentry : d.entry? loc with
  | none => exact ⟨[], by simp only [hentry], by simp⟩
  | some e =>
    cases e with
    | directory => exact absurd hentry hdir
    | file bytes => exact ⟨[path], by simp only [hentry], by simp⟩
    | link aim => exact ⟨[], by simp only [hentry], by simp⟩

/-- Nothing but the place itself can be a file below a place that is no directory. -/
theorem fileBelow_leaf (hd : d.WellFormed) {loc : Location} (hdir : d.entry? loc ≠ some .directory)
    {names : List (List Char)} :
    FileBelow d loc names ↔ names = [] ∧ ∃ bytes, d.entry? loc = some (.file bytes) := by
  constructor
  · intro h
    cases h with
    | here file => exact ⟨rfl, _, file⟩
    | inside name step rest => exact absurd (hd.directory (isSome_of_step step)) hdir
  · rintro ⟨rfl, bytes, hfile⟩
    exact .here hfile

/-- A walk that ends without an error lists the files at and below its path. -/
theorem mem_filesFrom (hd : d.WellFormed) {depth : Nat} {trail : Trail} {path : Path}
    {loc : Location} {ps : List Path} (hloc : d.locate path = .ok loc)
    (hroom : (d.entry? loc).isSome = true → Room d depth trail loc)
    (h : d.filesFrom depth trail path = .ok ps) (p : Path) :
    p ∈ ps ↔ ∃ names, FileBelow d loc names ∧ p = path.under names := by
  induction depth generalizing trail path loc ps p with
  | zero =>
    -- nothing is there, or else there would be room
    obtain rfl : [] = ps := Except.ok.inj h
    constructor
    · intro hp
      cases hp
    · rintro ⟨names, hbelow, -⟩
      have hsome := hbelow.isSome hd
      exact absurd ((hroom hsome).pos hd hsome) (Nat.lt_irrefl 0)
  | succ depth ih =>
    by_cases hdir : d.entry? loc = some .directory
    · replace hroom := hroom (by rw [hdir]; rfl)
      obtain ⟨lists, hlists, rfl⟩ := visits_of_filesFrom hloc hdir h
      rw [List.mem_flatten]
      constructor
      · rintro ⟨list, hlist, hp⟩
        obtain ⟨n, hn, hvisit⟩ := exists_of_mem_mapM hlists hlist
        obtain ⟨next, hnext, hstep, hnextRoom⟩ := step_of_visit hd hloc hdir hroom hn hvisit
        obtain ⟨names, hbelow, rfl⟩ := (ih hnext hnextRoom (visit_eq_ok.1 hvisit).2 p).1 hp
        exact ⟨n :: names, .inside (hd.isName hn) hstep hbelow, rfl⟩
      · rintro ⟨names, hbelow, rfl⟩
        cases hbelow with
        | here file => rw [hdir] at file; cases file
        | @inside _ next n names name step rest =>
          have hn : n ∈ d.names loc :=
            mem_names.2 (mem_entries_of_isSome (by simp) (isSome_of_step step))
          obtain ⟨list, hlist, hvisit⟩ := ok_of_mem_mapM hlists hn
          obtain ⟨next', hnext, hstep, hnextRoom⟩ := step_of_visit hd hloc hdir hroom hn hvisit
          obtain rfl : next' = next := by
            rw [step] at hstep
            cases hstep
            rfl
          exact ⟨list, hlist, (ih hnext hnextRoom (visit_eq_ok.1 hvisit).2 _).2 ⟨names, rest, rfl⟩⟩
    · obtain ⟨ps', hps', hmem⟩ := filesFrom_leaf depth trail hloc hdir
      obtain rfl := Except.ok.inj (hps'.symm.trans h)
      rw [hmem]
      constructor
      · rintro ⟨rfl, hfile⟩
        exact ⟨[], (fileBelow_leaf hd hdir).2 ⟨rfl, hfile⟩, rfl⟩
      · rintro ⟨names, hbelow, rfl⟩
        obtain ⟨rfl, hfile⟩ := (fileBelow_leaf hd hdir).1 hbelow
        exact ⟨rfl, hfile⟩

/-! ## Walks that begin inside other walks -/

/-- A walk that is in fewer places meets no more links back. -/
theorem exists_filesFrom (hd : d.WellFormed) {depth : Nat} {trail less : Trail} {path : Path}
    {loc : Location} {ps : List Path} (hloc : d.locate path = .ok loc)
    (hroom : (d.entry? loc).isSome = true → Room d depth trail loc)
    (h : d.filesFrom depth trail path = .ok ps) (hsub : less.map (·.1) ⊆ trail.map (·.1))
    (depth' : Nat) : ∃ ps', d.filesFrom depth' less path = .ok ps' := by
  induction depth' generalizing depth trail less path loc ps with
  | zero => exact ⟨[], rfl⟩
  | succ depth' ih =>
    by_cases hdir : d.entry? loc = some .directory
    · have hsome : (d.entry? loc).isSome = true := by rw [hdir]; rfl
      replace hroom := hroom hsome
      obtain ⟨depth, rfl⟩ := Nat.exists_eq_add_one.2 (hroom.pos hd hsome)
      obtain ⟨lists, hlists, -⟩ := visits_of_filesFrom hloc hdir h
      have hvisits : ∀ n ∈ d.names loc, ∃ list, d.visit depth' less loc path n = .ok list := by
        intro n hn
        obtain ⟨list, -, hvisit⟩ := ok_of_mem_mapM hlists hn
        obtain ⟨next, hnext, -, hnextRoom⟩ := step_of_visit hd hloc hdir hroom hn hvisit
        have hsub' : ((loc, path) :: less).map (·.1) ⊆ ((loc, path) :: trail).map (·.1) :=
          List.cons_subset_cons loc hsub
        obtain ⟨hfresh, hfiles⟩ := visit_eq_ok.1 hvisit
        obtain ⟨list', hlist'⟩ := ih hnext hnextRoom hfiles hsub'
        exact ⟨list', visit_eq_ok.2 ⟨hfresh.mono hsub', hlist'⟩⟩
      obtain ⟨lists', hlists'⟩ := exists_mapM_eq_ok hvisits
      exact ⟨lists'.flatten, by rw [filesFrom_directory hloc hdir, hlists']; rfl⟩
    · obtain ⟨ps', hps', -⟩ := filesFrom_leaf depth' less hloc hdir
      exact ⟨ps', hps'⟩

/-- A walk comes to every place that names lead to from its path. -/
theorem exists_filesFrom_under (hd : d.WellFormed) {depth : Nat} {trail : Trail} {path : Path}
    {loc next : Location} {names : List (List Char)} {ps : List Path}
    (hnames : ∀ n ∈ names, IsName n) (hloc : d.locate path = .ok loc)
    (hroom : (d.entry? loc).isSome = true → Room d depth trail loc)
    (h : d.filesFrom depth trail path = .ok ps) (hnext : d.locate (path.under names) = .ok next) :
    ∃ depth' trail' ps', ((d.entry? next).isSome = true → Room d depth' trail' next) ∧
      d.filesFrom depth' trail' (path.under names) = .ok ps' := by
  induction names generalizing depth trail path loc ps with
  | nil =>
    obtain rfl := Except.ok.inj (hloc.symm.trans hnext)
    exact ⟨depth, trail, ps, hroom, h⟩
  | cons n names ih =>
    have hn := hnames n List.mem_cons_self
    have hnames' : ∀ m ∈ names, IsName m := fun m hm => hnames m (List.mem_cons_of_mem n hm)
    have hchars := (locate_eq_ok.1 hloc).2.1
    obtain ⟨middle, hmiddle⟩ := locate_of_under hnames' (chars_join_ne_nil hchars hn) hnext
    obtain ⟨loc', hloc', hstep⟩ := locate_of_join hn hchars hmiddle
    obtain rfl := Except.ok.inj (hloc.symm.trans hloc')
    have hsome := isSome_of_step hstep
    have hdir := hd.directory hsome
    replace hroom := hroom (by rw [hdir]; rfl)
    obtain ⟨depth, rfl⟩ := Nat.exists_eq_add_one.2 (hroom.pos hd (by rw [hdir]; rfl))
    obtain ⟨lists, hlists, -⟩ := visits_of_filesFrom hloc hdir h
    have hmem : n ∈ d.names loc := mem_names.2 (mem_entries_of_isSome (by simp) hsome)
    obtain ⟨list, -, hvisit⟩ := ok_of_mem_mapM hlists hmem
    obtain ⟨middle', hmiddle', -, hroom'⟩ := step_of_visit hd hloc hdir hroom hmem hvisit
    exact ih hnames' hmiddle' hroom' (visit_eq_ok.1 hvisit).2 hnext

/-! ## Roots -/

/-- The walk below a root meets no error, and the root is not the standard input, which is not
walked at all. -/
def Passable (d : Disk) (root : Path) : Prop :=
  root.same standardInput = false ∧ ∃ ps, d.filesBelow root = .ok ps

theorem filesBelow_eq_ok {root : Path} {ps : List Path} (hroot : d.isThere root = true)
    (hinput : root.same standardInput = false) :
    d.filesBelow root = .ok ps ↔ d.filesFrom d.walkDepth [] root = .ok ps := by
  rw [filesBelow, if_neg (by rw [hroot, hinput]; exact Bool.false_ne_true)]
  cases d.filesFrom d.walkDepth [] root with
  | ok paths => simp only [Except.ok.injEq]
  | error fault =>
    constructor
    · intro h
      cases h
    · intro h
      cases h

theorem exists_locate {p : Path} (h : d.isThere p = true) : ∃ loc, d.locate p = .ok loc := by
  unfold isThere at h
  cases hloc : d.locate p with
  | error fault => rw [hloc] at h; cases h
  | ok loc => exact ⟨loc, rfl⟩

/-- The files of a root are those that lie under it. -/
theorem mem_filesBelow (hd : d.WellFormed) {root : Path} {ps : List Path}
    (hroot : d.isThere root = true → root.same standardInput = false)
    (h : d.filesBelow root = .ok ps) (p : Path) : p ∈ ps ↔ d.FileUnder root p := by
  by_cases hthere : d.isThere root = true
  · obtain ⟨loc, hloc⟩ := exists_locate hthere
    rw [filesBelow_eq_ok hthere (hroot hthere)] at h
    rw [mem_filesFrom hd hloc (fun _ => Room.start loc) h p]
    constructor
    · rintro ⟨names, hbelow, rfl⟩
      exact ⟨loc, names, hloc, hbelow, rfl⟩
    · rintro ⟨loc', names, hloc', hbelow, rfl⟩
      obtain rfl := Except.ok.inj (hloc.symm.trans hloc')
      exact ⟨names, hbelow, rfl⟩
  · rw [Bool.not_eq_true] at hthere
    rw [filesBelow, if_pos (by rw [hthere]; rfl)] at h
    obtain rfl : [] = ps := Except.ok.inj h
    constructor
    · intro hp
      cases hp
    · rintro ⟨loc, names, hloc, -, -⟩
      rw [isThere, hloc] at hthere
      cases hthere

/-- A root inside one that can be walked can be walked. -/
theorem Passable.under (hd : d.WellFormed) {root : Path} {names : List (List Char)}
    (hnames : ∀ n ∈ names, IsName n) (h : d.Passable root) (hroot : d.isThere root = true)
    (hthere : d.isThere (root.under names) = true) : d.Passable (root.under names) := by
  obtain ⟨hinput, ps, hps⟩ := h
  obtain ⟨loc, hloc⟩ := exists_locate hroot
  obtain ⟨next, hnext⟩ := exists_locate hthere
  have hinput' : (root.under names).same standardInput = false := by
    rw [← Bool.not_eq_true, Path.same_iff, Path.components_under root hnames]
    intro heq
    -- the root has a component, so it is the standard input itself and no name follows
    rcases List.append_eq_singleton_iff.1 heq with ⟨hnil, -⟩ | ⟨hroot, -⟩
    · exact Path.components_ne_nil (locate_eq_ok.1 hloc).2.1 hnil
    · rw [← Bool.not_eq_true, Path.same_iff] at hinput
      exact hinput hroot
  refine ⟨hinput', ?_⟩
  rw [filesBelow_eq_ok hroot hinput] at hps
  obtain ⟨depth, trail, ps', hroom, hfiles⟩ :=
    exists_filesFrom_under hd hnames hloc (fun _ => Room.start loc) hps hnext
  have hsub : List.map (·.1) ([] : Trail) ⊆ trail.map (·.1) := List.nil_subset _
  obtain ⟨qs, hqs⟩ := exists_filesFrom hd hnext hroom hfiles hsub d.walkDepth
  exact ⟨qs, (filesBelow_eq_ok hthere hinput').2 hqs⟩

end LockMigration.Disk
