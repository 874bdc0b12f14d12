/-
The program as it runs. The files that a command needs are read into a tree, the command runs on
that tree, and then what it printed and the files that changed are written out.
-/
import LockMigration.Run.Program

namespace LockMigration.Main

/-! ## Reading a tree -/

/-- A tree as far as it has been read, and the directories of which every name has been read. -/
structure Snapshot where
  disk : Disk
  listed : List Location := []

/-- The spelling of a location. -/
def spell (loc : Location) : String :=
  (Disk.spelling loc).display

/-- The location with a spelling that has no steps up. -/
def unspell (s : String) : Location :=
  (Disk.hops (.ofString s)).filterMap fun
    | .name n => some n
    | .up | .stay | .slash => none

/-- The target of a link that leads nowhere: no name of a file has this character. -/
def nowhere : Path := ⟨['/', '\x00']⟩

/-- The target of the link at a location, with all further links followed. -/
def targetAt (loc : Location) : IO Path := do
  try
    return .ofString (← IO.FS.realPath (spell loc)).toString
  catch _ =>
    return nowhere

/-- The entry at a location whose directory is reached without links. -/
def entryAt (loc : Location) : IO (Option Entry) := do
  try
    let dir ← IO.FS.realPath (spell loc.dropLast)
    match (← (dir / String.ofList (loc.getLast?.getD [])).symlinkMetadata).type with
    | .dir => return some .directory
    | .file => return some (.file (← IO.FS.readBinFile (spell loc)))
    | .symlink => return some (.link (← targetAt loc))
    | .other => return none
  catch _ =>
    return none

namespace Snapshot

/-- Reads the entry at a location. -/
def visit (s : Snapshot) (loc : Location) : IO Snapshot := do
  if (s.disk.entry? loc).isSome then return s
  match ← entryAt loc with
  | some e => return { s with disk := s.disk.set loc e }
  | none => return s

/-- Reads the entries on the way from a directory, and gives the place where the way ends. -/
partial def reach (s : Snapshot) (here : Location) : List Disk.Hop → IO (Snapshot × Location)
  | [] => return (s, here)
  | .stay :: rest | .slash :: rest => s.reach here rest
  | .up :: rest => s.reach here.dropLast rest
  | .name n :: rest => do
    let loc := here ++ [n]
    let s ← s.visit loc
    match s.disk.entry? loc with
    | some (.link target) =>
      if target = nowhere then return (s, loc) else s.reach [] (Disk.hops target ++ rest)
    | _ => s.reach loc rest

/-- Reads everything below a location. -/
partial def below (s : Snapshot) (loc : Location) : IO Snapshot := do
  match s.disk.entry? loc with
  | some .directory =>
    if s.listed.contains loc then return s
    let dir ← IO.FS.realPath (spell loc)
    (← dir.readDir).foldlM (fun s e => do
      let (s, there) ← s.reach loc [.name e.fileName.toList]
      s.below there) { s with listed := loc :: s.listed }
  | _ => return s

/-- Reads the entry that a path leads to. -/
def load (s : Snapshot) (p : Path) : IO (Snapshot × Location) :=
  s.reach (if p.isAbsolute then [] else s.disk.current) (Disk.hops p)

/-- Reads what a command needs: its configuration, and then the files it goes through. -/
def prepare (s : Snapshot) (i : CommandLine.Invocation) : IO Snapshot := do
  let s ← (Run.settingsPaths s.disk i).foldlM (fun s p => return (← s.load p).1) s
  (Run.sourcePaths s.disk i).foldlM (fun s p => do
    let (s, there) ← s.load p
    s.below there) s

end Snapshot

/-! ## Running -/

/-- Writes the files that differ from those before. -/
def store (before after : Disk) : IO Unit :=
  (before.changedFiles after).forM fun (loc, bytes) => IO.FS.writeBinFile (spell loc) bytes

/-- The variables of the environment that the program looks at. -/
def environment : IO (List (String × String)) := do
  return (← IO.getEnv Run.threadsVariable).toList.map (Run.threadsVariable, ·)

/-- Runs a command. A migration reports how long it took. -/
def perform (s : Snapshot) (i : CommandLine.Invocation) : IO Run.Exit := do
  match i with
  | .migrate args =>
    let start ← IO.monoMsNow
    let result ← IO.lazyPure fun _ => Run.attempt s.disk args
    let stop ← IO.monoMsNow
    return .ofTranscript (Run.sumUp s.disk args (some (stop - start)) result)
  | .scan .. | .init _ => return Run.invoke s.disk i

/-- Runs the program and gives its exit code. -/
def run (args : List String) : IO Nat := do
  let s : Snapshot := { disk := { current := unspell (← IO.currentDir).toString } }
  let (s, e) ←
    match Run.command (← environment) args with
    | .ok i => do
      let s ← s.prepare i
      pure (s, ← perform s i)
    | .error fault => pure (s, Run.Exit.ofUsage s.disk fault)
  store s.disk e.disk
  IO.print e.stdout
  IO.eprint e.stderr
  return e.code

end LockMigration.Main

def main (args : List String) : IO UInt32 :=
  return (← LockMigration.Main.run args).toUInt32
