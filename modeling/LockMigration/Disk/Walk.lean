/-
The selection of files. A walk goes through every directory below its roots, follows links, and
keeps the files whose name ends with the mask, whose path no pattern excludes, and whose directory
is in no excluded package. The result is in the order of paths and names no file twice.
-/
import LockMigration.Config.Basic
import LockMigration.Disk.Basic

namespace LockMigration

/-- Which files a walk keeps. -/
structure Selection where
  roots : List Path
  mask : List Char := ".java".toList
  patterns : List Glob.Pattern := []
  excluded : List Path := []

namespace Selection

/-- The pieces of a text between its dots that are not empty. -/
def segments (package : List Char) : List (List Char) :=
  (package.foldr (fun c acc =>
    if c = '.' then [] :: acc
    else
      match acc with
      | [] => [[c]]
      | s :: rest => (c :: s) :: rest) [[]]).filter (!·.isEmpty)

/-- The relative path of a package. -/
def packagePath (package : List Char) : Path :=
  (segments package).foldl (fun p s => p.join ⟨s⟩) ⟨[]⟩

/-- Leaves out the files in the given packages below a source path. -/
def excludePackages (source : Path) (packages : List String) (s : Selection) : Selection :=
  { s with excluded := packages.map fun p => source.join (packagePath p.toList) }

/-- Leaves out the files that match the given globs. -/
def excludePaths (globs : List String) (s : Selection) : Except Error Selection := do
  return { s with patterns := ← Config.patterns globs }

/-- The files that a configuration selects. -/
def ofConfig (c : Config) : Except Error Selection := do
  let s ← ({ roots := c.roots, mask := c.fileMask.toList } : Selection).excludePaths c.excludePaths
  match c.sourcePath with
  | some source => return s.excludePackages source c.excludePackages
  | none => return s

/-- True for a file that is kept. -/
def keeps (s : Selection) (path : Path) : Bool :=
  path.fileName?.any (fun name => s.mask.isSuffixOf name) &&
  !s.patterns.any (fun p => Glob.isMatch p path.chars) &&
  !path.parent?.any (fun dir => s.excluded.any dir.startsWith)

/-- Keeps the first of equal neighbours. -/
def dropRepeats : List Path → List Path
  | p :: q :: rest => if p.same q then dropRepeats (p :: rest) else p :: dropRepeats (q :: rest)
  | ps => ps
termination_by ps => ps.length

/-- The paths in order, each of them once. -/
def arrange (paths : List Path) : List Path :=
  dropRepeats (paths.mergeSort fun p q => p.compare q != .gt)

end Selection

/-- What can stop a walk. -/
inductive WalkFault where
  /-- An entry leads nowhere. -/
  | broken (path : Path) (fault : IoFault)
  /-- A link leads back to a directory that the walk is in. -/
  | loop (child ancestor : Path)
deriving DecidableEq, Repr

/-- The wording of a fault. -/
def WalkFault.message : WalkFault → String
  | .broken path fault =>
    s!"{path.display}: IO error for operation on {path.display}: {fault.message}"
  | .loop child ancestor =>
    s!"File system loop found: {child.display} points to an ancestor {ancestor.display}"

namespace Disk

/-- The directories that a walk is in, the innermost first: where they are and how they were
reached. -/
abbrev Trail := List (Location × Path)

/-- The files at and below a path, where links are followed. `depth` bounds how many directories
lie in each other. A directory reached through a link must not be on the trail. -/
def filesFrom (d : Disk) : (depth : Nat) → Trail → Path → Except WalkFault (List Path)
  | 0, _, _ => .ok []
  | depth + 1, trail, path =>
    match d.locate path with
    | .error fault => .error (.broken path fault)
    | .ok loc =>
      match d.entry? loc with
      | some (.file _) => .ok [path]
      | some .directory => do
        let below ← (d.names loc).mapM fun name =>
          let child := path.join ⟨name⟩
          match d.entry? (loc ++ [name]) with
          | some (.link _) =>
            match d.locate child with
            | .ok there =>
              match ((loc, path) :: trail).find? (·.1 == there) with
              | some (_, ancestor) => .error (.loop child ancestor)
              | none => filesFrom d depth ((loc, path) :: trail) child
            | .error fault => .error (.broken child fault)
          | _ => filesFrom d depth ((loc, path) :: trail) child
        return below.flatten
      | some (.link _) | none => .ok []

/-- More directories than can lie in each other: between two links that lead to different
directories a walk only goes down. -/
def walkDepth (d : Disk) : Nat :=
  (d.entries.length + 2) * (d.entries.length + 2)

/-- The path that stands for the standard input and is never walked. -/
def standardInput : Path := ⟨['-']⟩

/-- The files at and below a root. A root that is not there has none. -/
def filesBelow (d : Disk) (root : Path) : Except Error (List Path) :=
  if !d.isThere root || root.same standardInput then .ok []
  else
    match d.filesFrom d.walkDepth [] root with
    | .ok paths => .ok paths
    | .error fault => .error (.withContext root.display fault.message)

/-- The files that a selection keeps. -/
def select (d : Disk) (s : Selection) : Except Error (List Path) := do
  let found ← s.roots.mapM d.filesBelow
  return Selection.arrange (found.flatten.filter s.keeps)

/-- The files that a configuration selects. -/
def sourceFiles (d : Disk) (c : Config) : Except Error (List Path) := do
  d.select (← Selection.ofConfig c)

end Disk

end LockMigration
