/-
Finding the configuration. A file that is named must be there and must make sense. Otherwise the
nearest file in the working directory and the directories above it decides; a file that cannot be
read there is passed over, but one that reads and makes no sense is an error.
-/
import LockMigration.Config.Read
import LockMigration.Disk.Basic

namespace LockMigration.Disk

/-- How many directories are looked at. -/
def searchDepth : Nat := 10

/-- The configuration in a file that was named. -/
def namedConfig (d : Disk) (path : Path) : Except Error Config :=
  match d.readText path with
  | .error fault => .error (.fileSystem path fault)
  | .ok text => (Config.parseValid text).mapError (·.inContext path.display)

/-- The configuration in a file that was found: none if it cannot be read. -/
def foundConfig? (d : Disk) (path : Path) : Except Error (Option Config) :=
  match d.readText path with
  | .error _ => .ok none
  | .ok text =>
    match Config.parse text with
    | .error _ => .ok none
    | .ok c => (c.validate.mapError (·.inContext path.display)).map fun _ => some c

/-- The first configuration among the files. -/
def firstConfig? (d : Disk) : List Path → Except Error (Option Config)
  | [] => .ok none
  | path :: paths => do
    match ← d.foundConfig? path with
    | some c => return some c
    | none => firstConfig? d paths

/-- The files in which the configuration for a directory is looked for, nearest first. -/
def configPaths (start : Path) : List Path :=
  (start.ancestors searchDepth).map (·.join (.ofString configFileName))

/-- The configuration for a directory, or the default one. -/
def discoverConfig (d : Disk) (start : Path) : Except Error Config := do
  return (← d.firstConfig? (configPaths start)).getD {}

/-- The configuration in the named file, or the one for the working directory. -/
def loadConfig (d : Disk) (path : Option Path) : Except Error Config :=
  match path with
  | some p => d.namedConfig p
  | none => d.discoverConfig (spelling d.current)

end LockMigration.Disk
