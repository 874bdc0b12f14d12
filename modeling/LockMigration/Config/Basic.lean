/-
The configuration of a run: which Java versions, which files, how the generated code looks, and
free-form settings. `validate` tells whether a configuration makes sense, and reports the first
thing that does not.
-/
import LockMigration.Locker
import LockMigration.Metas

namespace LockMigration

/-- The settings of a run. -/
structure Config where
  /-- Migrations after this Java version apply. -/
  startVersion : Nat := 8
  /-- Migrations up to this Java version apply. -/
  targetVersion : Nat := 21
  /-- The number of workers; zero stands for as many as the machine can run. -/
  threads : Nat := 4
  charset : String := "UTF-8"
  /-- The width of one level of indentation in generated code. -/
  indent : Nat := 4
  /-- The end of the names of the files to migrate. -/
  fileMask : String := ".java"
  startingPaths : List Path := []
  /-- Glob patterns of the files to leave alone. -/
  excludePaths : List String := []
  /-- Packages below the source path to leave alone. -/
  excludePackages : List String := []
  sourcePath : Option Path := none
  metas : Metas := {}
deriving DecidableEq, Repr

/-- The setting that names the lock class. -/
def lockerKey : String := "migrateSynchronizedLocker"

/-- The directory to walk when no other is given. -/
def defaultStartingPath : Path := .ofString "src"

/-- The lock class with the given name. -/
def Locker.ofName (name : String) : Except Error Locker :=
  match Locker.ofName? name with
  | some l => .ok l
  | none => .error (.unknownLocker name)

/-- The number of workers for a thread count, none for as many as the machine can run. -/
def workersOf? (threads : Nat) : Option Nat :=
  if threads = 0 then none else some threads

namespace Config

/-- The directories to walk. -/
def roots (c : Config) : List Path :=
  if c.startingPaths.isEmpty then [defaultStartingPath] else c.startingPaths

/-- The lock class that the settings name. -/
def locker (c : Config) : Except Error Locker :=
  match c.metas.value? [lockerKey] with
  | none => .ok .reentrantReadWriteLock
  | some name => Locker.ofName name

/-- True for the names of the only charset. -/
def isUtf8Label (name : String) : Bool :=
  let label := (Text.trim name.toList).map Text.lowerAscii
  label == "utf-8".toList || label == "utf8".toList

/-- Reads glob patterns, up to the first broken one. -/
def patterns (globs : List String) : Except Error (List Glob.Pattern) :=
  globs.mapM fun g => (Glob.read g.toList).mapError .pattern

/-- Checks the settings in order and reports the first that is refused. -/
def validate (c : Config) : Except Error Unit := do
  if !isUtf8Label c.charset then
    throw (.configuration (.unsupportedCharset c.charset))
  if c.fileMask.isEmpty then
    throw (.configuration .emptyFileMask)
  if c.targetVersion < c.startVersion then
    throw (.configuration (.versionOrder c.targetVersion c.startVersion))
  if !c.excludePackages.isEmpty && c.sourcePath.isNone then
    throw (.configuration .packagesWithoutSourcePath)
  let _ ← patterns c.excludePaths
  let _ ← c.locker

end Config

end LockMigration
