/-
What can go wrong in a run, by cause. The wording of every cause is in one place, `Error.message`.
-/
import LockMigration.Glob.Pattern
import LockMigration.Java.Fault
import LockMigration.Path
import LockMigration.Text.Integer
import LockMigration.Toml.Document

namespace LockMigration

/-- The reasons why a file cannot be read or written. -/
inductive IoFault where
  /-- The file or a directory on the way to it does not exist. -/
  | missing
  /-- A file stands where a directory is needed. -/
  | notDirectory
  /-- A directory stands where a file is needed. -/
  | isDirectory
  /-- Links lead to links without end. -/
  | linkLoop
  /-- A name or the whole path has too many bytes. -/
  | nameTooLong
  /-- The path has a character that no path can have. -/
  | nulByte
  /-- The file is no UTF-8 text. -/
  | notText
  /-- A table of files has no such entry. -/
  | noEntry
  /-- Any other reason, in its own words. -/
  | other (text : String)
deriving DecidableEq, Repr

/-- The wording of a reason. -/
def IoFault.message : IoFault → String
  | .missing => "No such file or directory (os error 2)"
  | .notDirectory => "Not a directory (os error 20)"
  | .isDirectory => "Is a directory (os error 21)"
  | .linkLoop => "Too many levels of symbolic links (os error 40)"
  | .nameTooLong => "File name too long (os error 36)"
  | .nulByte => "file name contained an unexpected NUL byte"
  | .notText => "stream did not contain valid UTF-8"
  | .noEntry => "no such file"
  | .other text => text

/-- The name of the configuration file. -/
def configFileName : String := ".syncmigrate.toml"

/-- The reasons why a configuration is refused. -/
inductive ConfigFault where
  /-- The text is no document. -/
  | unreadable (fault : Toml.Fault)
  /-- A field has a value of the wrong type or out of range. -/
  | mistyped (field : String)
  | unsupportedCharset (name : String)
  | emptyFileMask
  | versionOrder (target start : Nat)
  | packagesWithoutSourcePath
  | notInteger (key value : String) (fault : Text.IntegerFault)
  /-- Any other reason, in its own words. -/
  | other (text : String)
deriving DecidableEq, Repr

/-- The wording of a reason. -/
def ConfigFault.message : ConfigFault → String
  | .unreadable fault => s!"Failed to parse {configFileName}: {fault.message}"
  | .mistyped field => s!"Failed to parse {configFileName}: {field} has a value of the wrong type"
  | .unsupportedCharset name => s!"unsupported charset '{name}', only UTF-8 is supported"
  | .emptyFileMask => "file_mask must not be empty"
  | .versionOrder target start =>
    s!"target_java_version ({target}) is lower than start_java_version ({start})"
  | .packagesWithoutSourcePath => "exclude_packages requires src_path"
  | .notInteger key value fault => s!"meta '{key}' is not an integer ('{value}'): {fault.message}"
  | .other text => text

/-- The causes of failure. -/
inductive Error where
  /-- The structure of a source text is broken. -/
  | source (fault : Java.Fault)
  /-- No lock class has this name. -/
  | unknownLocker (value : String)
  /-- A file cannot be read or written. -/
  | fileSystem (path : Path) (fault : IoFault)
  | configuration (fault : ConfigFault)
  /-- The workers cannot be started. -/
  | concurrency (text : String)
  /-- A failure, with a note on where it happened. -/
  | withContext (context message : String)
  /-- A glob pattern is broken. -/
  | pattern (fault : Glob.Fault)
deriving DecidableEq, Repr

namespace Error

/-- The wording of a failure. -/
def message : Error → String
  | .source fault => fault.message
  | .unknownLocker value =>
    s!"Unknown locker kind '{value}', expected ReentrantReadWriteLock or StampedLock"
  | .fileSystem path fault => s!"File system error at {path.display}: {fault.message}"
  | .configuration fault => s!"Configuration error: {fault.message}"
  | .concurrency text => s!"Concurrency error: {text}"
  | .withContext context text => s!"{context}: {text}"
  | .pattern fault => fault.message

/-- True for a failure that lies in the source text. -/
def isStructural : Error → Bool
  | .source _ => true
  | _ => false

/-- The failure with a note on where it happened. -/
def inContext (context : String) (e : Error) : Error :=
  .withContext context e.message

/-- The failure below this one that its text repeats. -/
def cause? : Error → Option String
  | .fileSystem _ fault => some fault.message
  | _ => none

end Error

end LockMigration
