/-
Reading a configuration from its document. A field that is missing has its default, and unknown
fields are ignored; a field with a value of the wrong type or out of range is refused.
-/
import LockMigration.Config.Basic
import LockMigration.Decimal.Shortest

namespace LockMigration.Config

open Toml

/-- Reads a field if it is there. -/
def optional (fields : Fields) (key : String) (decode : Value → Option α) :
    Except Error (Option α) :=
  match fields.get? key with
  | none => .ok none
  | some v =>
    match decode v with
    | some a => .ok (some a)
    | none => .error (.configuration (.mistyped key))

/-- A natural number up to `limit`. -/
def natUpTo (limit : Nat) : Value → Option Nat
  | .integer n => if 0 ≤ n ∧ n ≤ limit then some n.toNat else none
  | _ => none

/-- A string. -/
def stringValue : Value → Option String
  | .string s => some s
  | _ => none

/-- An array of strings. -/
def stringValues : Value → Option (List String)
  | .array items => items.mapM stringValue
  | _ => none

/-- The text of a floating-point value. -/
def realText : Floating → String
  | .finite negative size => (if negative then "-" else "") ++ size.text
  | .infinite negative => if negative then "-inf" else "inf"
  | .notNumber => "NaN"

/-- The text of a scalar. An integer beyond 63 bits is taken as a floating-point number, and
beyond 64 bits it is refused. -/
def scalarText : Value → Option String
  | .string s => some s
  | .boolean b => some (if b then "true" else "false")
  | .integer n =>
    if -(Text.greatestInt64 + 1 : Int) ≤ n ∧ n ≤ Text.greatestInt64 then some (toString n)
    else if 0 ≤ n ∧ n ≤ Text.greatestNat64 then (Decimal.Binary.ofNat n.toNat).map Decimal.Binary.text
    else none
  | .real x => some (realText x)
  | .moment _ | .array _ | .table _ _ | .tables _ => none

/-- The map of a table of scalars. -/
def mapOf (fields : Fields) : Option (List (String × String)) :=
  fields.mapM fun (key, v) => (scalarText v).map (key, ·)

/-- The key under which a moment stands when it is taken for a map. -/
def momentKey : String := "$__toml_private_datetime"

/-- The map of a value: a table of scalars, or a moment, which is the only entry of its map. -/
def mapValue : Value → Option (List (String × String))
  | .table _ fields => mapOf fields
  | .moment m => some [(momentKey, m.text)]
  | _ => none

/-- The maps of an array of tables and moments. -/
def metasValue : Value → Option Metas
  | .tables elements => (elements.mapM mapOf).map (⟨·⟩)
  | .array items => (items.mapM mapValue).map (⟨·⟩)
  | _ => none

/-- The configuration that the fields of a document give. -/
def ofFields (fields : Fields) : Except Error Config := do
  let d : Config := {}
  let version := natUpTo Text.greatestNat32
  let count := natUpTo Text.greatestNat64
  return {
    startVersion := (← optional fields "start_java_version" version).getD d.startVersion
    targetVersion := (← optional fields "target_java_version" version).getD d.targetVersion
    threads := (← optional fields "threads" count).getD d.threads
    charset := (← optional fields "charset" stringValue).getD d.charset
    indent := (← optional fields "offset" count).getD d.indent
    fileMask := (← optional fields "file_mask" stringValue).getD d.fileMask
    startingPaths := ((← optional fields "starting_paths" stringValues).getD []).map Path.ofString
    excludePaths := (← optional fields "exclude_paths" stringValues).getD []
    excludePackages := (← optional fields "exclude_packages" stringValues).getD []
    sourcePath := (← optional fields "src_path" stringValue).map Path.ofString
    metas := (← optional fields "metas" metasValue).getD {} }

/-- Reads a configuration. -/
def parse (text : String) : Except Error Config :=
  match Toml.read text.toList with
  | .ok fields => ofFields fields
  | .error fault => .error (.configuration (.unreadable fault))

/-- Reads a configuration that makes sense. -/
def parseValid (text : String) : Except Error Config := do
  let c ← parse text
  c.validate
  return c

/-- The configuration file that a new project starts from. -/
def template : String :=
"# syncmigrate configuration

# Migrations introduced after start and up to target are applied
start_java_version = 8
target_java_version = 21

# Worker threads (0 = available parallelism)
threads = 4

# Only UTF-8 is supported; any other charset is rejected
charset = \"UTF-8\"

# Spaces per indentation level in generated code
offset = 4

file_mask = \".java\"
starting_paths = [\"src\"]
exclude_paths = []

# Packages under src_path to leave untouched
# src_path = \"src/main/java\"
# exclude_packages = [\"com.example.generated\"]

# Lock primitive: ReentrantReadWriteLock (default) or StampedLock
# [[metas]]
# migrateSynchronizedLocker = \"StampedLock\"
"

end LockMigration.Config
