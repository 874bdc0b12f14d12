/-
The switches of the command line: their names, which command knows them, and what a switch does
to the values collected so far.
-/
import LockMigration.Config.Overrides

namespace LockMigration.CommandLine

/-- The reasons why arguments do not name a command to run. -/
inductive UsageFault where
  /-- The manual was asked for. -/
  | help
  /-- The version was asked for. -/
  | version
  /-- There is no command. -/
  | noCommand
  /-- There is no such command. -/
  | unknownCommand
  /-- There is no such switch, or no place for the argument. -/
  | unknownArgument
  /-- A switch has no value, or a path is empty. -/
  | missingValue
  /-- A value is not of the form that its switch asks for. -/
  | invalidValue
  /-- A switch that may be given once is given again. -/
  | repeated
  /-- A switch without a value is given one. -/
  | unexpectedValue
deriving DecidableEq, Repr

/-- The places for arguments: the switches, and the paths that stand alone. -/
inductive Switch where
  | paths
  | config
  | threads
  | indent
  | locker
  | startVersion
  | targetVersion
  | exclude
  | setting
  | dryRun
  | quiet
  | verbose
  | json
  | force
  | help
  | version
deriving DecidableEq, Repr

/-- How often a switch may be given, and whether it takes a value. -/
inductive Arity where
  /-- Without a value, once. -/
  | flag
  /-- Without a value, any number of times. -/
  | counted
  /-- With a value, once. -/
  | single
  /-- With a value, any number of times. -/
  | many
deriving DecidableEq, Repr

namespace Switch

/-- The long name of a switch. -/
def long? : Switch → Option String
  | .paths => none
  | .config => some "config"
  | .threads => some "threads"
  | .indent => some "indent"
  | .locker => some "locker"
  | .startVersion => some "start-version"
  | .targetVersion => some "target-version"
  | .exclude => some "exclude"
  | .setting => some "meta"
  | .dryRun => some "dry-run"
  | .quiet => some "quiet"
  | .verbose => some "verbose"
  | .json => some "json"
  | .force => some "force"
  | .help => some "help"
  | .version => some "version"

/-- The short name of a switch. -/
def short? : Switch → Option Char
  | .config => some 'c'
  | .threads => some 'j'
  | .quiet => some 'q'
  | .verbose => some 'v'
  | .help => some 'h'
  | .version => some 'V'
  | _ => none

/-- How a switch is given. -/
def arity : Switch → Arity
  | .paths | .exclude | .setting => .many
  | .config | .threads | .indent | .locker | .startVersion | .targetVersion => .single
  | .verbose => .counted
  | .dryRun | .quiet | .json | .force | .help | .version => .flag

/-- True for a switch that takes a value. -/
def takesValue (s : Switch) : Bool :=
  s.arity == .single || s.arity == .many

/-- True for a switch that may be given only once. -/
def isOnce (s : Switch) : Bool :=
  s.arity == .single || s.arity == .flag

end Switch

/-! ## Values -/

/-- The values collected so far, and the switches that were given. -/
structure Tally where
  args : MigrateArgs := {}
  json : Bool := false
  force : Bool := false
  seen : List Switch := []
deriving DecidableEq, Repr

/-- The greatest count of a repeated flag. -/
def greatestCount : Nat := 255

/-- A path, which must not be empty. -/
def pathValue (value : String) : Except UsageFault Path :=
  if value.isEmpty then .error .missingValue else .ok (.ofString value)

/-- A natural number of 64 bits. -/
def countValue (value : String) : Except UsageFault Nat :=
  (Text.readNat Text.greatestNat64 value.toList).mapError fun _ => .invalidValue

/-- A Java version, a natural number of 32 bits that may be written with any sign. -/
def versionValue (value : String) : Except UsageFault Nat :=
  match Text.readInt Text.greatestInt64 value.toList with
  | .ok n => if 0 ≤ n ∧ n ≤ Text.greatestNat32 then .ok n.toNat else .error .invalidValue
  | .error _ => .error .invalidValue

/-- The value, if there is one. -/
def orInvalid (value : Option α) : Except UsageFault α :=
  match value with
  | some a => .ok a
  | none => .error .invalidValue

/-- What one value of a switch does. -/
def Tally.put (s : Switch) (value : String) (t : Tally) : Except UsageFault Tally :=
  let args := t.args
  match s with
  | .paths => do return { t with args := { args with paths := args.paths ++ [← pathValue value] } }
  | .config => do return { t with args := { args with config := some (← pathValue value) } }
  | .threads => do return { t with args := { args with threads := some (← countValue value) } }
  | .indent => do return { t with args := { args with indent := some (← countValue value) } }
  | .locker => do
    return { t with args := { args with locker := some (← orInvalid (Locker.ofName? value)) } }
  | .startVersion => do
    return { t with args := { args with startVersion := some (← versionValue value) } }
  | .targetVersion => do
    return { t with args := { args with targetVersion := some (← versionValue value) } }
  | .exclude => .ok { t with args := { args with exclude := args.exclude ++ [value] } }
  | .setting => do
    return { t with args := { args with metas := args.metas ++ [← orInvalid (metaArgument? value)] } }
  | .dryRun | .quiet | .verbose | .json | .force | .help | .version => .ok t

/-- What a switch without a value does. -/
def Tally.raise (s : Switch) (t : Tally) : Except UsageFault Tally :=
  match s with
  | .dryRun => .ok { t with args := { t.args with dryRun := true } }
  | .quiet => .ok { t with args := { t.args with quiet := true } }
  | .verbose =>
    .ok { t with args := { t.args with verbosity := min greatestCount (t.args.verbosity + 1) } }
  | .json => .ok { t with json := true }
  | .force => .ok { t with force := true }
  | .help => .error .help
  | .version => .error .version
  | .paths | .config | .threads | .indent | .locker | .startVersion | .targetVersion | .exclude
  | .setting => .error .missingValue

/-- What a switch does with its values. A value that is missing is reported before a repetition,
and a repetition before a bad value. -/
def Tally.accept (s : Switch) (values : List String) (t : Tally) : Except UsageFault Tally :=
  if s.takesValue && values.isEmpty then .error .missingValue
  else if s.isOnce && t.seen.contains s then .error .repeated
  else
    let t := { t with seen := s :: t.seen }
    if s.takesValue then values.foldlM (fun t value => t.put s value) t else t.raise s

end LockMigration.CommandLine
