/-
Reading the arguments of the program. A switch can be written with its long name, alone or with
`=` and a value, or with its short name, several of them in one argument; after `--` every
argument is a path. The values of a switch are judged when the next switch has been recognised, so
an unknown switch is reported before a bad value that stands in front of it.
-/
import LockMigration.CommandLine.Switch

namespace LockMigration.CommandLine

/-- The commands. -/
inductive Command where
  | migrate
  | scan
  | init
deriving DecidableEq, Repr

/-- A command with its values. -/
inductive Invocation where
  | migrate (args : MigrateArgs)
  | scan (paths : List Path) (config : Option Path) (json : Bool) (verbosity : Nat)
  | init (force : Bool)
deriving DecidableEq, Repr

namespace Command

/-- The name of a command. -/
def name : Command → String
  | .migrate => "migrate"
  | .scan => "scan"
  | .init => "init"

/-- Every command. -/
def all : List Command := [.migrate, .scan, .init]

/-- The command with the given name. -/
def ofName? (name : String) : Option Command :=
  all.find? (·.name == name)

/-- The switches that a command knows. -/
def switches : Command → List Switch
  | .migrate =>
    [.config, .threads, .indent, .locker, .startVersion, .targetVersion, .exclude, .setting,
      .dryRun, .quiet, .verbose, .help]
  | .scan => [.config, .json, .verbose, .help]
  | .init => [.force, .help]

/-- True for a command that takes paths. -/
def takesPaths : Command → Bool
  | .migrate | .scan => true
  | .init => false

/-- The command with the values that were collected for it. -/
def invocation (c : Command) (t : Tally) : Invocation :=
  match c with
  | .migrate => .migrate t.args
  | .scan => .scan t.args.paths t.args.config t.json t.args.verbosity
  | .init => .init t.force

end Command

/-! ## Arguments -/

/-- The forms of an argument. -/
inductive Argument where
  /-- Two dashes alone. -/
  | divider
  /-- Two dashes, a name, and the text after an equals sign. -/
  | long (name : String) (value : Option String)
  /-- One dash and at least one letter. -/
  | short (letters : List Char)
  /-- Anything else, also a dash alone. -/
  | plain (text : String)
deriving DecidableEq, Repr

/-- The form of an argument. -/
def Argument.ofString (s : String) : Argument :=
  match s.toList with
  | ['-', '-'] => .divider
  | '-' :: '-' :: cs =>
    let name := String.ofList (cs.takeWhile (· != '='))
    match cs.dropWhile (· != '=') with
    | [] => .long name none
    | _ :: value => .long name (some (String.ofList value))
  | '-' :: c :: cs => .short (c :: cs)
  | _ => .plain s

/-- Arguments in the middle of being read. -/
structure Progress where
  tally : Tally := {}
  /-- A switch with the values read for it so far, not yet judged. -/
  pending : Option (Switch × List String) := none
  /-- True when the next argument is the value of the pending switch. -/
  awaiting : Bool := false
  /-- True after the divider. -/
  divided : Bool := false
deriving DecidableEq, Repr

namespace Progress

/-- Judges the pending switch. -/
def settle (p : Progress) : Except UsageFault Progress :=
  match p.pending with
  | none => .ok p
  | some (s, values) => do
    return { p with tally := ← p.tally.accept s values, pending := none }

/-- Judges the pending switch and then this one with its values. -/
def react (s : Switch) (values : List String) (p : Progress) : Except UsageFault Progress := do
  let p ← p.settle
  return { p with tally := ← p.tally.accept s values, awaiting := false }

/-- Makes a switch the pending one, with the next argument as its value. -/
def await (s : Switch) (p : Progress) : Except UsageFault Progress := do
  let p ← p.settle
  return { p with pending := some (s, []), awaiting := true }

/-- An argument with a long name. -/
def long (known : List Switch) (name : String) (value : Option String) (p : Progress) :
    Except UsageFault Progress :=
  match known.find? (·.long? == some name), value with
  | none, _ => .error .unknownArgument
  | some s, some v => if s.takesValue then p.react s [v] else .error .unexpectedValue
  | some s, none => if s.takesValue then p.await s else p.react s []

/-- An argument of short names. The letters after one that takes a value are its value. -/
def shorts (known : List Switch) : List Char → Progress → Except UsageFault Progress
  | [], p => .ok p
  | c :: cs, p =>
    match known.find? (·.short? == some c) with
    | none => .error .unknownArgument
    | some s =>
      if s.takesValue then
        match cs with
        | [] => p.await s
        | '=' :: value => p.react s [String.ofList value]
        | value => p.react s [String.ofList value]
      else do
        shorts known cs (← p.react s [])

/-- A path. Paths that follow each other are judged together. -/
def path (takesPaths : Bool) (value : String) (p : Progress) : Except UsageFault Progress :=
  if !takesPaths then .error .unknownArgument
  else
    match p.pending with
    | some (.paths, values) => .ok { p with pending := some (.paths, values ++ [value]) }
    | _ => do
      let p ← p.settle
      return { p with pending := some (.paths, [value]) }

/-- An argument that is no switch. -/
def plain (takesPaths : Bool) (value : String) (p : Progress) : Except UsageFault Progress :=
  match p.awaiting, p.pending with
  | true, some (s, values) =>
    .ok { p with pending := some (s, values ++ [value]), awaiting := false }
  | _, _ => p.path takesPaths value

/-- One argument of a command. -/
def step (c : Command) (p : Progress) (arg : String) : Except UsageFault Progress :=
  if p.divided then p.path c.takesPaths arg
  else
    match Argument.ofString arg with
    | .divider => .ok { p with divided := true }
    | .long name value => p.long c.switches name value
    | .short letters => p.shorts c.switches letters
    | .plain value => p.plain c.takesPaths value

end Progress

/-! ## Commands -/

/-- Reads the arguments of a command. The number of threads comes from the environment if the
command has it and it is not given. -/
def parseCommand (c : Command) (threads : Option String) (args : List String) :
    Except UsageFault Invocation := do
  let p ← args.foldlM (Progress.step c) {}
  let p ← p.settle
  match threads with
  | some value =>
    if c.switches.contains .threads && !p.tally.seen.contains .threads then
      return c.invocation (← p.tally.put .threads value)
    else return c.invocation p.tally
  | none => return c.invocation p.tally

/-- The name of the command that prints the manual. -/
def helpName : String := "help"

/-- The manual of the program, of a command, or of the manual itself. -/
def helpFault : List String → UsageFault
  | [] => .help
  | [name] => if name == helpName || (Command.ofName? name).isSome then .help else .unknownCommand
  | _ => .unknownCommand

/-- An argument before any command that is no name of one: the switches of the program itself. -/
def topLevel (arg : String) : UsageFault :=
  match Argument.ofString arg with
  | .plain _ | .divider => .unknownCommand
  | .long name value =>
    match Progress.long [.help, .version] name value {} with
    | .error fault => fault
    | .ok _ => .unknownArgument
  | .short letters =>
    match Progress.shorts [.help, .version] letters {} with
    | .error fault => fault
    | .ok _ => .unknownArgument

/-- Reads the arguments of the program, without its name. -/
def parse (threads : Option String) : List String → Except UsageFault Invocation
  | [] => .error .noCommand
  | "--" :: [] => .error .noCommand
  | "--" :: name :: _ =>
    .error (if name == helpName || (Command.ofName? name).isSome then .unknownArgument
      else .unknownCommand)
  | name :: args =>
    if name == helpName then .error (helpFault args)
    else
      match Command.ofName? name with
      | some c => parseCommand c threads args
      | none => .error (topLevel name)

end LockMigration.CommandLine
