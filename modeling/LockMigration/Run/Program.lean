/-
The whole program: arguments and environment in, printed text, exit code and the tree out.
-/
import LockMigration.CommandLine.Parse
import LockMigration.CrashReport
import LockMigration.Run.Init
import LockMigration.Run.Migrate
import LockMigration.Run.Scan

namespace LockMigration.Run

open CommandLine

/-- The end of the program. -/
structure Exit where
  code : Nat
  stdout : String := ""
  stderr : String := ""
  disk : Disk

/-- The end of the program after a command. -/
def Exit.ofTranscript (t : Transcript α) : Exit :=
  match t.result with
  | .ok _ => { code := 0, stdout := t.stdout, stderr := t.stderr, disk := t.disk }
  | .error c => { code := 1, stdout := t.stdout, stderr := t.stderr ++ c.render, disk := t.disk }

/-- The manual. -/
def manual : String :=
"Rewrite synchronized Java methods into explicit locks

Usage: syncmigrate <COMMAND>

Commands:
  migrate  Migrate every matching source file in place
  scan     List every synchronized occurrence and how it would be treated
  init     Write a default .syncmigrate.toml in the current directory
  help     Print this message or the help of the given subcommand(s)

Options:
  -h, --help     Print help
  -V, --version  Print version
"

/-- What is wrong with the arguments. -/
def usageText : UsageFault → String
  | .help | .version => ""
  | .noCommand => manual
  | .unknownCommand => "error: unrecognized subcommand\n"
  | .unknownArgument => "error: unexpected argument found\n"
  | .missingValue => "error: a value is required\n"
  | .invalidValue => "error: invalid value\n"
  | .repeated => "error: the argument cannot be used multiple times\n"
  | .unexpectedValue => "error: unexpected value\n"

/-- The end of the program without a command. -/
def Exit.ofUsage (d : Disk) : UsageFault → Exit
  | .help => { code := 0, stdout := manual, disk := d }
  | .version => { code := 0, stdout := s!"syncmigrate {CrashReport.version}\n", disk := d }
  | fault => { code := 2, stderr := usageText fault, disk := d }

/-- Runs a command. -/
def invoke (d : Disk) : Invocation → Exit
  | .migrate args => .ofTranscript (migrate d args)
  | .scan paths config json _ => .ofTranscript (scan d paths config json)
  | .init force => .ofTranscript (init d force)

/-- The variable of the environment with the number of threads. -/
def threadsVariable : String := "SYNCMIGRATE_THREADS"

/-- The command that the arguments ask for, in an environment. -/
def command (environment : List (String × String)) (args : List String) :
    Except UsageFault Invocation :=
  parse ((environment.find? (·.1 == threadsVariable)).map (·.2)) args

/-- Runs the program. -/
def program (d : Disk) (environment : List (String × String)) (args : List String) : Exit :=
  match command environment args with
  | .ok invocation => invoke d invocation
  | .error fault => .ofUsage d fault

/-! ## What a command reads -/

/-- The files in which the configuration is looked for. -/
def settingsPaths (d : Disk) : Invocation → List Path
  | .migrate { config := some path, .. } | .scan _ (some path) _ _ => [path]
  | .migrate _ | .scan .. => Disk.configPaths (Disk.spelling d.current)
  | .init _ => [configPathIn ⟨['.']⟩]

/-- The files and directories that a command goes through, on a tree that has the files of its
configuration. -/
def sourcePaths (d : Disk) : Invocation → List Path
  | .migrate args => ((resolve d args).toOption.map Config.roots).getD []
  | .scan [] config _ _ => ((d.loadConfig config).toOption.map Config.roots).getD []
  | .scan paths _ _ _ => paths
  | .init _ => []

end LockMigration.Run
