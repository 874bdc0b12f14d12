/-
Values from the command line of a migration, and how they are laid over a configuration: a value
that is given wins, patterns are added after the file's, and settings go in front of the file's,
the lock class first of all.
-/
import LockMigration.Config.Basic

namespace LockMigration

/-- The values of a `migrate` command. -/
structure MigrateArgs where
  paths : List Path := []
  config : Option Path := none
  threads : Option Nat := none
  indent : Option Nat := none
  locker : Option Locker := none
  startVersion : Option Nat := none
  targetVersion : Option Nat := none
  exclude : List String := []
  metas : List (String × String) := []
  dryRun : Bool := false
  quiet : Bool := false
  verbosity : Nat := 0
deriving DecidableEq, Repr

/-- The settings with the command line's in front, the lock class before the others. -/
def MigrateArgs.overrideMetas (args : MigrateArgs) (file : Metas) : Metas :=
  let given := args.metas.foldr (fun (key, value) m => m.pushFront key value) file
  match args.locker with
  | some l => given.pushFront lockerKey l.className
  | none => given

/-- The configuration with the values of the command line laid over it. -/
def MigrateArgs.applyTo (args : MigrateArgs) (c : Config) : Config :=
  { c with
    startingPaths := if args.paths.isEmpty then c.startingPaths else args.paths
    threads := args.threads.getD c.threads
    indent := args.indent.getD c.indent
    startVersion := args.startVersion.getD c.startVersion
    targetVersion := args.targetVersion.getD c.targetVersion
    excludePaths := c.excludePaths ++ args.exclude
    metas := args.overrideMetas c.metas }

end LockMigration
