/-
The command that migrates files: it finds its configuration, lays the command line over it,
selects the files, migrates them in place, and sums up.
-/
import LockMigration.Batch.Task
import LockMigration.Config.Overrides
import LockMigration.Disk.Settings
import LockMigration.Disk.Walk
import LockMigration.Run.Transcript

namespace LockMigration

instance : Batch.Storage Disk where
  read d path :=
    match d.readText path with
    | .ok text => .ok text.toList
    | .error fault => .error (.fileSystem path fault)
  write d path text :=
    (d.overwriteText path (String.ofList text)).mapError (.fileSystem path ·)

namespace Run

/-- Migrates the files that a configuration selects. -/
def batch (d : Disk) (c : Config) (dryRun : Bool) : Except Error (Disk × Batch.Report) := do
  c.validate
  let style : Style := { indent := c.indent, locker := ← c.locker }
  let migrations := Migration.applicable c.startVersion c.targetVersion
  let files ← d.sourceFiles c
  return Batch.Job.report { migrations, style, dryRun } d files

/-- The configuration of a migration. -/
def resolve (d : Disk) (args : MigrateArgs) : Except Complaint Config := do
  let file ← (d.loadConfig args.config).mapError fun e =>
    (Complaint.ofError e).under "Failed to load configuration"
  let c := args.applyTo file
  c.validate.mapError fun e => (Complaint.ofError e).under "Invalid configuration"
  return c

/-- The lines about the files that failed. -/
def failureLines (r : Batch.Report) : String :=
  String.join (r.failures.map fun (path, reason) => s!"failed {path.display}: {reason}\n")

/-- The work of the command, without what it prints. -/
def attempt (d : Disk) (args : MigrateArgs) : Except Complaint (Disk × Batch.Report) := do
  let c ← resolve d args
  (batch d c args.dryRun).mapError Complaint.ofError

/-- What the command leaves behind after its work. Files that failed make it complain, after
everything is printed. The time is printed if it is known. -/
def sumUp (d : Disk) (args : MigrateArgs) (milliseconds : Option Nat) :
    Except Complaint (Disk × Batch.Report) → Transcript Batch.Report
  | .error complaint => .complain d complaint
  | .ok (after, report) =>
    { result :=
        if report.isSuccess then .ok report
        else .error ⟨s!"{report.failed} file(s) failed to migrate", []⟩
      stdout := if args.quiet then "" else report.summary args.dryRun milliseconds ++ "\n"
      stderr := if args.quiet then "" else failureLines report
      disk := after }

/-- Runs the command. -/
def migrate (d : Disk) (args : MigrateArgs) : Transcript Batch.Report :=
  sumUp d args none (attempt d args)

end Run

end LockMigration
