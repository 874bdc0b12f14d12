/-
The migration of a set of files. Each file is a task of its own with two steps: the first reads
the file and works out its new text, the second writes it. A file that fails is reported, and the
other files go on; a dry run does everything except write.
-/
import LockMigration.Batch.Report
import LockMigration.Error
import LockMigration.Migration

namespace LockMigration.Batch

/-- A place where files are kept. -/
class Storage (σ : Type) where
  /-- The text of a file. -/
  read : σ → Path → Except Error (List Char)
  /-- The storage after a file was given a new text. -/
  write : σ → Path → List Char → Except Error σ

/-- What is done to every file of a batch. -/
structure Job where
  migrations : List Migration
  style : Style := {}
  dryRun : Bool := false
deriving DecidableEq, Repr

/-- The state of the work on one file. -/
inductive Task where
  /-- Nothing was done yet. -/
  | waiting (path : Path)
  /-- The new text is still to be written. -/
  | writing (path : Path) (bytes : Nat) (text : List Char)
  /-- The work is over. -/
  | done (outcome : Outcome)
deriving DecidableEq, Repr

namespace Job

/-- What comes after reading a text. -/
def consider (job : Job) (path : Path) (text : List Char) : Task :=
  let bytes := Text.byteLength text
  match Migration.applyAll job.migrations job.style text with
  | .error fault => .done ⟨path, .failed (Error.source fault).message, bytes⟩
  | .ok content =>
    if !content.changed then .done ⟨path, .unchanged, bytes⟩
    else if job.dryRun then .done ⟨path, .changed, bytes⟩
    else .writing path bytes content.text

/-- One step of the work on a file. -/
def step {σ : Type} [Storage σ] (job : Job) (s : σ) : Task → σ × Task
  | .waiting path =>
    match Storage.read s path with
    | .error e => (s, .done ⟨path, .failed e.message, 0⟩)
    | .ok text => (s, job.consider path text)
  | .writing path bytes text =>
    match Storage.write s path text with
    | .error e => (s, .done ⟨path, .failed e.message, bytes⟩)
    | .ok t => (t, .done ⟨path, .changed, bytes⟩)
  | .done outcome => (s, .done outcome)

/-- All the work on a file: both steps, one after the other. -/
def process {σ : Type} [Storage σ] (job : Job) (s : σ) (path : Path) : σ × Outcome :=
  let (s, task) := job.step s (.waiting path)
  match job.step s task with
  | (s, .done outcome) => (s, outcome)
  | (s, .waiting p) => (s, ⟨p, .unchanged, 0⟩)
  | (s, .writing p bytes _) => (s, ⟨p, .unchanged, bytes⟩)

/-- The work on the files, in order. -/
def run {σ : Type} [Storage σ] (job : Job) : σ → List Path → σ × List Outcome
  | s, [] => (s, [])
  | s, path :: paths =>
    let (s, outcome) := job.process s path
    let (s, outcomes) := run job s paths
    (s, outcome :: outcomes)

/-- The storage after a batch, and its report. -/
def report {σ : Type} [Storage σ] (job : Job) (s : σ) (paths : List Path) : σ × Report :=
  let (s, outcomes) := job.run s paths
  (s, ⟨outcomes⟩)

end Job

end LockMigration.Batch
