/-
The report of a batch: one outcome per file in the order of the files, and the counts.
-/
import LockMigration.Decimal.Shortest
import LockMigration.Path

namespace LockMigration.Batch

/-- What became of a file. -/
inductive Status where
  | unchanged
  | changed
  | failed (reason : String)
deriving DecidableEq, Repr

/-- What became of the file at a path, and how many bytes were read from it. -/
structure Outcome where
  path : Path
  status : Status
  bytes : Nat
deriving DecidableEq, Repr

/-- Why a file failed. -/
def Outcome.reason? (o : Outcome) : Option String :=
  match o.status with
  | .failed reason => some reason
  | _ => none

/-- The outcomes of a batch. -/
structure Report where
  outcomes : List Outcome
deriving DecidableEq, Repr

namespace Report

/-- The number of files. -/
def discovered (r : Report) : Nat :=
  r.outcomes.length

/-- The number of files that changed. -/
def changed (r : Report) : Nat :=
  r.outcomes.countP fun o => o.status == .changed

/-- The number of files that failed. -/
def failed (r : Report) : Nat :=
  r.outcomes.countP fun o => o.reason?.isSome

/-- The number of files that needed no change. -/
def unchanged (r : Report) : Nat :=
  r.discovered - r.changed - r.failed

/-- The number of bytes that were read. -/
def bytesRead (r : Report) : Nat :=
  r.outcomes.foldr (·.bytes + ·) 0

/-- True when no file failed. -/
def isSuccess (r : Report) : Bool :=
  r.failed == 0

/-- The files that failed, with the reasons. -/
def failures (r : Report) : List (Path × String) :=
  r.outcomes.filterMap fun o => o.reason?.map (o.path, ·)

/-- The number of files per second, in the double format; zero if no time went by. -/
def filesPerSecond (r : Report) (milliseconds : Nat) : Decimal.Binary :=
  let rate : Option Decimal.Binary := do
    let whole ← Decimal.Binary.ofNat (milliseconds / 1000)
    let part ← Decimal.Binary.nearest (milliseconds % 1000) 1000
    (← Decimal.Binary.ofNat r.discovered).div (← whole.add part)
  rate.getD ⟨0, Decimal.Binary.leastExponent⟩

/-- The time that a run took, in milliseconds or seconds. -/
def duration (milliseconds : Nat) : String :=
  if milliseconds < 1000 then s!"{milliseconds}.00ms"
  else ((Decimal.Binary.nearest milliseconds 1000).map (·.fixed 2)).getD "0.00" ++ "s"

/-- The line that sums the report up, with the time if it is known. -/
def summary (r : Report) (dryRun : Bool) (milliseconds : Option Nat) : String :=
  let verb := if dryRun then "would change" else "changed"
  let time := (milliseconds.map fun ms =>
    " in " ++ duration ms ++ ", " ++ (r.filesPerSecond ms).fixed 1 ++ " files/sec").getD ""
  s!"Processed {r.discovered} files, {r.changed} {verb}, {r.unchanged} unchanged, " ++
    s!"{r.failed} failed ({r.bytesRead} bytes{time})"

end Report

end LockMigration.Batch
