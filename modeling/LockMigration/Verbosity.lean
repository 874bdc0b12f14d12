/-
How much a run says: the level of its log, and whether it shows a progress bar.
-/

namespace LockMigration

/-- The level of the log for a count of verbosity flags. -/
def logLevel : Nat → String
  | 0 => "warn"
  | 1 => "info"
  | 2 => "debug"
  | _ => "trace"

/-- What a run shows of its progress. -/
structure ProgressDisplay where
  quiet : Bool := false
  verbosity : Nat := 0
deriving DecidableEq, Repr

/-- The display that the flags and the environment ask for. -/
def ProgressDisplay.ofFlags (quiet quietEnvironment : Bool) (verbosity : Nat) : ProgressDisplay :=
  ⟨quiet || quietEnvironment, verbosity⟩

/-- True when a progress bar is shown: on a terminal, unless the run is quiet. -/
def ProgressDisplay.isShown (d : ProgressDisplay) (terminal : Bool) : Bool :=
  !d.quiet && terminal

end LockMigration
