/-
What a worker is doing, for the report of a crash: the phase, the file, and how many files of the
run are done. Entering a phase or a file saves the activity before it, and leaving restores what
was saved then, in whatever order the two ends come.
-/
import LockMigration.Path

namespace LockMigration

/-- The phases of a run. -/
inductive Phase where
  | configuration
  | fileDiscovery
  | conversion
  | writing
deriving DecidableEq, Repr

namespace Phase

/-- The name of a phase. -/
def name : Phase → String
  | .configuration => "configuration"
  | .fileDiscovery => "file_discovery"
  | .conversion => "rewriting"
  | .writing => "writing"

/-- The phase with the given name. -/
def ofName? (name : String) : Option Phase :=
  [configuration, fileDiscovery, conversion, writing].find? (·.name == name)

end Phase

/-- What a worker is doing at one moment. -/
structure Activity where
  phase : Option Phase := none
  file : Option Path := none
deriving DecidableEq, Repr

/-- The number of files done and the number of files of the run. -/
structure Tracker where
  now : Activity := {}
  /-- The activity before each entry, in the order of the entries, until it is left. -/
  saved : List (Option Activity) := []
  processed : UInt64 := 0
  total : UInt64 := 0
deriving DecidableEq, Repr

namespace Tracker

/-- Enters an activity and saves the one before it. -/
def enter (next : Activity) (t : Tracker) : Tracker :=
  { t with now := next, saved := t.saved ++ [some t.now] }

/-- Enters a phase. -/
def enterPhase (phase : Phase) (t : Tracker) : Tracker :=
  t.enter { t.now with phase := some phase }

/-- Enters a file. -/
def enterFile (file : Path) (t : Tracker) : Tracker :=
  t.enter { t.now with file := some file }

/-- Leaves the entry with the given number, counted from zero. An entry that was left already, or
that never was, changes nothing. -/
def leave (entry : Nat) (t : Tracker) : Tracker :=
  match t.saved[entry]? with
  | some (some before) => { t with now := before, saved := t.saved.set entry none }
  | _ => t

/-- Sets the two counts. -/
def setProgress (processed total : UInt64) (t : Tracker) : Tracker :=
  { t with processed, total }

/-- Counts one more file as done. The count goes round at 64 bits. -/
def increment (t : Tracker) : Tracker :=
  { t with processed := t.processed + 1 }

/-- Forgets the activity, but not the counts. -/
def reset (t : Tracker) : Tracker :=
  { t with now := {} }

end Tracker

end LockMigration
