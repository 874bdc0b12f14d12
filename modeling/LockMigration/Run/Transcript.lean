/-
What a command leaves behind: its value or its complaint, what it printed, and the tree.
-/
import LockMigration.Disk.Basic
import LockMigration.Run.Complaint

namespace LockMigration.Run

/-- The end of a command. -/
structure Transcript (α : Type) where
  result : Except Complaint α
  stdout : String := ""
  stderr : String := ""
  disk : Disk

/-- The end of a command that only complains. -/
def Transcript.complain (d : Disk) (c : Complaint) : Transcript α :=
  { result := .error c, disk := d }

end LockMigration.Run
