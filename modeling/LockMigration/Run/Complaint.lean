/-
The failure of a command: what is said first, and the causes below it.
-/
import LockMigration.Error

namespace LockMigration.Run

/-- A failure with its causes, the nearest first. -/
structure Complaint where
  text : String
  causes : List String := []
deriving DecidableEq, Repr

namespace Complaint

/-- The complaint about an error. -/
def ofError (e : Error) : Complaint :=
  ⟨e.message, e.cause?.toList⟩

/-- The complaint below a heading. -/
def under (heading : String) (c : Complaint) : Complaint :=
  ⟨heading, c.text :: c.causes⟩

/-- All texts in one line. -/
def chain (c : Complaint) : String :=
  String.intercalate ": " (c.text :: c.causes)

/-- A cause after its mark, with its further lines below the first. -/
def indented (mark margin : String) (text : String) : String :=
  mark ++ String.ofList (text.toList.flatMap fun c => if c = '\n' then c :: margin.toList else [c])

/-- The causes, numbered if there are several. -/
def causeLines (c : Complaint) : List String :=
  match c.causes with
  | [cause] => [indented "    " "    " cause]
  | causes => causes.mapIdx fun i cause => indented s!"    {i}: " "       " cause

/-- The report of the failure. -/
def render (c : Complaint) : String :=
  let causes :=
    if c.causes.isEmpty then ""
    else "\n\nCaused by:\n" ++ String.intercalate "\n" c.causeLines
  s!"Error: {c.text}{causes}\n"

end Complaint

end LockMigration.Run
