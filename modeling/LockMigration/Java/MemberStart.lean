/-
Where a member of a class begins: after the previous member and before the annotations of its
own. Generated fields go there, so the annotations stay with the method they belong to.
-/
import LockMigration.Java.Occurrence

namespace LockMigration.Java

open Text

/-- The characters that end a member or open a body. -/
def isDelimiter (c : Char) : Bool :=
  c == ';' || c == '{' || c == '}'

/-- The nearest delimiter before `pos` that is not in a comment. -/
def previousDelimiter (t : List Char) (pos : Nat) : Option Nat :=
  ((positionsOf isDelimiter t).filter (· < pos)).reverse.find? (fun i => !inComment t i)

/-- The first annotation sign after `low`, up to and including `high`, that is not in a comment. -/
def annotationSign (t : List Char) (low high : Nat) : Option Nat :=
  ((positionsOf (· == '@') t).filter (fun i => low < i && i ≤ high)).find? (fun i => !inComment t i)

/-- The start of the line of the first annotation after `low`, up to and including `high`. -/
def annotationLine (t : List Char) (low high : Nat) : Option Nat :=
  (annotationSign t low high).map (lineStart t)

/-- The position at which the fields for the occurrence are inserted: just after the previous
delimiter, or at the line of the first annotation if that comes later. -/
def memberStart (t : List Char) (o : Occurrence) : Nat :=
  let delimiter := (previousDelimiter t o.start).getD 0
  let annotation := (annotationLine t delimiter o.start).getD 0
  let pos := max delimiter (min annotation (lineStart t o.start))
  if pos = 0 ∨ pos = annotation then pos else pos + 1

end LockMigration.Java
