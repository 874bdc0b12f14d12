/-
The list of all occurrences of a file, as it is reported: the line of the keyword, and the ends of
the occurrence as byte offsets.
-/
import LockMigration.Java.Occurrence
import LockMigration.Path

namespace LockMigration.Java

/-- An occurrence in a file. -/
structure ScanEntry where
  path : Path
  /-- The line of the keyword, counted from one. -/
  line : Nat
  start : Nat
  stop : Nat
  kind : Kind
deriving DecidableEq, Repr

/-- The line of a position, counted from one. -/
def lineNumber (t : List Char) (pos : Nat) : Nat :=
  (t.take pos).count '\n' + 1

/-- The report of an occurrence. -/
def ScanEntry.ofOccurrence (path : Path) (t : List Char) (o : Occurrence) : ScanEntry :=
  let (start, stop) := o.byteSpan t
  ⟨path, lineNumber t (o.keyword t), start, stop, o.kind⟩

/-- Every occurrence of a text, in order. -/
def scanSource (path : Path) (t : List Char) : Except Fault (List ScanEntry) :=
  (positions t none false).map fun os => os.map (ScanEntry.ofOccurrence path t)

end LockMigration.Java
