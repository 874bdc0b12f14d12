/-
The splices that turn one synchronized method into a method with an explicit lock: the body gets a
guard, the class gets the lock's fields, the keyword goes, and the file gets an import.
-/
import LockMigration.Java.Body
import LockMigration.Java.MemberStart
import LockMigration.Java.Package
import LockMigration.Locker

namespace LockMigration.Conversion

open Text Java

/-- Puts the lock's guard inside the braces at positions `opening` and `closing`. -/
def insertTry (l : Locker) (t : List Char) (opening closing index indent : Nat) : List Char :=
  t.take (opening + 1) ++ l.openTry index indent ++ slice t (opening + 1) closing ++
    l.closeTry index indent ++ t.drop closing

/-- What stands in place of the keyword and the blanks around it. The leading blanks are kept when
they hold a line break, so a signature that starts its line stays where it was; other leading
blanks become one space. -/
def separator (leading : List Char) : List Char :=
  if leading.any isLineBreak then leading
  else if leading.head?.any isBlank then [' ']
  else []

/-- Puts the lock's fields where the member begins and takes the keyword out. -/
def insertDeclarations (l : Locker) (t : List Char) (o : Occurrence) (index indent : Nat) :
    List Char :=
  let pos := memberStart t o
  t.take pos ++ l.declarations index indent ++ slice t pos o.start ++
    separator (slice t o.start (o.keyword t)) ++ t.drop o.stop

/-- Gives the method at the occurrence an explicit lock. The body is changed first: it lies after
the occurrence, so the occurrence stays where it is. -/
def lockMethod (l : Locker) (t : List Char) (o : Occurrence) (index indent : Nat) :
    Except Fault (List Char) := do
  let opening ← openBrace t o
  let closing ← closeBrace t o
  return insertDeclarations l (insertTry l t opening closing index indent) o index indent

/-- Adds the import after the package declaration, or at the top of a text without one. -/
def insertImport (l : Locker) (t : List Char) : Except Fault (List Char) :=
  (packageEnd? t).map fun
    | some pos => t.take pos ++ ['\n', '\n'] ++ l.importLine ++ t.drop pos
    | none => l.importLine ++ ['\n', '\n'] ++ t

end LockMigration.Conversion
