/-
Lock primitives that a synchronized method can be given instead of its monitor. A primitive is a
set of text generators: the import, the field declarations, and the statements that open and close
the guarded body.
-/
import LockMigration.Text.Blank

namespace LockMigration

open Text

/-- The lock classes. -/
inductive Locker where
  | reentrantReadWriteLock
  | stampedLock
deriving DecidableEq, Repr, Inhabited

namespace Locker

/-- Every lock class, in the order in which names are tried. -/
def all : List Locker := [.reentrantReadWriteLock, .stampedLock]

/-- The simple name of the class. -/
def className : Locker → String
  | .reentrantReadWriteLock => "ReentrantReadWriteLock"
  | .stampedLock => "StampedLock"

/-- The class with the given name. Blanks around the name and the case of ASCII letters do not
matter. -/
def ofName? (name : String) : Option Locker :=
  all.find? fun l => l.className.toList.map lowerAscii == (trim name.toList).map lowerAscii

/-- The import statement of the class. -/
def importLine (l : Locker) : List Char :=
  "import java.util.concurrent.locks.".toList ++ l.className.toList ++ [';']

/-- The decimal digits of a lock's index. -/
def digits (index : Nat) : List Char :=
  Nat.toDigits 10 index

/-- A run of spaces. -/
def pad (width : Nat) : List Char :=
  List.replicate width ' '

/-- The name of the variable that a guarded body locks and unlocks. -/
def handle (l : Locker) (index : Nat) : List Char :=
  match l with
  | .reentrantReadWriteLock => "writeLock".toList ++ digits index
  | .stampedLock => "lock".toList ++ digits index

/-- The field declarations of lock `index`, after a blank line. -/
def declarations (l : Locker) (index indent : Nat) : List Char :=
  let n := digits index
  match l with
  | .reentrantReadWriteLock =>
    "\n\n".toList ++
    pad indent ++ "private static final ReentrantReadWriteLock lock".toList ++ n ++
      " = new ReentrantReadWriteLock();\n".toList ++
    pad indent ++ "private static final ReentrantReadWriteLock.ReadLock readLock".toList ++ n ++
      " = lock".toList ++ n ++ ".readLock();\n".toList ++
    pad indent ++ "private static final ReentrantReadWriteLock.WriteLock writeLock".toList ++ n ++
      " = lock".toList ++ n ++ ".writeLock();\n".toList
  | .stampedLock =>
    "\n\n".toList ++
    pad indent ++ "private static final StampedLock lock".toList ++ n ++
      " = new StampedLock();\n".toList

/-- The text that follows the opening brace of a guarded body. -/
def openTry (l : Locker) (index indent : Nat) : List Char :=
  '\n' :: pad (indent * 2) ++ l.handle index ++ ".lock();\n".toList ++
    pad (indent * 2) ++ "try \x7b".toList

/-- The text that precedes the closing brace of a guarded body. -/
def closeTry (l : Locker) (index indent : Nat) : List Char :=
  pad indent ++ "\x7d finally \x7b\n".toList ++
    pad (indent * 2) ++ "    ".toList ++ l.handle index ++ ".unlock();\n".toList ++
    pad (indent * 2) ++ "\x7d\n".toList ++ pad indent

end Locker

end LockMigration
