/-
The conversion of a whole file. A draft is the text so far, a cursor, and the index of the next
lock. One step looks at the first occurrence past the cursor: a method is given its lock, and the
search starts again at the top of the new text; any other occurrence only moves the cursor. The
draft is finished when nothing is found, and a file in which a method changed gets its import.
-/
import LockMigration.Conversion.Splice

namespace LockMigration

open Java

/-- The text of a file after a step of work, and whether any step so far changed it. -/
structure Content where
  text : List Char
  changed : Bool
deriving DecidableEq, Repr

/-- The outcome of this step followed by a later one. -/
def Content.andThen (first later : Content) : Content :=
  ⟨later.text, first.changed || later.changed⟩

/-- What a conversion generates: the lock class and the width of one level of indentation. -/
structure Style where
  indent : Nat := 4
  locker : Locker := .reentrantReadWriteLock
deriving DecidableEq, Repr

namespace Conversion

/-- The index of the first lock of a file. -/
def firstIndex : Nat := 1

/-- A file in the middle of its conversion. -/
structure Draft where
  text : List Char
  cursor : Option Nat
  index : Nat
deriving DecidableEq, Repr

namespace Draft

/-- A file before its conversion. -/
def start (source : List Char) : Draft :=
  ⟨source, none, firstIndex⟩

/-- One step, or none when no occurrence lies past the cursor. -/
def step (style : Style) (d : Draft) : Except Fault (Option Draft) := do
  match ← firstPosition d.text d.cursor with
  | none => return none
  | some o =>
    match o.kind with
    | .method =>
      let text ← lockMethod style.locker d.text o d.index style.indent
      return some ⟨text, none, d.index + 1⟩
    | .monitor | .comment | .quoted => return some { d with cursor := some o.start }

/-- At most `bound` steps. -/
def run (style : Style) : (bound : Nat) → Draft → Except Fault Draft
  | 0, d => .ok d
  | bound + 1, d => do
    match ← d.step style with
    | none => return d
    | some next => run style bound next

/-- Enough steps for any text: a step on a method takes a keyword out, and between two of them
the cursor passes each keyword at most once. -/
def bound (source : List Char) : Nat :=
  let count := (Text.startsOf keyword source).length
  (count + 1) * (count + 1)

/-- The finished draft of a source, before the import. -/
def finish (style : Style) (source : List Char) : Except Fault Draft :=
  run style (bound source) (start source)

end Draft

/-- Gives every synchronized method of the source an explicit lock. -/
def convert (style : Style) (source : List Char) : Except Fault Content := do
  let draft ← Draft.finish style source
  if draft.index = firstIndex then return ⟨draft.text, false⟩
  else return ⟨← insertImport style.locker draft.text, true⟩

end Conversion

end LockMigration
