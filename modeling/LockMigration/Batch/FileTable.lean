/-
Files kept in memory: rows of a path and a text. Paths that are the same name the same row.
-/
import LockMigration.Batch.Task

namespace LockMigration.Batch

/-- Files in memory. -/
structure FileTable where
  rows : List (Path × List Char) := []
deriving DecidableEq, Repr

namespace FileTable

/-- The text of a file. -/
def get? (t : FileTable) (path : Path) : Option (List Char) :=
  (t.rows.find? (·.1.same path)).map (·.2)

/-- Gives a file a text, and adds the file if it is not there. -/
def put (path : Path) (text : List Char) (t : FileTable) : FileTable :=
  if t.rows.any (·.1.same path) then
    ⟨t.rows.map fun row => if row.1.same path then (row.1, text) else row⟩
  else ⟨t.rows ++ [(path, text)]⟩

instance : Storage FileTable where
  read t path :=
    match t.get? path with
    | some text => .ok text
    | none => .error (.fileSystem path .noEntry)
  write t path text := .ok (t.put path text)

end FileTable

end LockMigration.Batch
