/-
The registry of whole-file migrations. A migration belongs to the Java version that made it
worthwhile; a run applies the ones between the version the code is written for and the version it
moves to.
-/
import LockMigration.Conversion.Draft

namespace LockMigration

/-- The migrations. -/
inductive Migration where
  /-- Gives synchronized methods explicit locks. -/
  | synchronizedToLock
deriving DecidableEq, Repr

namespace Migration

/-- Every migration. -/
def all : List Migration := [.synchronizedToLock]

/-- The Java version of a migration. -/
def version : Migration → Nat
  | .synchronizedToLock => 21

/-- The name of a migration. -/
def name : Migration → String
  | .synchronizedToLock => "synchronized-to-lock"

/-- The name of a migration with its version. -/
def title (m : Migration) : String :=
  s!"{m.name} (Java {m.version})"

/-- The outcome of a migration on a text. -/
def apply (m : Migration) (style : Style) (t : List Char) : Except Java.Fault Content :=
  match m with
  | .synchronizedToLock => Conversion.convert style t

/-- The migrations after version `start` and up to version `target`, oldest first. -/
def applicable (start target : Nat) : List Migration :=
  (all.filter fun m => start < m.version && m.version ≤ target).mergeSort
    fun a b => a.version ≤ b.version

/-- The outcome of the migrations on a text, one after the other. -/
def applyAll (ms : List Migration) (style : Style) (t : List Char) : Except Java.Fault Content :=
  ms.foldlM (fun acc m => acc.andThen <$> m.apply style acc.text) ⟨t, false⟩

end Migration

end LockMigration
