/-
What can be wrong with the structure of a source text. Each fault names the place it speaks of by
its byte offset in the text that was being read.
-/

namespace LockMigration.Java

/-- The reasons why a source text cannot be converted. -/
inductive Fault where
  /-- No opening brace follows a method's modifier. -/
  | openBraceNotFound (offset : Nat)
  /-- The body that follows a method's modifier is never closed. -/
  | closeBraceNotFound (offset : Nat)
  /-- The keyword is followed by blanks only. -/
  | unclassifiable (offset : Nat)
  /-- A package declaration has no semicolon. -/
  | packageUnterminated (offset : Nat)
deriving DecidableEq, Repr

/-- The wording of a fault. -/
def Fault.message : Fault → String
  | .openBraceNotFound n => s!"Structural error: no opening brace after offset {n}"
  | .closeBraceNotFound n => s!"Structural error: no matching closing brace after offset {n}"
  | .unclassifiable n => s!"Structural error: cannot classify `synchronized` at offset {n}"
  | .packageUnterminated n =>
    s!"Structural error: package declaration at offset {n} has no terminating ';'"

/-- The offset that a fault names. -/
def Fault.offset : Fault → Nat
  | .openBraceNotFound n | .closeBraceNotFound n | .unclassifiable n | .packageUnterminated n => n

end LockMigration.Java
