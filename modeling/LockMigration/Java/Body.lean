/-
The body of a method: the braces that follow its modifier. Braces are counted in the raw text, so
the ones in comments and string literals count like any other.
-/
import LockMigration.Java.Occurrence

namespace LockMigration.Java

open Text

/-- The position of the first opening brace after the occurrence. -/
def openBrace (t : List Char) (o : Occurrence) : Except Fault Nat :=
  match (t.drop o.stop).findIdx? (· == '{') with
  | some k => .ok (o.stop + k)
  | none => .error (.openBraceNotFound (byteOffset t o.start))

/-- How far into the text the closing brace stands that brings the depth back to zero. -/
def closingIndex? : (depth : Int) → List Char → Option Nat
  | _, [] => none
  | depth, c :: cs =>
    if c = '{' then (closingIndex? (depth + 1) cs).map (· + 1)
    else if c = '}' then
      if depth = 1 then some 0 else (closingIndex? (depth - 1) cs).map (· + 1)
    else (closingIndex? depth cs).map (· + 1)

/-- The position of the closing brace that brings the depth, counted from the end of the
occurrence, back to zero. -/
def closeBrace (t : List Char) (o : Occurrence) : Except Fault Nat :=
  match closingIndex? 0 (t.drop o.stop) with
  | some k => .ok (o.stop + k)
  | none => .error (.closeBraceNotFound (byteOffset t o.start))

end LockMigration.Java
