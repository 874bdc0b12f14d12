/-
The context of a position in Java source: the line it is on, whether it lies in a comment, and
whether a string literal was opened before it on its line. The rules read the raw text and build
no token stream, so they are heuristics: markers inside string literals count, and quotes are not
paired.
-/
import LockMigration.Text.Marks

namespace LockMigration.Java

open Text

/-- The characters that end a line. -/
def isLineBreak (c : Char) : Bool :=
  c == '\n' || c == '\r'

/-- The position of the last line break before `pos`, or the start of the text. -/
def lineStart (t : List Char) (pos : Nat) : Nat :=
  (lastBefore? pos (positionsOf isLineBreak t)).getD 0

/-- True when something was opened and not closed after that. -/
def pending : (opened closed : Option Nat) → Bool
  | some o, some c => c < o
  | some _, none => true
  | none, _ => false

/-- True when the last block comment opener that begins at or before `pos` is not followed by a
closer that begins at or before `pos`. -/
def inBlockComment (t : List Char) (pos : Nat) : Bool :=
  pending (lastBefore? (pos + 1) (startsOf ['/', '*'] t)) (lastBefore? (pos + 1) (startsOf ['*', '/'] t))

/-- True when two slashes stand between the last line break and the end of the character at
`pos`. -/
def inLineComment (t : List Char) (pos : Nat) : Bool :=
  pending (lastBefore? pos (startsOf ['/', '/'] t)) (lastBefore? (pos + 1) (positionsOf isLineBreak t))

/-- True when `pos` lies in a comment of either kind. -/
def inComment (t : List Char) (pos : Nat) : Bool :=
  inBlockComment t pos || inLineComment t pos

/-- True when a double quote stands before `pos` on its line. -/
def afterQuote (t : List Char) (pos : Nat) : Bool :=
  (positionsOf (· == '"') t).any fun q => lineStart t pos ≤ q && q < pos

end LockMigration.Java
