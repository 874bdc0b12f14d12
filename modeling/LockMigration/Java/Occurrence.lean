/-
Occurrences of the keyword `synchronized`. A token is the keyword between a run of blanks and
either another run of blanks or an opening parenthesis. Every token has a role: only method
modifiers are converted, the other kinds are there to be stepped over. `positions` lists the
occurrences of a text in order, and `firstPosition` gives the first one after a cursor.
-/
import LockMigration.Java.Context
import LockMigration.Java.Fault
import LockMigration.Text.Blank
import LockMigration.Text.Offset

namespace LockMigration.Java

open Text

/-- The modifier that the library looks for. -/
def keyword : List Char := "synchronized".toList

/-! ## Tokens -/

/-- The keyword at position `keyword`, with the blanks around it from `start` up to `stop`. -/
structure Token where
  start : Nat
  keyword : Nat
  stop : Nat
deriving DecidableEq, Repr

/-- How many characters of the text after the keyword belong to the token: the parenthesis, or
all the blanks. -/
def closingLength? : List Char → Option Nat
  | [] => none
  | c :: cs =>
    if c == '(' then some 1
    else if isBlank c then some ((c :: cs).takeWhile isBlank).length
    else none

/-- The length of a token's part from the keyword on, if the text begins with one. -/
def keywordLength? (t : List Char) : Option Nat :=
  if keyword.isPrefixOf t then (closingLength? (t.drop keyword.length)).map (keyword.length + ·)
  else none

/-- The tokens of the text that begins at position `i`, where `run` is the start of the run of
blanks that ends just before it. -/
def tokensFrom : (i : Nat) → (run : Option Nat) → List Char → List Token
  | _, _, [] => []
  | i, run, c :: cs =>
    if isBlank c then tokensFrom (i + 1) (some (run.getD i)) cs
    else
      match run, keywordLength? (c :: cs) with
      | some s, some n => ⟨s, i, i + n⟩ :: tokensFrom (i + 1) none cs
      | _, _ => tokensFrom (i + 1) none cs

/-- The tokens of a text in order. -/
def tokens (t : List Char) : List Token :=
  tokensFrom 0 none t

/-! ## Kinds -/

/-- The role of a token in the source. -/
inductive Kind where
  /-- A method modifier. -/
  | method
  /-- The head of a monitor block. -/
  | monitor
  /-- Inside a comment. -/
  | comment
  /-- On a line that has opened a string literal. -/
  | quoted
deriving DecidableEq, Repr

/-- The name of a kind in reports. -/
def Kind.name : Kind → String
  | .method => "method"
  | .monitor => "object"
  | .comment => "comment"
  | .quoted => "variable"

/-- The role of the token that spans `start` to `stop`. It fails when nothing but blanks follows
a token that is neither in a comment nor after a quote. -/
def classify (t : List Char) (start stop : Nat) : Except Fault Kind :=
  if inComment t start then .ok .comment
  else if afterQuote t start then .ok .quoted
  else if (slice t start stop).getLast? == some '(' then .ok .monitor
  else
    match (t.drop stop).find? (fun c => !isBlank c) with
    | some '(' => .ok .monitor
    | some _ => .ok .method
    | none => .error (.unclassifiable (byteOffset t start))

/-! ## Occurrences -/

/-- A token with its role. The ends are character positions. -/
structure Occurrence where
  start : Nat
  stop : Nat
  kind : Kind
deriving DecidableEq, Repr

/-- The occurrence between two byte offsets of the text. -/
def Occurrence.ofBytes (t : List Char) (start stop : Nat) (kind : Kind) : Occurrence :=
  ⟨position t start, position t stop, kind⟩

/-- The two ends of an occurrence as byte offsets of the text. -/
def Occurrence.byteSpan (t : List Char) (o : Occurrence) : Nat × Nat :=
  (byteOffset t o.start, byteOffset t o.stop)

/-- The position of the keyword in an occurrence, past the leading blanks. -/
def Occurrence.keyword (t : List Char) (o : Occurrence) : Nat :=
  o.start + (startsOf Java.keyword (slice t o.start o.stop)).head?.getD 0

/-- The token with its role in the text. -/
def Token.classified (t : List Char) (k : Token) : Except Fault Occurrence :=
  (classify t k.start k.stop).map (⟨k.start, k.stop, ·⟩)

/-- True for a position strictly after the cursor; without a cursor every position is. -/
def isPast (cursor : Option Nat) (pos : Nat) : Bool :=
  cursor.all (· < pos)

/-- The occurrences that start strictly after `cursor`, in order; only the first of them with
`onlyFirst`. -/
def positions (t : List Char) (cursor : Option Nat) (onlyFirst : Bool) :
    Except Fault (List Occurrence) :=
  let found := (tokens t).filter (fun k => isPast cursor k.start)
  (if onlyFirst then found.take 1 else found).mapM (Token.classified t)

/-- The first occurrence that starts strictly after `cursor`. -/
def firstPosition (t : List Char) (cursor : Option Nat) : Except Fault (Option Occurrence) :=
  (positions t cursor true).map List.head?

end LockMigration.Java
