/-
Glob patterns for paths. `?` stands for one character, `*` for any text, `[...]` for one character
of a class, and `**` as a whole component for any folders. Wildcards also match slashes and
leading dots; matching looks at the whole path.
-/

namespace LockMigration.Glob

/-- A member of a character class: the characters from `low` to `high`. -/
structure Range where
  low : Char
  high : Char
deriving DecidableEq, Repr

/-- A piece of a pattern. -/
inductive Piece where
  /-- The character itself. -/
  | char (c : Char)
  /-- Any one character. -/
  | anyChar
  /-- Any text. -/
  | anyText
  /-- Nothing, text that ends in a slash, or all the rest. -/
  | anyFolders
  /-- One character that is in the class, or one that is not. -/
  | oneOf (inside : Bool) (ranges : List Range)
deriving DecidableEq, Repr

/-- A pattern is a sequence of pieces. -/
abbrev Pattern := List Piece

/-! ## Matching -/

/-- All suffixes of a text, the longest first. -/
def suffixes : List Char → List (List Char)
  | [] => [[]]
  | c :: cs => (c :: cs) :: suffixes cs

/-- What can follow a run of whole folders: the text after any of its slashes, or nothing. -/
def afterFolders : List Char → List (List Char)
  | [] => [[]]
  | c :: cs => if c = '/' then cs :: afterFolders cs else afterFolders cs

/-- True for a character in one of the ranges. -/
def inRanges (ranges : List Range) (c : Char) : Bool :=
  ranges.any fun r => r.low ≤ c && c ≤ r.high

/-- True when the pattern matches the whole text. -/
def isMatch : Pattern → List Char → Bool
  | [], s => s.isEmpty
  | .anyText :: ps, s => (suffixes s).any (isMatch ps)
  | .anyFolders :: ps, s => isMatch ps s || (afterFolders s).any (isMatch ps)
  | .char _ :: _, [] => false
  | .char d :: ps, c :: cs => c == d && isMatch ps cs
  | .anyChar :: _, [] => false
  | .anyChar :: ps, _ :: cs => isMatch ps cs
  | .oneOf _ _ :: _, [] => false
  | .oneOf inside ranges :: ps, c :: cs => inRanges ranges c == inside && isMatch ps cs

/-! ## Reading -/

/-- What can be wrong with a pattern. -/
inductive FaultKind where
  /-- Three or more stars in a row. -/
  | wildcards
  /-- Two stars that are not a component of their own. -/
  | recursive
  /-- A class that is empty or not closed. -/
  | range
deriving DecidableEq, Repr

/-- A fault of a pattern at a position, counted in characters. -/
structure Fault where
  pos : Nat
  kind : FaultKind
deriving DecidableEq, Repr

/-- The wording of a kind of fault. -/
def FaultKind.message : FaultKind → String
  | .wildcards => "wildcards are either regular `*` or recursive `**`"
  | .recursive => "recursive wildcards must form a single path component"
  | .range => "invalid range pattern"

/-- The wording of a fault. -/
def Fault.message (f : Fault) : String :=
  s!"Pattern syntax error near position {f.pos}: {f.kind.message}"

/-- The ranges that the inside of a class spells; a character alone is a range of one. -/
def rangesOf : List Char → List Range
  | a :: '-' :: b :: cs => ⟨a, b⟩ :: rangesOf cs
  | a :: cs => ⟨a, a⟩ :: rangesOf cs
  | [] => []

/-- Reads a class after its opening bracket: the piece, and how many characters it took. The first
character of a class is taken as it is, also a closing bracket. -/
def readClass? (cs : List Char) : Option (Piece × Nat) :=
  let (inside, body, lead) :=
    match cs with
    | '!' :: rest => (false, rest, 1)
    | _ => (true, cs, 0)
  match body with
  | [] => none
  | first :: rest =>
    (rest.findIdx? (· == ']')).map fun k =>
      (.oneOf inside (rangesOf (first :: rest.take k)), lead + k + 2)

/-- Reads the pattern from position `i` on, where `boundary` tells whether the position is at the
start or after a slash, and `skip` how many characters were taken already. -/
def readFrom : (i : Nat) → (boundary : Bool) → (skip : Nat) → List Char → Except Fault Pattern
  | _, _, _, [] => .ok []
  | i, boundary, skip + 1, c :: cs =>
    readFrom (i + 1) (if skip = 0 then c == '/' else boundary) skip cs
  | i, boundary, 0, c :: cs =>
    match c with
    | '?' => (.anyChar :: ·) <$> readFrom (i + 1) false 0 cs
    | '[' =>
      match readClass? cs with
      | some (piece, n) => (piece :: ·) <$> readFrom (i + 1) false n cs
      | none => .error ⟨i, .range⟩
    | '*' =>
      match (c :: cs).takeWhile (· == '*') with
      | _ :: _ :: _ :: _ => .error ⟨i + 2, .wildcards⟩
      | [_, _] =>
        if !boundary then .error ⟨i - 1, .recursive⟩
        else
          match cs.drop 1 with
          | [] => .ok [.anyFolders]
          | '/' :: _ => (.anyFolders :: ·) <$> readFrom (i + 1) true 2 cs
          | _ => .error ⟨i + 2, .recursive⟩
      | _ => (.anyText :: ·) <$> readFrom (i + 1) false 0 cs
    | _ => (.char c :: ·) <$> readFrom (i + 1) (c == '/') 0 cs

/-- Reads a pattern. -/
def read (s : List Char) : Except Fault Pattern :=
  readFrom 0 true 0 s

end LockMigration.Glob
