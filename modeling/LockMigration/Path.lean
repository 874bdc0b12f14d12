/-
File paths. A path keeps the spelling it was given, and that spelling is what is printed, but two
paths are the same when their components are: repeated and trailing slashes do not matter, nor
does a dot unless it comes first. Paths are ordered component by component.
-/

namespace LockMigration

/-- A path as it is spelled. -/
structure Path where
  chars : List Char
deriving DecidableEq, Repr, Inhabited

/-- One step of a path. -/
inductive Component where
  /-- The root directory. -/
  | root
  /-- The current directory. -/
  | here
  /-- The parent directory. -/
  | up
  /-- An entry of the directory. -/
  | name (chars : List Char)
deriving DecidableEq, Repr

namespace Path

/-- The path with the given spelling. -/
def ofString (s : String) : Path := ⟨s.toList⟩

/-- The spelling of a path. -/
def display (p : Path) : String := String.ofList p.chars

/-- True for a path that starts at the root directory. -/
def isAbsolute (p : Path) : Bool :=
  p.chars.head? == some '/'

/-- The pieces between the slashes of a text that begins at position `i`, each with the position
of its end. `acc` holds the characters of the current piece in reverse. -/
def piecesFrom : (i : Nat) → (acc : List Char) → List Char → List (List Char × Nat)
  | i, acc, [] => [(acc.reverse, i)]
  | i, acc, c :: cs =>
    if c = '/' then (acc.reverse, i) :: piecesFrom (i + 1) [] cs
    else piecesFrom (i + 1) (c :: acc) cs

/-- The component that a piece of a path spells; empty pieces and dots spell none. -/
def component? : List Char → Option Component
  | [] => none
  | ['.'] => none
  | ['.', '.'] => some .up
  | piece => some (.name piece)

/-- The components of a path, each with the position of its end in the spelling. -/
def located (p : Path) : List (Component × Nat) :=
  let pieces := piecesFrom 0 [] p.chars
  let first : List (Component × Nat) :=
    if p.isAbsolute then [(.root, 1)]
    else if pieces.head?.any (·.1 == ['.']) then [(.here, 1)]
    else []
  first ++ pieces.filterMap fun (piece, stop) => (component? piece).map (·, stop)

/-- The components of a path. -/
def components (p : Path) : List Component :=
  p.located.map (·.1)

/-- True when the two paths have the same components. -/
def same (p q : Path) : Bool :=
  p.components == q.components

/-- True when the components of `q` are the first components of `p`. -/
def startsWith (p q : Path) : Bool :=
  q.components.isPrefixOf p.components

/-- The last component, if it is the name of an entry. -/
def fileName? (p : Path) : Option (List Char) :=
  match p.components.getLast? with
  | some (.name n) => some n
  | _ => none

/-- The path without its last component, cut where the component before it ends. The empty path
and the root directory have no parent. -/
def parent? (p : Path) : Option Path :=
  match p.located.reverse with
  | [] => none
  | (.root, _) :: _ => none
  | [_] => some ⟨[]⟩
  | _ :: (_, stop) :: _ => some ⟨p.chars.take stop⟩

/-- The path `q` seen from `p`. An absolute path stays as it is. -/
def join (p q : Path) : Path :=
  if q.isAbsolute then q
  else if p.chars = [] ∨ p.chars.getLast? = some '/' then ⟨p.chars ++ q.chars⟩
  else ⟨p.chars ++ '/' :: q.chars⟩

/-- The path and its parents, nearest first, `count` at most. -/
def ancestors (p : Path) : (count : Nat) → List Path
  | 0 => []
  | count + 1 => p :: (p.parent?.map (ancestors · count)).getD []

end Path

/-- The order of two texts by code points, the shorter first if it begins the longer. -/
def compareChars : List Char → List Char → Ordering
  | [], [] => .eq
  | [], _ :: _ => .lt
  | _ :: _, [] => .gt
  | a :: as, b :: bs => (compare a.toNat b.toNat).then (compareChars as bs)

namespace Component

/-- The rank of the kinds of components in the order of paths. -/
def rank : Component → Nat
  | .root => 0
  | .here => 1
  | .up => 2
  | .name _ => 3

/-- The order of components: by kind, names by code points. -/
def compare : Component → Component → Ordering
  | .name a, .name b => compareChars a b
  | a, b => Ord.compare a.rank b.rank

end Component

/-- The order of component lists, from left to right. -/
def compareComponents : List Component → List Component → Ordering
  | [], [] => .eq
  | [], _ :: _ => .lt
  | _ :: _, [] => .gt
  | a :: as, b :: bs => (a.compare b).then (compareComponents as bs)

/-- The order of paths. -/
def Path.compare (p q : Path) : Ordering :=
  compareComponents p.components q.components

end LockMigration
