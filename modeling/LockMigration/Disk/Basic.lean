/-
A tree of files, directories and symbolic links, as a program sees it: paths are followed from the
working directory or the root, through links, and the ways in which that fails are those of a
Unix system.
-/
import LockMigration.Error
import LockMigration.Text.Offset

namespace LockMigration

/-- The names on the way from the root directory to an entry. -/
abbrev Location := List (List Char)

/-- An entry of the tree. -/
inductive Entry where
  | file (bytes : ByteArray)
  | directory
  | link (target : Path)

/-- True for a file with the given bytes. -/
def Entry.holds (bytes : ByteArray) : Entry → Bool
  | .file other => other.data.toList == bytes.data.toList
  | .directory | .link _ => false

/-- A tree with a working directory. The root directory is always there. -/
structure Disk where
  entries : List (Location × Entry) := []
  current : Location := []

namespace Disk

/-- The entry at a location. -/
def entry? (d : Disk) (loc : Location) : Option Entry :=
  if loc.isEmpty then some .directory else (d.entries.find? (·.1 == loc)).map (·.2)

/-- The names in a directory, in the order in which they were made. -/
def names (d : Disk) (dir : Location) : List (List Char) :=
  d.entries.filterMap fun (loc, _) => if loc.dropLast == dir then loc.getLast? else none

/-- Puts an entry at a location, in place of the one that is there. -/
def set (loc : Location) (e : Entry) (d : Disk) : Disk :=
  if d.entries.any (·.1 == loc) then
    { d with entries := d.entries.map fun row => if row.1 == loc then (loc, e) else row }
  else { d with entries := d.entries ++ [(loc, e)] }

/-- The spelling of a location. -/
def spelling (loc : Location) : Path :=
  if loc.isEmpty then ⟨['/']⟩ else ⟨loc.flatMap ('/' :: ·)⟩

/-! ## Following paths -/

/-- A step on the way to an entry. -/
inductive Hop where
  /-- To the parent directory. -/
  | up
  /-- A dot, which stays in the directory. -/
  | stay
  /-- A slash at the end of a path, after which only a directory can have been meant. -/
  | slash
  /-- To an entry of the directory. -/
  | name (chars : List Char)
deriving DecidableEq, Repr

/-- The step that a piece of a path stands for. -/
def hop? : List Char → Option Hop
  | [] => none
  | ['.'] => some .stay
  | ['.', '.'] => some .up
  | piece => some (.name piece)

/-- The steps of a path. -/
def hops (p : Path) : List Hop :=
  (Path.piecesFrom 0 [] p.chars).filterMap (fun (piece, _) => hop? piece) ++
    if p.chars.getLast? = some '/' then [.slash] else []

/-- Where a path leads. -/
inductive Target where
  /-- To an entry that is there and is no link. -/
  | found (loc : Location)
  /-- To a name that is not there, in a directory that is. -/
  | absent (loc : Location)
deriving DecidableEq, Repr

/-- How many links can follow each other. -/
def linkLimit : Nat := 40

/-- How many bytes a name can have. -/
def nameLimit : Nat := 255

/-- How many bytes a path can have. -/
def pathLimit : Nat := 4095

/-- Follows steps from a directory. `links` bounds the number of links on the way. With `creating`
the way ends at a file that may have to be made, and its name takes no slash after it. -/
def follow (d : Disk) (creating : Bool) (links : Nat) (here : Location) :
    List Hop → Except IoFault Target
  | [] => .ok (.found here)
  | .stay :: rest | .slash :: rest => follow d creating links here rest
  | .up :: rest => follow d creating links here.dropLast rest
  | .name n :: rest =>
    let loc := here ++ [n]
    if creating && rest == [.slash] then .error .isDirectory
    else if Text.byteLength n > nameLimit then .error .nameTooLong
    else
      match d.entry? loc with
      | none => if rest.isEmpty then .ok (.absent loc) else .error .missing
      | some .directory => follow d creating links loc rest
      | some (.file _) => if rest.isEmpty then .ok (.found loc) else .error .notDirectory
      | some (.link target) =>
        match links with
        | 0 => .error .linkLoop
        | links + 1 =>
          follow d creating links (if target.isAbsolute then [] else here) (hops target ++ rest)
termination_by hops => (links, hops.length)

/-- Where a path leads, with links followed to their ends. -/
def resolve (d : Disk) (creating : Bool) (p : Path) : Except IoFault Target :=
  if p.chars.contains '\x00' then .error .nulByte
  else if p.chars.isEmpty then .error .missing
  else if Text.byteLength p.chars > pathLimit then .error .nameTooLong
  else d.follow creating linkLimit (if p.isAbsolute then [] else d.current) (hops p)

/-- The location of the entry that a path leads to. -/
def locate (d : Disk) (p : Path) : Except IoFault Location :=
  match d.resolve false p with
  | .ok (.found loc) => .ok loc
  | .ok (.absent _) => .error .missing
  | .error fault => .error fault

/-- True when a path leads to an entry. -/
def isThere (d : Disk) (p : Path) : Bool :=
  (d.locate p).toOption.isSome

/-- True when a path leads to a file. -/
def isFile (d : Disk) (p : Path) : Bool :=
  match d.locate p with
  | .ok loc => (d.entry? loc).any fun | .file _ => true | _ => false
  | .error _ => false

/-! ## Reading and writing -/

/-- The text of the file that a path leads to. -/
def readText (d : Disk) (p : Path) : Except IoFault String := do
  let loc ← d.locate p
  match d.entry? loc with
  | some (.file bytes) =>
    match String.fromUTF8? bytes with
    | some text => return text
    | none => .error .notText
  | some .directory => .error .isDirectory
  | some (.link _) | none => .error .missing

/-- Puts a text into the file at a location; a directory stays. -/
def fill (loc : Location) (text : String) (d : Disk) : Except IoFault Disk :=
  match d.entry? loc with
  | some .directory => .error .isDirectory
  | _ => .ok (d.set loc (.file text.toUTF8))

/-- Writes a text to the file that a path leads to, and makes the file if it is not there. -/
def writeText (d : Disk) (p : Path) (text : String) : Except IoFault Disk := do
  match ← d.resolve true p with
  | .found loc | .absent loc => d.fill loc text

/-- Writes a text to the file that a path leads to, which must be there. -/
def overwriteText (d : Disk) (p : Path) (text : String) : Except IoFault Disk := do
  d.fill (← d.locate p) text

/-- The files that are not in the tree before, or not with these bytes. -/
def changedFiles (before after : Disk) : List (Location × ByteArray) :=
  after.entries.filterMap fun (loc, e) =>
    match e with
    | .file bytes => if (before.entry? loc).any (Entry.holds bytes) then none else some (loc, bytes)
    | .directory | .link _ => none

/-- Makes the directory that a path leads to the working directory. -/
def enter (d : Disk) (p : Path) : Except IoFault Disk := do
  let loc ← d.locate p
  match d.entry? loc with
  | some .directory => return { d with current := loc }
  | _ => .error .notDirectory

end Disk

end LockMigration
