/-
Free-form settings of a run: a list of maps from keys to texts. A lookup walks the maps in order
and takes the first one that has any of the wanted keys, so earlier maps shadow later ones.
-/
import LockMigration.Error
import LockMigration.Text.Blank

namespace LockMigration

/-- Maps from keys to texts, the ones that shadow first. -/
structure Metas where
  maps : List (List (String × String)) := []
deriving DecidableEq, Repr

namespace Metas

/-- The map of a single entry at the front, where it shadows all others. -/
def pushFront (key value : String) (m : Metas) : Metas :=
  ⟨[(key, value)] :: m.maps⟩

/-- The map of a single entry at the end. -/
def push (key value : String) (m : Metas) : Metas :=
  ⟨m.maps ++ [[(key, value)]]⟩

/-- The entry of a map under the first of the keys that it has. -/
def entryOf? (keys : List String) (entries : List (String × String)) : Option (String × String) :=
  keys.findSome? fun key => (entries.find? (·.1 == key)).map fun e => (key, e.2)

/-- The entry of the first map that has any of the keys. -/
def get? (m : Metas) (keys : List String) : Option (String × String) :=
  m.maps.findSome? (entryOf? keys)

/-- The text of the first map that has any of the keys. -/
def value? (m : Metas) (keys : List String) : Option String :=
  (m.get? keys).map (·.2)

/-- Whether the entry says true, or `default` without an entry. -/
def isTrue (m : Metas) (default : Bool) (keys : List String) : Bool :=
  ((m.value? keys).map (· == "true")).getD default

/-- The integer of the entry. -/
def integer? (m : Metas) (keys : List String) : Except Error (Option Int) :=
  match m.get? keys with
  | none => .ok none
  | some (key, value) =>
    match Text.readInt Text.greatestInt64 (Text.trim value.toList) with
    | .ok n => .ok (some n)
    | .error fault => .error (.configuration (.notInteger key value fault))

/-- The maps that have none of the keys. -/
def remove (m : Metas) (keys : List String) : Metas :=
  ⟨m.maps.filter fun entries => (entryOf? keys entries).isNone⟩

end Metas

/-- A setting written as `key=value`. Blanks around the key and the value do not count, and the key
must not be empty. -/
def metaArgument? (arg : String) : Option (String × String) :=
  match arg.toList.dropWhile (· != '=') with
  | [] => none
  | _ :: value =>
    let key := Text.trim (arg.toList.takeWhile (· != '='))
    if key.isEmpty then none else some (String.ofList key, String.ofList (Text.trim value))

end LockMigration
