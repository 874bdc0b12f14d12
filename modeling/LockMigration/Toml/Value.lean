/-
The values of a configuration document in TOML. A table remembers how it was opened, because that
decides which later lines may add to it.
-/
import LockMigration.Decimal.Binary
import LockMigration.Toml.Moment

namespace LockMigration.Toml

/-- A floating-point value. -/
inductive Floating where
  | finite (negative : Bool) (size : Decimal.Binary)
  | infinite (negative : Bool)
  | notNumber
deriving DecidableEq, Repr

/-- How a table came to be. -/
inductive Origin where
  /-- On the way to a table named in a header. -/
  | implied
  /-- By a header of its own. -/
  | header
  /-- On the way to a value under a dotted key. -/
  | dotted
  /-- Written inside braces. -/
  | inline
deriving DecidableEq, Repr

/-- A value of a document. -/
inductive Value where
  | string (s : String)
  | integer (n : Int)
  | real (x : Floating)
  | boolean (b : Bool)
  | moment (m : Moment)
  | array (items : List Value)
  | table (origin : Origin) (fields : List (String × Value))
  /-- Tables that were each opened by a header in double brackets. -/
  | tables (elements : List (List (String × Value)))
deriving Repr

/-- The fields of a table in the order in which they were first named. -/
abbrev Fields := List (String × Value)

/-- The value under a key. -/
def Fields.get? (fields : Fields) (key : String) : Option Value :=
  (fields.find? (·.1 == key)).map (·.2)

/-- Changes the value under a key, or adds one at the end; none if `change` refuses. -/
def Fields.update (key : String) (change : Option Value → Option Value) : Fields → Option Fields
  | [] => (change none).map fun v => [(key, v)]
  | (k, v) :: rest =>
    if k == key then (change (some v)).map fun w => (k, w) :: rest
    else (update key change rest).map ((k, v) :: ·)

namespace Fields

/-- Adds a value under a key that has none. -/
def add (key : String) (value : Value) (fields : Fields) : Option Fields :=
  fields.update key fun
    | none => some value
    | some _ => none

/-- Carries out `act` on the last element of an array of tables. -/
def onLast (act : Fields → Option Fields) (elements : List Fields) : Option (List Fields) :=
  match elements.reverse with
  | [] => none
  | last :: before => (act last).map fun t => (t :: before).reverse

/-- Carries out `act` on the table that the parts of a header lead to and puts the result in its
place. Tables that are missing on the way are made, and an array of tables stands for its last
element. No part leads into a finished value. -/
def descend (act : Fields → Option Fields) : List String → Fields → Option Fields
  | [], fields => act fields
  | key :: path, fields =>
    fields.update key fun
      | none => (descend act path []).map (.table .implied)
      | some (.table .inline _) => none
      | some (.table origin sub) => (descend act path sub).map (.table origin)
      | some (.tables elements) => (onLast (descend act path) elements).map .tables
      | some _ => none

/-- Adds a value under the key `last` of the table that the other parts of a dotted key lead to.
The way may lead through tables that only headers imply and through arrays of tables, but the table
that gets the value must itself come from dotted keys: `isOpen` says whether `fields` may get it. -/
def assignBelow (last : String) (value : Value) : (isOpen : Bool) → List String → Fields →
    Option Fields
  | isOpen, [], fields => if isOpen then add last value fields else none
  | _, key :: path, fields =>
    fields.update key fun
      | none => (assignBelow last value true path []).map (.table .dotted)
      | some (.table .dotted sub) => (assignBelow last value true path sub).map (.table .dotted)
      | some (.table .implied sub) => (assignBelow last value false path sub).map (.table .implied)
      | some (.tables elements) =>
        (onLast (assignBelow last value false path) elements).map .tables
      | some _ => none

/-- Adds a value under a dotted key. A key of one part goes into the table itself. -/
def assign (key : List String) (value : Value) (fields : Fields) : Option Fields :=
  match key.getLast? with
  | none => none
  | some last => assignBelow last value true key.dropLast fields

/-- Opens the table that a header names. It may exist only as a part of other headers. -/
def openTable (path : List String) (fields : Fields) : Option Fields :=
  match path.getLast? with
  | none => none
  | some last =>
    let act := update last fun
      | none => some (.table .header [])
      | some (.table .implied sub) => some (.table .header sub)
      | some _ => none
    descend act path.dropLast fields

/-- Opens a further table of the array that a header in double brackets names. -/
def openElement (path : List String) (fields : Fields) : Option Fields :=
  match path.getLast? with
  | none => none
  | some last =>
    let act := update last fun
      | none => some (.tables [[]])
      | some (.tables elements) => some (.tables (elements ++ [[]]))
      | some _ => none
    descend act path.dropLast fields

end Fields

end LockMigration.Toml
