/-
Configuration documents in TOML. `Document.read` reads a whole text into its fields. It refuses a
text that is not well formed, a key that is given twice, and a table that is opened twice, and
names the line of the fault.
-/
import LockMigration.Toml.Quoted

namespace LockMigration.Toml

/-! ## Space and comments -/

/-- The text without spaces and tabs at its start. -/
def skipSpace (cs : List Char) : List Char :=
  cs.dropWhile isSpace

/-- The text after a comment at its start. -/
def skipComment : List Char → List Char
  | '#' :: cs => cs.dropWhile isPrintable
  | cs => cs

/-- The text after spaces, comments and line breaks. -/
def skipLines : (bound : Nat) → List Char → List Char
  | 0, cs => cs
  | bound + 1, cs =>
    let rest := skipComment (skipSpace cs)
    match newline? rest with
    | some more => skipLines bound more
    | none => rest

/-- The text after spaces, comments and line breaks. -/
def skipBlank (cs : List Char) : List Char :=
  skipLines (cs.length + 1) cs

/-! ## Keys -/

/-- True for the characters of a key without quotes. -/
def isBareKeyChar (c : Char) : Bool :=
  c.isAlphanum || c == '_' || c == '-'

/-- One part of a key. -/
def simpleKey (cs : List Char) : Except (List Char) (String × List Char) :=
  match quotedLine? cs with
  | some r => r
  | none =>
    let name := cs.takeWhile isBareKeyChar
    if name.isEmpty then .error cs else .ok (String.ofList name, cs.dropWhile isBareKeyChar)

/-- A key of at most `bound` parts, which are divided by dots. -/
def dottedKey : (bound : Nat) → List Char → Except (List Char) (List String × List Char)
  | 0, cs => .error cs
  | bound + 1, cs => do
    let (name, rest) ← simpleKey cs
    match skipSpace rest with
    | '.' :: more =>
      let (names, rest) ← dottedKey bound (skipSpace more)
      return (name :: names, rest)
    | rest => return ([name], rest)

/-- How many parts a key can have. -/
def keyLimit : Nat := 80

/-- A key. -/
def key (cs : List Char) : Except (List Char) (List String × List Char) :=
  dottedKey keyLimit cs

/-! ## Values -/

/-- How deep arrays and inline tables can be nested. -/
def nestingLimit : Nat := 80

mutual

/-- A value that nests arrays and inline tables at most `depth` deep. -/
def value : (bound depth : Nat) → List Char → Except (List Char) (Value × List Char)
  | 0, _, cs => .error cs
  | bound + 1, depth, cs =>
    match quoted? cs with
    | some r => r.map fun (s, rest) => (.string s, rest)
    | none =>
      match depth, cs with
      | depth + 1, '[' :: rest =>
        (arrayItems bound depth (skipBlank rest)).map fun (vs, rest) => (.array vs, rest)
      | depth + 1, '{' :: rest =>
        (inlineFields bound depth [] (skipBlank rest)).map fun (fs, rest) =>
          (.table .inline fs, rest)
      | _, _ =>
        let (token, rest) := takeToken cs
        match scalar? token with
        | some v => .ok (v, rest)
        | none => .error cs

/-- The items of an array, up to and with its closing bracket. -/
def arrayItems : (bound depth : Nat) → List Char → Except (List Char) (List Value × List Char)
  | 0, _, cs => .error cs
  | _ + 1, _, ']' :: rest => .ok ([], rest)
  | bound + 1, depth, cs => do
    let (v, rest) ← value bound depth cs
    match skipBlank rest with
    | ',' :: rest =>
      let (vs, rest) ← arrayItems bound depth (skipBlank rest)
      return (v :: vs, rest)
    | ']' :: rest => return ([v], rest)
    | rest => .error rest

/-- The fields of an inline table, up to and with its closing brace. Line breaks and comments may
stand between any two of its parts. -/
def inlineFields :
    (bound depth : Nat) → Fields → List Char → Except (List Char) (Fields × List Char)
  | 0, _, _, cs => .error cs
  | _ + 1, _, fields, '}' :: rest => .ok (fields, rest)
  | bound + 1, depth, fields, cs => do
    let (k, rest) ← key cs
    match skipBlank rest with
    | '=' :: rest =>
      let (v, rest) ← value bound depth (skipBlank rest)
      match fields.assign k v, skipBlank rest with
      | some fields, ',' :: rest => inlineFields bound depth fields (skipBlank rest)
      | some fields, '}' :: rest => .ok (fields, rest)
      | _, _ => .error cs
    | rest => .error rest

end

/-! ## Lines -/

/-- A document in the middle of being read: its fields, and the table that the lines belong to. -/
structure Draft where
  fields : Fields
  current : List String

/-- Reads a header after its opening bracket. -/
def header (d : Draft) : List Char → Except (List Char) (Draft × List Char)
  | '[' :: cs => do
    let (path, rest) ← key (skipSpace cs)
    match rest, d.fields.openElement path with
    | ']' :: ']' :: rest, some fields => return (⟨fields, path⟩, rest)
    | _, _ => .error cs
  | cs => do
    let (path, rest) ← key (skipSpace cs)
    match rest, d.fields.openTable path with
    | ']' :: rest, some fields => return (⟨fields, path⟩, rest)
    | _, _ => .error cs

/-- Reads a key with its value into the current table. -/
def assignment (d : Draft) (cs : List Char) : Except (List Char) (Draft × List Char) := do
  let (k, rest) ← key cs
  match rest with
  | '=' :: rest =>
    let (v, rest) ← value (2 * rest.length + 2) nestingLimit (skipSpace rest)
    match d.fields.descend (Fields.assign k v) d.current with
    | some fields => return ({ d with fields }, rest)
    | none => .error cs
  | _ => .error rest

/-- Reads the lines of a document. -/
def lines : (bound : Nat) → Draft → List Char → Except (List Char) Draft
  | 0, _, cs => .error cs
  | bound + 1, d, cs =>
    match skipBlank cs with
    | [] => .ok d
    | c :: cs => do
      let (d, rest) ← if c == '[' then header d cs else assignment d (c :: cs)
      match skipComment (skipSpace rest) with
      | [] => return d
      | rest =>
        match newline? rest with
        | some more => lines bound d more
        | none => .error rest

/-! ## Documents -/

/-- The fault of a text that is not a document. -/
structure Fault where
  line : Nat
deriving DecidableEq, Repr

/-- The wording of a fault. -/
def Fault.message (f : Fault) : String :=
  s!"line {f.line} is not well formed"

/-- The text without a byte order mark at its start. -/
def skipMark : List Char → List Char
  | '\ufeff' :: cs => cs
  | cs => cs

/-- Reads a document. -/
def read (text : List Char) : Except Fault Fields :=
  match lines (text.length + 1) ⟨[], []⟩ (skipMark text) with
  | .ok d => .ok d.fields
  | .error rest =>
    .error ⟨((text.take (text.length - rest.length)).filter (· == '\n')).length + 1⟩

end LockMigration.Toml
