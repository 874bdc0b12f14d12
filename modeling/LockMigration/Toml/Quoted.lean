/-
Quoted strings of a configuration document: basic strings with escapes and literal strings
without, each on one line or over several. A reader takes the text after the opening quotes and
gives the string with the text after the closing quotes; it fails with the text it could not read.
-/
import LockMigration.Toml.Scalar

namespace LockMigration.Toml

/-- Spaces and tabs. -/
def isSpace (c : Char) : Bool :=
  c == ' ' || c == '\t'

/-- True for a character that can stand for itself in a string or a comment. -/
def isPrintable (c : Char) : Bool :=
  c == '\t' || (c.toNat ≥ 0x20 && c.toNat != 0x7F)

/-- The text after a line break, which is a line feed with an optional carriage return. -/
def newline? : List Char → Option (List Char)
  | '\n' :: cs => some cs
  | '\r' :: '\n' :: cs => some cs
  | _ => none

/-- The text without one line break at its start. -/
def skipNewline (cs : List Char) : List Char :=
  (newline? cs).getD cs

/-- The character with the given number of hexadecimal digits; no half of a surrogate pair. -/
def hexChar? (count : Nat) (cs : List Char) : Option (Char × List Char) :=
  let ds := cs.take count
  if ds.length = count ∧ ds.all (isDigitIn 16) then
    let n := numberOf 16 ds
    if n.isValidChar then some (Char.ofNat n, cs.drop count) else none
  else none

/-- The character that an escape stands for, read after the backslash. -/
def escape? : List Char → Option (Char × List Char)
  | 'b' :: cs => some ('\x08', cs)
  | 't' :: cs => some ('\t', cs)
  | 'n' :: cs => some ('\n', cs)
  | 'f' :: cs => some ('\x0c', cs)
  | 'r' :: cs => some ('\r', cs)
  | 'e' :: cs => some ('\x1b', cs)
  | '"' :: cs => some ('"', cs)
  | '\\' :: cs => some ('\\', cs)
  | 'x' :: cs => hexChar? 2 cs
  | 'u' :: cs => hexChar? 4 cs
  | 'U' :: cs => hexChar? 8 cs
  | _ => none

/-- The text without spaces, tabs and line breaks at its start. A carriage return alone is none. -/
def skipSpaceLines : List Char → List Char
  | [] => []
  | '\r' :: '\n' :: cs => skipSpaceLines cs
  | c :: cs => if isSpace c || c == '\n' then skipSpaceLines cs else c :: cs

/-- The text after an escaped line end: all spaces and line breaks that follow the backslash, if
there is a line break before anything else. -/
def escapedLineEnd? (cs : List Char) : Option (List Char) :=
  (newline? (cs.dropWhile isSpace)).map skipSpaceLines

/-- The rest of a basic string on one line. -/
def basic : (bound : Nat) → (acc : List Char) → List Char → Except (List Char) (String × List Char)
  | 0, _, cs => .error cs
  | _, _, [] => .error []
  | bound + 1, acc, c :: cs =>
    if c == '"' then .ok (String.ofList acc.reverse, cs)
    else if c == '\\' then
      match escape? cs with
      | some (d, rest) => basic bound (d :: acc) rest
      | none => .error (c :: cs)
    else if isPrintable c then basic bound (c :: acc) cs
    else .error (c :: cs)

/-- The rest of a literal string on one line. -/
def literal (cs : List Char) : Except (List Char) (String × List Char) :=
  let body := cs.takeWhile (fun c => c != '\'' && isPrintable c)
  match cs.dropWhile (fun c => c != '\'' && isPrintable c) with
  | '\'' :: rest => .ok (String.ofList body, rest)
  | rest => .error rest

/-- What a run of quotes means: how many are taken, how many of them are text, and whether the
string ends. Three close the string, and up to two before them belong to it. -/
def closing (quote : Char) (cs : List Char) : Nat × Nat × Bool :=
  let run := (cs.takeWhile (· == quote)).length
  if run < 3 then (run, run, false) else (min run 5, min run 5 - 3, true)

/-- The rest of a string over several lines; only basic strings have escapes. -/
def multiline (quote : Char) (escapes : Bool) :
    (bound : Nat) → (acc : List Char) → List Char → Except (List Char) (String × List Char)
  | 0, _, cs => .error cs
  | _, _, [] => .error []
  | bound + 1, acc, c :: cs =>
    if c == quote then
      let (taken, text, closed) := closing quote (c :: cs)
      let acc := List.replicate text quote ++ acc
      let rest := (c :: cs).drop taken
      if closed then .ok (String.ofList acc.reverse, rest)
      else multiline quote escapes bound acc rest
    else if escapes && c == '\\' then
      match escape? cs, escapedLineEnd? cs with
      | some (d, rest), _ => multiline quote escapes bound (d :: acc) rest
      | none, some rest => multiline quote escapes bound acc rest
      | none, none => .error (c :: cs)
    else if c == '\n' || isPrintable c then multiline quote escapes bound (c :: acc) cs
    else if c == '\r' && cs.head? == some '\n' then multiline quote escapes bound (c :: acc) cs
    else .error (c :: cs)

/-- A quoted string on one line, if the text begins with one. -/
def quotedLine? : List Char → Option (Except (List Char) (String × List Char))
  | '"' :: cs => some (basic (cs.length + 1) [] cs)
  | '\'' :: cs => some (literal cs)
  | _ => none

/-- A quoted string of any kind, if the text begins with one. -/
def quoted? : List Char → Option (Except (List Char) (String × List Char))
  | '"' :: '"' :: '"' :: cs =>
    let body := skipNewline cs
    some (multiline '"' true (body.length + 1) [] body)
  | '\'' :: '\'' :: '\'' :: cs =>
    let body := skipNewline cs
    some (multiline '\'' false (body.length + 1) [] body)
  | cs => quotedLine? cs

end LockMigration.Toml
