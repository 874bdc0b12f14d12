/-
Values that are written without quotes or brackets: booleans, integers, floating-point numbers,
dates and times. `scalar?` reads a whole token.
-/
import LockMigration.Toml.Value

namespace LockMigration.Toml

/-! ## Numbers -/

/-- The least and the greatest integer that a document can hold. -/
def integerBounds : Int × Int :=
  (-0x80000000000000000000000000000000, 0xffffffffffffffffffffffffffffffff)

/-- An integer within the bounds. -/
def boundedInteger? (n : Int) : Option Int :=
  if integerBounds.1 ≤ n ∧ n ≤ integerBounds.2 then some n else none

/-- An integer: decimal with an optional sign, or in base sixteen, eight or two without one. -/
def integer? (token : List Char) : Option Int :=
  let based (base : Nat) (cs : List Char) : Option Int :=
    (plainDigits? (isDigitIn base) cs).bind fun ds => boundedInteger? (numberOf base ds)
  match token with
  | '0' :: 'x' :: cs => based 16 cs
  | '0' :: 'o' :: cs => based 8 cs
  | '0' :: 'b' :: cs => based 2 cs
  | _ =>
    let (negative, cs) := takeSign token
    (decimalDigits? cs).bind fun ds =>
      boundedInteger? (if negative then -(numberOf 10 ds : Int) else numberOf 10 ds)

/-- The parts of a text before and after the first character that satisfies `p`. -/
def splitAt (p : Char → Bool) (cs : List Char) : List Char × Option (List Char) :=
  match cs.dropWhile (fun c => !p c) with
  | [] => (cs, none)
  | _ :: rest => (cs.takeWhile (fun c => !p c), some rest)

/-- An exponent: digits with an optional sign. -/
def exponent? (cs : List Char) : Option Int :=
  let (negative, rest) := takeSign cs
  (plainDigits? (isDigitIn 10) rest).map fun ds =>
    if negative then -(numberOf 10 ds : Int) else numberOf 10 ds

/-- A floating-point number. It has a fraction, an exponent or both; one that is too large is
refused. -/
def real? (token : List Char) : Option Floating := do
  let (negative, cs) := takeSign token
  if cs == "inf".toList then return .infinite negative
  if cs == "nan".toList then return .notNumber
  let (mantissa, power) := splitAt (fun c => c == 'e' || c == 'E') cs
  let (whole, fraction) := splitAt (· == '.') mantissa
  if power.isNone && fraction.isNone then none
  let wholeDigits ← decimalDigits? whole
  let fractionDigits ← fraction.elim (some []) (plainDigits? (isDigitIn 10))
  let e ← power.elim (some 0) exponent?
  let digits := wholeDigits ++ fractionDigits
  let size ← Decimal.Binary.ofDecimal (numberOf 10 digits) digits.length (e - fractionDigits.length)
  return .finite negative size

/-! ## Tokens -/

/-- True for the characters of a token. -/
def isTokenChar (c : Char) : Bool :=
  c.isAlphanum || c == '_' || c == '+' || c == '-' || c == '.' || c == ':'

/-- The value that a token spells. -/
def scalar? (token : List Char) : Option Value :=
  if token == "true".toList then some (.boolean true)
  else if token == "false".toList then some (.boolean false)
  else
    (integer? token).map .integer <|> (real? token).map .real <|> (Moment.read? token).map .moment

/-- The token at the start of the text, with the rest. A date and a time may be divided by one
space. -/
def takeToken (cs : List Char) : List Char × List Char :=
  let token := cs.takeWhile isTokenChar
  let rest := cs.dropWhile isTokenChar
  match Date.read? token, rest with
  | some (_, []), ' ' :: d :: more =>
    if isDigitIn 10 d then
      (token ++ ' ' :: (d :: more).takeWhile isTokenChar, (d :: more).dropWhile isTokenChar)
    else (token, rest)
  | _, _ => (token, rest)

end LockMigration.Toml
