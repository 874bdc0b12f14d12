/-
Digits of the numbers in a configuration document: runs with underscores between the digits, runs
of a fixed length, and the number that a run spells in a base.
-/

namespace LockMigration.Toml

/-- The digits of a run in which single underscores may stand between two digits. -/
def plainDigits? (isDigit : Char → Bool) : List Char → Option (List Char)
  | [] => none
  | [c] => if isDigit c then some [c] else none
  | c :: '_' :: d :: cs =>
    if isDigit c then (plainDigits? isDigit (d :: cs)).map (c :: ·) else none
  | c :: d :: cs => if isDigit c then (plainDigits? isDigit (d :: cs)).map (c :: ·) else none

/-- The value of a digit in bases up to sixteen. -/
def digitValue (c : Char) : Nat :=
  if '0' ≤ c ∧ c ≤ '9' then c.toNat - '0'.toNat
  else if 'a' ≤ c ∧ c ≤ 'f' then c.toNat - 'a'.toNat + 10
  else if 'A' ≤ c ∧ c ≤ 'F' then c.toNat - 'A'.toNat + 10
  else 16

/-- True for the digits of a base. -/
def isDigitIn (base : Nat) (c : Char) : Bool :=
  digitValue c < base

/-- The number that digits spell. -/
def numberOf (base : Nat) (digits : List Char) : Nat :=
  digits.foldl (fun n c => n * base + digitValue c) 0

/-- The sign in front of a token, and the rest. -/
def takeSign : List Char → Bool × List Char
  | '-' :: cs => (true, cs)
  | '+' :: cs => (false, cs)
  | cs => (false, cs)

/-- Decimal digits without a zero in front of others. -/
def decimalDigits? (cs : List Char) : Option (List Char) :=
  match plainDigits? (isDigitIn 10) cs with
  | some ('0' :: _ :: _) => none
  | r => r

/-- A number of exactly `count` digits at the start of the text, with the rest. -/
def fixedDigits? (count : Nat) (cs : List Char) : Option (Nat × List Char) :=
  let ds := cs.take count
  if ds.length = count ∧ ds.all (isDigitIn 10) then some (numberOf 10 ds, cs.drop count) else none

/-- The digits of a number, with zeros in front of them up to a width. -/
def paddedDigits (width n : Nat) : List Char :=
  let ds := Nat.toDigits 10 n
  List.replicate (width - ds.length) '0' ++ ds

end LockMigration.Toml
