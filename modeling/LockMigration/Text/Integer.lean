/-
Integers as text: an optional plus sign, a minus sign where negative numbers are allowed, and
decimal digits. The text is judged from left to right, so the first character that is no digit or
leaves the range decides what is wrong with it.
-/

namespace LockMigration.Text

/-- The greatest integer of 64 bits. -/
def greatestInt64 : Nat := 0x7fffffffffffffff

/-- The greatest natural number of 64 bits. -/
def greatestNat64 : Nat := 0xffffffffffffffff

/-- The greatest natural number of 32 bits. -/
def greatestNat32 : Nat := 0xffffffff

/-- The reasons why a text is not an integer of a range. -/
inductive IntegerFault where
  | empty
  | invalidDigit
  | tooLarge
  | tooSmall
deriving DecidableEq, Repr

/-- The wording of a reason. -/
def IntegerFault.message : IntegerFault → String
  | .empty => "cannot parse integer from empty string"
  | .invalidDigit => "invalid digit found in string"
  | .tooLarge => "number too large to fit in target type"
  | .tooSmall => "number too small to fit in target type"

/-- Reads the digits of a number whose absolute value is at most `limit`, after the value `n` of
the digits before them. -/
def readDigits (limit : Nat) (beyond : IntegerFault) : (n : Nat) → List Char → Except IntegerFault Nat
  | n, [] => .ok n
  | n, c :: cs =>
    if '0' ≤ c ∧ c ≤ '9' then
      let m := n * 10 + (c.toNat - '0'.toNat)
      if m ≤ limit then readDigits limit beyond m cs else .error beyond
    else .error .invalidDigit

/-- Reads a natural number up to `greatest`. -/
def readNat (greatest : Nat) : List Char → Except IntegerFault Nat
  | [] => .error .empty
  | ['+'] | ['-'] => .error .invalidDigit
  | '+' :: cs => readDigits greatest .tooLarge 0 cs
  | cs => readDigits greatest .tooLarge 0 cs

/-- Reads an integer from `-(greatest + 1)` to `greatest`. -/
def readInt (greatest : Nat) : List Char → Except IntegerFault Int
  | '-' :: c :: cs => (readDigits (greatest + 1) .tooSmall 0 (c :: cs)).map (- Int.ofNat ·)
  | cs => (readNat greatest cs).map Int.ofNat

end LockMigration.Text
