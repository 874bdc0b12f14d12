/-
Binary floating-point numbers with a significand of 53 bits, the double format of IEEE 754. A
finite number is `significand · 2 ^ exponent`; `nearest` rounds a fraction to the closest number
of the format, to the even one of two that are equally close. Everything is exact arithmetic on
natural numbers.
-/

namespace LockMigration.Decimal

/-- The quotient rounded to the nearest natural number, a half to the even one. -/
def roundDiv (num den : Nat) : Nat :=
  let q := num / den
  let r := num % den
  if 2 * r < den ∨ (2 * r = den ∧ q % 2 = 0) then q else q + 1

/-- A nonnegative finite number of the format: `significand · 2 ^ exponent`. -/
structure Binary where
  significand : Nat
  exponent : Int
deriving DecidableEq, Repr

namespace Binary

/-- The bits of a significand. -/
def precision : Nat := 53

/-- The exponent of the smallest positive number. -/
def leastExponent : Int := -1074

/-- The exponent of the largest numbers. -/
def greatestExponent : Int := 971

/-- The number as a fraction of natural numbers. -/
def fraction (x : Binary) : Nat × Nat :=
  (x.significand * Nat.pow 2 x.exponent.toNat, Nat.pow 2 (-x.exponent).toNat)

/-- The fraction `num / den` divided by `2 ^ e`. -/
def scale (num den : Nat) (e : Int) : Nat × Nat :=
  (num * Nat.pow 2 (-e).toNat, den * Nat.pow 2 e.toNat)

/-- The exponent at which `num / den` fills the significand, or the least one. -/
def exponentOf (num den : Nat) : Int :=
  let guess : Int := (num.log2 : Int) - den.log2 - precision
  let (n, d) := scale num den guess
  max leastExponent (if n / d < Nat.pow 2 precision then guess else guess + 1)

/-- The number of the format nearest to `num / den`, none beyond the largest one. -/
def nearest (num den : Nat) : Option Binary :=
  if num = 0 then some ⟨0, leastExponent⟩
  else
    let e := exponentOf num den
    let (n, d) := scale num den e
    let m := roundDiv n d
    let x : Binary := if m < Nat.pow 2 precision then ⟨m, e⟩ else ⟨m / 2, e + 1⟩
    if x.exponent ≤ greatestExponent then some x else none

/-- The number of the format nearest to `n`. -/
def ofNat (n : Nat) : Option Binary :=
  nearest n 1

/-- The rounded quotient; none beyond the largest number or for a zero divisor. -/
def div (x y : Binary) : Option Binary :=
  let (a, b) := x.fraction
  let (c, d) := y.fraction
  if c = 0 then none else nearest (a * d) (b * c)

/-- The rounded product. -/
def mul (x y : Binary) : Option Binary :=
  let (a, b) := x.fraction
  let (c, d) := y.fraction
  nearest (a * c) (b * d)

/-- The rounded sum. -/
def add (x y : Binary) : Option Binary :=
  let (a, b) := x.fraction
  let (c, d) := y.fraction
  nearest (a * d + c * b) (b * d)

/-- The whole part. -/
def floor (x : Binary) : Nat :=
  x.fraction.1 / x.fraction.2

/-- The number nearest to the decimal `digits · 10 ^ exponent`, where `digits` has at most `count`
decimal digits. Magnitudes far outside the format are settled without forming the power. -/
def ofDecimal (digits count : Nat) (exponent : Int) : Option Binary :=
  if digits = 0 then some ⟨0, leastExponent⟩
  else if exponent > 400 then none
  else if (count : Int) + exponent < -400 then some ⟨0, leastExponent⟩
  else nearest (digits * Nat.pow 10 exponent.toNat) (Nat.pow 10 (-exponent).toNat)

end Binary

end LockMigration.Decimal
