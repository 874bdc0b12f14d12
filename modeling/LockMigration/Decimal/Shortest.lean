/-
The text of a binary floating-point number: the fewest decimal digits that read back as the same
number, and of those the ones closest to it. Numbers are written in positional notation without an
exponent, and a whole number without a point.
-/
import LockMigration.Decimal.Binary

namespace LockMigration.Decimal

/-- A decimal `digits · 10 ^ exponent`. -/
structure Numeral where
  digits : Nat
  exponent : Int
deriving DecidableEq, Repr

namespace Binary

/-- The bounds of the reals that round to the number, in quarters of its last place, and whether
the bounds belong to them. The gap below the least significand of a binade is half as wide. -/
def interval (x : Binary) : Nat × Nat × Bool :=
  let m := x.significand
  let isFirst := m = Nat.pow 2 (precision - 1) ∧ leastExponent < x.exponent
  let low := if isFirst then 4 * m - 1 else 4 * m - 2
  (low, 4 * m + 2, m % 2 = 0)

/-- Both sides of a comparison of `digits · 10 ^ p` with `quarters · 2 ^ (e - 2)`, brought to
natural numbers. -/
def balance (digits : Nat) (p : Int) (quarters : Nat) (e : Int) : Nat × Nat :=
  (digits * Nat.pow 10 p.toNat * Nat.pow 2 (2 - e).toNat,
    quarters * Nat.pow 2 (e - 2).toNat * Nat.pow 10 (-p).toNat)

/-- True when the decimal rounds to the number. -/
def readsBack (x : Binary) (d : Numeral) : Bool :=
  let (low, high, closed) := x.interval
  let (a, lo) := balance d.digits d.exponent low x.exponent
  let (b, hi) := balance d.digits d.exponent high x.exponent
  if closed then lo ≤ a && b ≤ hi else lo < a && b < hi

/-- How many decimal digits the whole part of a number has that is at least one; for a smaller
number, one less the count of zeros after the point. -/
def magnitude (x : Binary) : Int :=
  let (num, den) := x.fraction
  if den ≤ num then (Nat.toDigits 10 (num / den)).length
  else
    -- 10 ^ k · num / den lies in [1, 10) for the right k
    let guess := (Nat.toDigits 10 (den / num)).length
    if den ≤ num * Nat.pow 10 (guess - 1) then 2 - (guess : Int) else 1 - (guess : Int)

/-- The decimal with `count` digits closest to the number among those that round to it; of two
equally close ones the greater. -/
def numeralOf? (x : Binary) (count : Nat) : Option Numeral :=
  let p := x.magnitude - count
  let (num, den) := x.fraction
  let (n, d) := (num * Nat.pow 10 (-p).toNat, den * Nat.pow 10 p.toNat)
  let below : Numeral := ⟨n / d, p⟩
  let above : Numeral := ⟨n / d + 1, p⟩
  match x.readsBack below, x.readsBack above with
  | true, true => some (if 2 * (n % d) < d then below else above)
  | true, false => some below
  | false, true => some above
  | false, false => none

/-- The shortest decimal that rounds to the number. Seventeen digits always do. -/
def shortest (x : Binary) : Numeral :=
  ((List.range' 1 17).findSome? x.numeralOf?).getD ⟨0, 0⟩

end Binary

/-- Positional notation, without zeros at the end of a fraction. -/
def Numeral.positional (d : Numeral) : String :=
  let text := Nat.toDigits 10 d.digits
  if 0 ≤ d.exponent then String.ofList (text ++ List.replicate d.exponent.toNat '0')
  else
    let places := (-d.exponent).toNat
    let padded := List.replicate (places + 1 - text.length) '0' ++ text
    let whole := padded.take (padded.length - places)
    let part := ((padded.drop (padded.length - places)).reverse.dropWhile (· == '0')).reverse
    String.ofList (if part.isEmpty then whole else whole ++ '.' :: part)

/-- The shortest text of a finite number. -/
def Binary.text (x : Binary) : String :=
  if x.significand = 0 then "0" else x.shortest.positional

/-- The text with a fixed number of places after the point, rounded to nearest, a half to even. -/
def Binary.fixed (places : Nat) (x : Binary) : String :=
  let (num, den) := x.fraction
  let text := Nat.toDigits 10 (roundDiv (num * Nat.pow 10 places) den)
  let padded := List.replicate (places + 1 - text.length) '0' ++ text
  let whole := padded.take (padded.length - places)
  String.ofList (whole ++ '.' :: padded.drop (padded.length - places))

end LockMigration.Decimal
