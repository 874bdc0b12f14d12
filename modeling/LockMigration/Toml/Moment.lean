/-
Dates and times of a configuration document. A moment is a calendar date, a time of day, or both
with an optional offset from universal time. `Moment.read?` reads one in any of its spellings, and
`Moment.text` writes it in the only one that uses `T`, `Z` and seconds.
-/
import LockMigration.Toml.Digits

namespace LockMigration.Toml

/-! ## What a moment is -/

/-- A day of the calendar. -/
structure Date where
  year : Nat
  month : Nat
  day : Nat
deriving DecidableEq, Repr

/-- A time of day. The second may be 60, for a leap second. -/
structure Clock where
  hour : Nat
  minute : Nat
  second : Nat := 0
  nanosecond : Nat := 0
deriving DecidableEq, Repr

/-- How far a time is from universal time. -/
inductive Zone where
  /-- Universal time itself. -/
  | universal
  /-- A number of minutes ahead of universal time. -/
  | ahead (minutes : Int)
deriving DecidableEq, Repr

/-- A point of the calendar, of a day or of both. -/
inductive Moment where
  | date (day : Date)
  | clock (time : Clock)
  | both (day : Date) (time : Clock) (zone : Option Zone)
deriving DecidableEq, Repr

/-- The number of days of a month. -/
def daysOf (year month : Nat) : Nat :=
  if month = 2 then
    if year % 4 = 0 ∧ (year % 100 ≠ 0 ∨ year % 400 = 0) then 29 else 28
  else if month ∈ [4, 6, 9, 11] then 30
  else 31

/-! ## Reading -/

/-- The text after the given character. -/
def after? (c : Char) : List Char → Option (List Char)
  | d :: cs => if c == d then some cs else none
  | [] => none

/-- Two numbers of two digits with a colon between them: hours up to 23 and minutes up to 59. -/
def hourMinute? (cs : List Char) : Option (Nat × Nat × List Char) := do
  let (hour, cs) ← fixedDigits? 2 cs
  let (minute, cs) ← fixedDigits? 2 (← after? ':' cs)
  if hour ≤ 23 ∧ minute ≤ 59 then return (hour, minute, cs) else none

/-- A calendar date, with the text after it. -/
def Date.read? (cs : List Char) : Option (Date × List Char) := do
  let (year, cs) ← fixedDigits? 4 cs
  let (month, cs) ← fixedDigits? 2 (← after? '-' cs)
  let (day, cs) ← fixedDigits? 2 (← after? '-' cs)
  if 1 ≤ month ∧ month ≤ 12 ∧ 1 ≤ day ∧ day ≤ daysOf year month then return (⟨year, month, day⟩, cs)
  else none

/-- The nanoseconds that the digits of a fraction give. Digits after the ninth are dropped. -/
def nanosecondsOf (digits : List Char) : Nat :=
  numberOf 10 ((digits ++ List.replicate 9 '0').take 9)

/-- A time of day, with the text after it. The seconds may be left out. -/
def Clock.read? (cs : List Char) : Option (Clock × List Char) := do
  let (hour, minute, cs) ← hourMinute? cs
  match cs with
  | ':' :: cs =>
    let (second, cs) ← fixedDigits? 2 cs
    if second > 60 then none
    match cs with
    | '.' :: cs =>
      let fraction := cs.takeWhile (isDigitIn 10)
      if fraction.isEmpty then none
      return (⟨hour, minute, second, nanosecondsOf fraction⟩, cs.dropWhile (isDigitIn 10))
    | _ => return (⟨hour, minute, second, 0⟩, cs)
  | _ => return (⟨hour, minute, 0, 0⟩, cs)

/-- The offset of a time, with the text after it. -/
def Zone.read? : List Char → Option (Zone × List Char)
  | 'Z' :: cs | 'z' :: cs => some (.universal, cs)
  | '+' :: cs => (hourMinute? cs).map fun (h, m, cs) => (.ahead (h * 60 + m : Nat), cs)
  | '-' :: cs => (hourMinute? cs).map fun (h, m, cs) => (.ahead (-(h * 60 + m : Nat)), cs)
  | _ => none

/-- The moment that a whole token spells. Only a date with a time has an offset. -/
def Moment.read? (token : List Char) : Option Moment :=
  match Date.read? token with
  | some (day, []) => some (.date day)
  | some (day, c :: cs) =>
    if c == 'T' || c == 't' || c == ' ' then
      match Clock.read? cs with
      | some (time, []) => some (.both day time none)
      | some (time, rest) =>
        match Zone.read? rest with
        | some (zone, []) => some (.both day time (some zone))
        | _ => none
      | none => none
    else none
  | none =>
    match Clock.read? token with
    | some (time, []) => some (.clock time)
    | _ => none

/-! ## Writing -/

/-- The text of a date. -/
def Date.chars (d : Date) : List Char :=
  paddedDigits 4 d.year ++ '-' :: paddedDigits 2 d.month ++ '-' :: paddedDigits 2 d.day

/-- The text of a part of a second, with its point; a whole second has none. -/
def fractionChars (nanosecond : Nat) : List Char :=
  if nanosecond = 0 then []
  else '.' :: ((paddedDigits 9 nanosecond).reverse.dropWhile (· == '0')).reverse

/-- The text of a time of day. -/
def Clock.chars (t : Clock) : List Char :=
  paddedDigits 2 t.hour ++ ':' :: paddedDigits 2 t.minute ++ ':' :: paddedDigits 2 t.second ++
    fractionChars t.nanosecond

/-- The text of an offset. -/
def Zone.chars : Zone → List Char
  | .universal => ['Z']
  | .ahead minutes =>
    (if minutes < 0 then '-' else '+') :: paddedDigits 2 (minutes.natAbs / 60) ++
      ':' :: paddedDigits 2 (minutes.natAbs % 60)

/-- The text of a moment. -/
def Moment.text : Moment → String
  | .date day => String.ofList day.chars
  | .clock time => String.ofList time.chars
  | .both day time zone =>
    String.ofList (day.chars ++ 'T' :: time.chars ++ zone.elim [] Zone.chars)

end LockMigration.Toml
