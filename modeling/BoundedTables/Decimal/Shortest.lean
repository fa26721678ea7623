import BoundedTables.Binary64.Basic

/-!
# Shortest decimals

The fewest decimal digits that read back as a given double. The doubles around a positive value
`m * 2 ^ q` leave it an interval of reals that round to it; on each decimal grid, from the
coarsest on, only the two neighbours of the value can lie in that interval, and the first grid
with a hit wins. Of two hits the nearer one is taken, and a tie is a matter of the written form.
All comparisons are between naturals.
-/

namespace BoundedTables.Decimal

open Binary64

/-- Which of two equally near decimals is taken. -/
inductive Tie where
  /-- The greater one. -/
  | up
  /-- The one with an even last digit. -/
  | toEven
  deriving DecidableEq, Repr

/-- A decimal `digits * 10 ^ exponent`. -/
structure Digits where
  digits : Nat
  exponent : Int
  deriving DecidableEq, Repr

/-- The reals that round to a positive double, over one common denominator. The ends belong to
the interval when the mantissa is even. -/
structure Interval where
  low : Nat
  value : Nat
  high : Nat
  denominator : Nat
  closed : Bool

/-- The interval around `mantissa * 2 ^ exponent`. Below a power of two the doubles lie twice as
close, except at the smallest exponent. -/
def Interval.around (mantissa : Nat) (exponent : Int) : Interval :=
  let below := if mantissa = hiddenBit ∧ leastExponent < exponent then 1 else 2
  let (unit, denominator) := scale 1 1 (exponent - 2)
  { low := (4 * mantissa - below) * unit
    value := 4 * mantissa * unit
    high := (4 * mantissa + 2) * unit
    denominator
    closed := mantissa % 2 = 0 }

/-- The power `10 ^ exponent` as a fraction of naturals. -/
def power (exponent : Int) : Nat × Nat :=
  if exponent < 0 then (1, Nat.pow 10 exponent.natAbs) else (Nat.pow 10 exponent.natAbs, 1)

/-- Whether `digits * 10 ^ exponent` lies in the interval. -/
def Interval.holds (i : Interval) (d : Digits) : Bool :=
  let (n, e) := power d.exponent
  let point := d.digits * n * i.denominator
  if i.closed then i.low * e ≤ point ∧ point ≤ i.high * e
  else i.low * e < point ∧ point < i.high * e

/-- The grid point at or below the value on the grid of multiples of `10 ^ exponent`. -/
def Interval.below (i : Interval) (exponent : Int) : Digits :=
  let (n, e) := power exponent
  ⟨i.value * e / (n * i.denominator), exponent⟩

/-- How far the value is from the middle between `d` and `d + 1` on their common grid. -/
def Interval.pastMiddle (i : Interval) (d : Digits) : Ordering :=
  let (n, e) := power d.exponent
  compare (2 * i.value * e) ((2 * d.digits + 1) * n * i.denominator)

/-- Whether `d + 1` is taken rather than `d`. -/
def Interval.roundsUp (i : Interval) (tie : Tie) (d : Digits) : Bool :=
  match i.pastMiddle d, tie with
  | .lt, _ => false
  | .gt, _ | .eq, .up => true
  | .eq, .toEven => d.digits % 2 = 1

/-- The neighbour of the value on one grid that reads back, the nearer one if both do. -/
def Interval.pick (i : Interval) (tie : Tie) (exponent : Int) : Option Digits :=
  let down := i.below exponent
  let up : Digits := ⟨down.digits + 1, exponent⟩
  match i.holds down, i.holds up with
  | true, true => some (if i.roundsUp tie down then up else down)
  | true, false => some down
  | false, true => some up
  | false, false => none

/-- The least `e` in reach of `steps` from `guess` on with value below `10 ^ e`. -/
def Interval.order (i : Interval) (guess : Int) : Nat → Int
  | 0 => guess
  | steps + 1 =>
      let (n, e) := power guess
      if i.value * e < n * i.denominator then guess else i.order (guess + 1) steps

/-- Try ever finer grids; the last one always holds the value's neighbour. -/
def Interval.search (i : Interval) (tie : Tie) (exponent : Int) : Nat → Digits
  | 0 => i.below exponent
  | grids + 1 =>
      match i.pick tie exponent with
      | some d => d
      | none => i.search tie (exponent - 1) grids

/-- Drop the zeros at the end of the digits. -/
def Digits.trim : Nat → Digits → Digits
  | 0, d => d
  | steps + 1, d =>
      if d.digits ≠ 0 ∧ d.digits % 10 = 0 then trim steps ⟨d.digits / 10, d.exponent + 1⟩ else d

/-- The shortest decimal that reads back as `mantissa * 2 ^ exponent`, for a positive mantissa.
Seventeen digits always suffice. -/
def shortest (tie : Tie) (mantissa : Nat) (exponent : Int) : Digits :=
  let i := Interval.around mantissa exponent
  let guess := ((mantissa.log2 : Int) + exponent) * 30103 / 100000
  let order := i.order guess 4
  (i.search tie (order - 1) 17).trim 20

end BoundedTables.Decimal
