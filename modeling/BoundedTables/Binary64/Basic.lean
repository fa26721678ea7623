/-!
# Binary64 numbers read exactly

A double is read as a sign, a natural mantissa and a power of two, and a quotient of naturals is
rounded to the nearest double with ties to the even mantissa. The rest of the library compares
and prints doubles through this reading, so every such answer is exact integer arithmetic.
-/

namespace BoundedTables.Binary64

/-- What a double denotes: not a number, an infinity, or `± mantissa * 2 ^ exponent`. -/
inductive Reading where
  | nan
  | infinite (negative : Bool)
  | finite (negative : Bool) (mantissa : Nat) (exponent : Int)
  deriving DecidableEq, Repr

/-- The exponent of the last place of the smallest doubles. -/
def leastExponent : Int := -1074

/-- The value of the hidden leading bit of a mantissa, `2 ^ 52`. Eleven bits of exponent and the
sign lie above it. -/
def hiddenBit : Nat := 4503599627370496

/-- Read a double from its bits. A zero exponent field marks the numbers without a hidden
leading bit. -/
def read (x : Float) : Reading :=
  let bits : Nat := x.toBits.toNat
  let negative := bits / (2048 * hiddenBit) == 1
  let field : Nat := bits / hiddenBit % 2048
  let fraction : Nat := bits % hiddenBit
  if field = 2047 then
    if fraction = 0 then .infinite negative else .nan
  else if field = 0 then .finite negative fraction leastExponent
  else .finite negative (hiddenBit + fraction) ((field : Int) - 1075)

/-- The quotient `numerator * 2 ^ shift / denominator` as a fraction of naturals. -/
def scale (numerator denominator : Nat) (shift : Int) : Nat × Nat :=
  if shift < 0 then (numerator, denominator * Nat.pow 2 shift.natAbs)
  else (numerator * Nat.pow 2 shift.natAbs, denominator)

/-- The natural nearest to `numerator / denominator`; a tie goes to the even one. -/
def nearestNat (numerator denominator : Nat) : Nat :=
  let quotient := numerator / denominator
  let twice := 2 * (numerator % denominator)
  if twice < denominator then quotient
  else if twice = denominator then quotient + quotient % 2
  else quotient + 1

/-- The exponent of the last place that gives a nonzero quotient a mantissa of 53 bits. -/
def lastPlace (numerator denominator : Nat) : Int :=
  let guess : Int := (numerator.log2 : Int) - denominator.log2 - 53
  let (n, d) := scale numerator denominator (-guess)
  if n / d < 2 * hiddenBit then guess else guess + 1

/-- The double nearest to `numerator / denominator`, with ties to the even mantissa. Quotients
past the largest double become infinite, and the sign is set apart so that zero keeps it. -/
def nearest (negative : Bool) (numerator denominator : Nat) : Float :=
  let magnitude : Nat :=
    if numerator = 0 then 0
    else
      let place := max (lastPlace numerator denominator) leastExponent
      let (n, d) := scale numerator denominator (-place)
      min ((place - leastExponent).toNat * hiddenBit + nearestNat n d) (2047 * hiddenBit)
  Float.ofBits (UInt64.ofNat (magnitude + if negative then 2048 * hiddenBit else 0))

/-- An infinity. -/
def infinity (negative : Bool) : Float := nearest negative (Nat.pow 2 1024) 1

/-- The double nearest to `digits * 10 ^ exponent`. Exponents far outside the range of doubles
are answered without forming the power. -/
def ofDecimal (negative : Bool) (digits : Nat) (exponent : Int) : Float :=
  let magnitude : Int := (digits.log2 : Int) * 30103 / 100000 + exponent
  if digits = 0 ∨ magnitude < -800 then nearest negative 0 1
  else if 800 < magnitude then infinity negative
  else if exponent < 0 then nearest negative digits (Nat.pow 10 exponent.natAbs)
  else nearest negative (digits * Nat.pow 10 exponent.natAbs) 1

/-- The double nearest to a natural number. -/
def ofNat (n : Nat) : Float := nearest false n 1

/-- The double nearest to an integer. -/
def ofInt (n : Int) : Float := nearest (n < 0) n.natAbs 1

/-- The least integer that is not below a finite double. -/
def ceil? (x : Float) : Option Int :=
  match read x with
  | .finite negative mantissa exponent =>
      let (n, d) := scale mantissa 1 exponent
      some (if negative then -((n / d : Nat) : Int) else ((n + d - 1) / d : Nat))
  | _ => none

/-- The integer nearest to a finite double, with halves away from zero. -/
def round? (x : Float) : Option Int :=
  match read x with
  | .finite negative mantissa exponent =>
      let (n, d) := scale (2 * mantissa) 2 exponent
      let magnitude : Nat := (2 * n + d) / (2 * d)
      some (if negative then -(magnitude : Int) else magnitude)
  | _ => none

/-- The largest value of a 64-bit word. -/
def maxWord : Nat := UInt64.size - 1

/-- Whether an integer fits in a signed 64-bit word: it is at least `-2 ^ 63` and below `2 ^ 63`. -/
def isSignedWord (n : Int) : Bool :=
  decide (-9223372036854775808 ≤ n ∧ n < 9223372036854775808)

/-- Clamp an integer reading of a double into a natural range: what is not a number counts as
zero, and everything past an end of the range becomes that end. -/
def clamp (limit : Nat) (x : Float) (integer? : Float → Option Int) : Nat :=
  match integer? x with
  | some n => min n.toNat limit
  | none => match read x with
    | .infinite false => limit
    | _ => 0

/-- A double rounded up to a 64-bit word. -/
def ceilToWord (x : Float) : Nat := clamp maxWord x ceil?

/-- The nearest integer of a double as a 64-bit word. -/
def roundToWord (x : Float) : Nat := clamp maxWord x round?

/-- A double strictly between zero and one. -/
def isProperFraction (x : Float) : Bool :=
  match read x with
  | .finite false mantissa exponent =>
      decide (0 < mantissa ∧ exponent < 0 ∧ mantissa < Nat.pow 2 exponent.natAbs)
  | _ => false

end BoundedTables.Binary64
