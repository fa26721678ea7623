import BoundedTables.Sizing.Prime

/-!
# Load factors

A load factor is a double strictly between zero and one, kept as the exact fraction it denotes.
Limits and bucket counts are products and quotients with it, rounded to 53 bits as doubles are:
a product may round up to a whole number, and then that many entries fit.
-/

namespace BoundedTables.Sizing

open Binary64

/-- A fraction strictly between zero and one. -/
structure LoadFactor where
  numerator : Nat
  denominator : Nat
  numerator_pos : 0 < numerator
  numerator_lt : numerator < denominator

namespace LoadFactor

/-- A fraction in lowest terms. -/
def reduce (n d : Nat) (hn : 0 < n) (h : n < d) : LoadFactor :=
  { numerator := n / Nat.gcd n d
    denominator := d / Nat.gcd n d
    numerator_pos := Nat.div_pos (Nat.gcd_le_left d hn) (Nat.gcd_pos_of_pos_left d hn)
    numerator_lt := by
      apply Nat.div_lt_of_lt_mul
      rwa [Nat.mul_div_cancel' (Nat.gcd_dvd_right n d)] }

/-- The load factor that a double denotes. -/
def ofFloat? (x : Float) : Option LoadFactor :=
  match read x with
  | .finite false mantissa exponent =>
      if h : 0 < mantissa ∧ exponent < 0 ∧ mantissa < Nat.pow 2 exponent.natAbs then
        some (reduce mantissa (Nat.pow 2 exponent.natAbs) h.1 h.2.2)
      else none
  | _ => none

end LoadFactor

/-- A quotient of naturals rounded to 53 bits, as a fraction of naturals. -/
def rounded (numerator denominator : Nat) : Nat × Nat :=
  if numerator = 0 then (0, 1)
  else
    let place := lastPlace numerator denominator
    let (n, d) := scale numerator denominator (-place)
    scale (nearestNat n d) 1 place

/-- Whether a number of entries is within the load factor of a number of buckets. -/
def LoadFactor.admits (f : LoadFactor) (buckets entries : Nat) : Bool :=
  let (n, d) := rounded (buckets * f.numerator) f.denominator
  decide (entries * d ≤ n)

/-- The least whole number of places that holds a number of entries at the load factor. -/
def LoadFactor.placesFor (f : LoadFactor) (entries : Nat) : Nat :=
  let (n, d) := rounded (entries * f.denominator) f.numerator
  (n + d - 1) / d

/-- The largest capacity a container may be given. Construction takes memory in proportion to
the capacity. -/
def maxCapacity : Nat := Nat.pow 2 24

/-- A prime bucket count for a chained table of a given capacity, from a request capped at four
times the largest capacity. -/
def bucketCount (capacity : Nat) (f : LoadFactor) : Nat :=
  let wanted := min (f.placesFor capacity) (4 * maxCapacity)
  (nextPrime wanted).getD wanted

end BoundedTables.Sizing
