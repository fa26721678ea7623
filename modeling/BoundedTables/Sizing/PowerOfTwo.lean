import BoundedTables.Error

/-!
# Power-of-two slot counts

Open-addressed tables use a power of two, so that a hash is reduced by masking.
-/

namespace BoundedTables.Sizing

open Decimal

/-- The largest slot count. -/
def maxPowerOfTwo : Nat := Nat.pow 2 62

/-- The least power of two at or above a number, and at least one. -/
def ceilPowerOfTwo (n : Nat) : Nat := if n ≤ 1 then 1 else Nat.pow 2 ((n - 1).log2 + 1)

/-- The least power of two at or above a number, unless it exceeds the largest slot count. -/
def nextPowerOfTwo (n : Nat) : Except TableError Nat :=
  let size := ceilPowerOfTwo n
  if size ≤ maxPowerOfTwo then .ok size
  else
    .error (.invalidArgument "capacity"
      s!"{natText n} exceeds the largest supported power of two ({natText maxPowerOfTwo})")

end BoundedTables.Sizing
