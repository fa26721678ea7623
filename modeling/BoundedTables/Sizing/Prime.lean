import BoundedTables.Binary64.Basic

/-!
# Prime bucket counts

Chained tables take the lengths of their bucket arrays from an ascending table of primes, and
past its end from a search over odd candidates. Both work within 64-bit words: a square that
does not fit, and a candidate past the last word, stay at the largest word.
-/

namespace BoundedTables.Sizing

open Binary64

/-- Ascending primes, each about 1.2 times the one before it. -/
def primes : List Nat :=
  [3, 7, 11, 17, 23, 29, 37, 47, 59, 71, 89, 107, 131, 163, 197, 239, 293, 353, 431, 521,
    631, 761, 919, 1103, 1327, 1597, 1931, 2333, 2801, 3371, 4049, 4861, 5839, 7013, 8419,
    10103, 12143, 14591, 17519, 21023, 25229, 30293, 36353, 43627, 52361, 62851, 75431,
    90523, 108631, 130363, 156437, 187751, 225307, 270371, 324449, 389357, 467237, 560689,
    672827, 807403, 968897, 1162687, 1395263, 1674319, 2009191, 2411033, 2893249, 3471899,
    4166287, 4999559, 5999471, 7199369]

/-- Whether no odd number from `divisor` on, up to the square root, divides `candidate`. -/
def noOddDivisorFrom (candidate divisor : Nat) : Bool :=
  if h : divisor ≤ candidate ∧ min (divisor * divisor) maxWord ≤ candidate then
    if candidate % divisor = 0 then false else noOddDivisorFrom candidate (divisor + 2)
  else true
termination_by candidate + 1 - divisor
decreasing_by omega

/-- Trial division by two and by the odd numbers up to the square root. -/
def isPrime (candidate : Nat) : Bool :=
  if candidate < 2 then false
  else if candidate % 2 = 0 then candidate == 2
  else noOddDivisorFrom candidate 3

/-- The first prime among `candidate, candidate + 2, …` that fits in a word. There is none when
the largest word is reached and is not prime: the search would stay there for ever. -/
def searchPrime (candidate : Nat) : Option Nat :=
  if isPrime candidate then some candidate
  else if h : candidate < maxWord then searchPrime (min (candidate + 2) maxWord)
  else none
termination_by maxWord - candidate
decreasing_by omega

/-- The first tabulated prime at or above `least`, or past the table the first prime among the
odd numbers from `least` on. -/
def nextPrime (least : Nat) : Option Nat :=
  match primes.find? fun p => decide (least ≤ p) with
  | some p => some p
  | none => searchPrime (least ||| 1)

end BoundedTables.Sizing
