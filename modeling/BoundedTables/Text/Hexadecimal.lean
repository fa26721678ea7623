/-!
# Hexadecimal digits

Digits of base sixteen are read in either case, and written in the case that is asked for.
-/

namespace BoundedTables.Hexadecimal

/-- The value of a digit. -/
def value? (c : Char) : Option Nat :=
  if c.isDigit then some (c.toNat - 48)
  else if 'a' ≤ c ∧ c ≤ 'f' then some (c.toNat - 87)
  else if 'A' ≤ c ∧ c ≤ 'F' then some (c.toNat - 55)
  else none

/-- The lowercase digit for a value below sixteen. -/
def lowerDigit (n : Nat) : Char := Nat.digitChar n

/-- The uppercase digit for a value below sixteen. -/
def upperDigit (n : Nat) : Char := (Nat.digitChar n).toUpper

/-- Read exactly `count` digits off the front. -/
def number? (count : Nat) (cs : List Char) : Option (Nat × List Char) := do
  let values ← (cs.take count).mapM value?
  if values.length < count then none
  else some (values.foldl (fun n d => n * 16 + d) 0, cs.drop count)

/-- Read the code of a character, written with exactly `count` digits, off the front. -/
def character? (count : Nat) (cs : List Char) : Option (Char × List Char) := do
  let (n, rest) ← number? count cs
  if n.isValidChar then some (Char.ofNat n, rest) else none

end BoundedTables.Hexadecimal
