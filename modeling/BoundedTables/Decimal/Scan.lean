import BoundedTables.Binary64.Basic

/-!
# Reading decimals

Numbers as they stand in environment variables, quoted settings and plain scalars: an optional
sign, then digits. A double may also have a fraction and an exponent, and may be spelled out as
`inf`, `infinity` or `nan` in any case. Nothing may surround the number.
-/

namespace BoundedTables.Decimal

open Binary64

/-- The value of a decimal digit. -/
def digitValue (c : Char) : Nat := c.toNat - 48

/-- The value of a run of digits in a base, after the digits already read. -/
def foldDigits (base : Nat) (start : Nat) (cs : List Char) : Nat :=
  cs.foldl (fun n c => n * base + digitValue c) start

/-- A nonempty run of decimal digits. -/
def natOfDigits? (cs : List Char) : Option Nat :=
  if cs ≠ [] ∧ cs.all Char.isDigit then some (foldDigits 10 0 cs) else none

/-- Split off a sign; `true` stands for minus. -/
def splitSign : List Char → Bool × List Char
  | '-' :: rest => (true, rest)
  | '+' :: rest => (false, rest)
  | cs => (false, cs)

/-- An integer with an optional sign. -/
def int? (cs : List Char) : Option Int :=
  let (negative, rest) := splitSign cs
  (natOfDigits? rest).map fun n => if negative then -(n : Int) else n

/-- An integer that fits in a signed 64-bit word. -/
def int64? (cs : List Char) : Option Int :=
  (int? cs).filter isSignedWord

/-- A natural number that fits in a 64-bit word. A plus sign is accepted, a minus sign is not. -/
def word? (cs : List Char) : Option Nat :=
  match cs with
  | '-' :: _ => none
  | _ => (natOfDigits? (splitSign cs).2).filter fun n => decide (n ≤ maxWord)

/-- The exponent part: nothing, or `e` with an integer. -/
def exponent? : List Char → Option Int
  | [] => some 0
  | c :: rest => if c = 'e' ∨ c = 'E' then int? rest else none

/-- The double written by digits, a fraction and an exponent; at least one digit must stand
before the exponent. -/
def unsignedFloat? (negative : Bool) (cs : List Char) : Option Float :=
  let whole := cs.takeWhile Char.isDigit
  let rest := cs.dropWhile Char.isDigit
  let (fraction, rest) := match rest with
    | '.' :: tail => (tail.takeWhile Char.isDigit, tail.dropWhile Char.isDigit)
    | _ => ([], rest)
  if whole = [] ∧ fraction = [] then none
  else
    (exponent? rest).map fun e =>
      ofDecimal negative (foldDigits 10 (foldDigits 10 0 whole) fraction) (e - fraction.length)

/-- A double with an optional sign. -/
def float? (cs : List Char) : Option Float :=
  let (negative, rest) := splitSign cs
  match String.ofList (rest.map Char.toLower) with
  | "inf" | "infinity" => some (infinity negative)
  | "nan" => some (0.0 / 0.0)
  | _ => unsignedFloat? negative rest

end BoundedTables.Decimal
