import BoundedTables.Decimal.Shortest

/-!
# The written forms of a double

Every written form starts from the shortest digits that read back. The forms differ in what a
`FloatFormat` records: whether whole numbers show a fraction, beyond which decimal exponents an
exponent is written, and which of two equally near digits is taken.
-/

namespace BoundedTables.Decimal

open Binary64

/-- The decisions of one written form of doubles. -/
structure FloatFormat where
  /-- What follows the digits of a whole number. -/
  wholeSuffix : String
  /-- The orders of magnitude written without an exponent, when there is a limit. A number `x`
  with `10 ^ (o - 1) ≤ x < 10 ^ o` has order `o`. -/
  positionalOrders : Option (Int × Int)
  tie : Tie

/-- Digits only: no exponent, and no fraction on whole numbers. -/
def FloatFormat.plain : FloatFormat := ⟨"", none, .up⟩

/-- Digits with a fraction even on whole numbers, and never an exponent. -/
def FloatFormat.fractional : FloatFormat := ⟨".0", none, .up⟩

/-- A fraction on whole numbers, and an exponent below `1e-4` and from `1e16` on. -/
def FloatFormat.diagnostic : FloatFormat := ⟨".0", some (-3, 16), .up⟩

/-- A fraction on whole numbers, and an exponent below `1e-5` and from `1e16` on. -/
def FloatFormat.interchange : FloatFormat := ⟨".0", some (-4, 16), .toEven⟩

/-- The decimal digits of a natural number. -/
def natText (n : Nat) : String := String.ofList (Nat.toDigits 10 n)

/-- The decimal digits of an integer after its sign. -/
def intText (n : Int) : String :=
  if n < 0 then "-" ++ natText n.natAbs else natText n.natAbs

/-- Zeros to fill places. -/
def zeros (count : Nat) : List Char := List.replicate count '0'

/-- A positive decimal without an exponent. -/
def positional (wholeSuffix : String) (d : Digits) : String :=
  let digits := Nat.toDigits 10 d.digits
  if 0 ≤ d.exponent then String.ofList (digits ++ zeros d.exponent.natAbs) ++ wholeSuffix
  else
    let places := d.exponent.natAbs
    if places < digits.length then
      let (whole, fraction) := digits.splitAt (digits.length - places)
      String.ofList (whole ++ '.' :: fraction)
    else String.ofList ('0' :: '.' :: zeros (places - digits.length) ++ digits)

/-- A positive decimal as one digit, a fraction if there are more, and an exponent. -/
def scientific (d : Digits) : String :=
  let digits := Nat.toDigits 10 d.digits
  let mantissa := match digits with
    | [] => []
    | [c] => [c]
    | c :: rest => c :: '.' :: rest
  String.ofList mantissa ++ "e" ++ intText (d.exponent + digits.length - 1)

/-- A positive decimal in a given form. -/
def FloatFormat.write (form : FloatFormat) (d : Digits) : String :=
  match form.positionalOrders with
  | none => positional form.wholeSuffix d
  | some (least, greatest) =>
      let order := d.exponent + (Nat.toDigits 10 d.digits).length
      if least ≤ order ∧ order ≤ greatest then positional form.wholeSuffix d else scientific d

/-- A double in a given form. Zero keeps its sign. -/
def FloatFormat.text (form : FloatFormat) (notANumber : String) (x : Float) : String :=
  match read x with
  | .nan => notANumber
  | .infinite negative => if negative then "-inf" else "inf"
  | .finite negative mantissa exponent =>
      let sign := if negative then "-" else ""
      if mantissa = 0 then sign ++ "0" ++ form.wholeSuffix
      else sign ++ form.write (shortest form.tie mantissa exponent)

/-- The form used in messages: `0.75`, `1`, `-0`, `NaN`, `inf`. -/
def floatText (x : Float) : String := FloatFormat.plain.text "NaN" x

/-- The form used in diagnostics: `0.5`, `1.0`, `1.5e-5`. -/
def diagnosticText (x : Float) : String := FloatFormat.diagnostic.text "NaN" x

end BoundedTables.Decimal
