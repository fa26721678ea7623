import BoundedTables.Decimal.Scan
import BoundedTables.Toml.Token
import BoundedTables.Tree.Basic

/-!
# Numbers in TOML

Integers fit in a signed 64-bit word and may be written in four bases; digits may be grouped by
single underscores. A double has a fraction or an exponent, and one that is too large is refused.
A number starts with a word. The fraction behind a point, and the exponent behind a plus sign, are
further words.
-/

namespace BoundedTables.Toml.Number

open Decimal

/-- Digits of a base, grouped by single underscores. -/
def groups? (isDigit : Char → Bool) : List Char → Option (List Char × List Char)
  | [] => none
  | c :: rest =>
      if isDigit c then
        match rest with
        | '_' :: tail => (groups? isDigit tail).map fun (ds, rest) => (c :: ds, rest)
        | d :: tail =>
            if isDigit d then (groups? isDigit (d :: tail)).map fun (ds, rest) => (c :: ds, rest)
            else some ([c], d :: tail)
        | [] => some ([c], [])
      else none

/-- Decimal digits. The whole part of a number has no leading zeros. -/
def digits? (leadingZeros : Bool) (cs : List Char) : Option (List Char × List Char) := do
  let (ds, rest) ← groups? Char.isDigit cs
  match leadingZeros, ds with
  | false, '0' :: _ :: _ => none
  | _, _ => some (ds, rest)

/-- An integer within the signed 64-bit words. -/
def fitting? (n : Int) : Option Tree :=
  if Binary64.isSignedWord n then some (.int n) else none

/-- An integer in a base other than ten, from behind its mark. -/
def based? (base : Nat) (isDigit : Char → Bool) (cs : List Char) : Option Tree := do
  let (digits, rest) ← groups? isDigit cs
  let values ← digits.mapM Hexadecimal.value?
  let n : Nat := values.foldl (fun n d => n * base + d) 0
  if rest = [] then fitting? n else none

/-- A decimal integer. -/
def integer? (cs : List Char) : Option Tree := do
  let (negative, cs) := splitSign cs
  let (digits, rest) ← digits? false cs
  let n : Int := foldDigits 10 0 digits
  if rest = [] then fitting? (if negative then -n else n) else none

/-- An infinity, or what is not a number. -/
def special? (cs : List Char) : Option Tree :=
  match splitSign cs with
  | (negative, ['i', 'n', 'f']) => some (.float (Binary64.infinity negative))
  | (_, ['n', 'a', 'n']) => some (.float (0.0 / 0.0))
  | _ => none

/-- Whether a letter stands in front of an exponent. -/
def isExponentMark (c : Char) : Bool := c = 'e' || c = 'E'

/-- The exponent that the rest of a word spells, together with the tokens behind the word: a sign
in front of it is part of the word if it is a minus, and a token if it is a plus. -/
def exponent? (cs : List Char) (ts : List Token) : Option (Int × List Token) := do
  match cs with
  | [] => some (0, ts)
  | c :: rest =>
      if isExponentMark c then
        match rest, ts with
        | [], .mark '+' :: .word ds :: ts =>
            let (digits, rest) ← digits? true ds
            if rest = [] then some (foldDigits 10 0 digits, ts) else none
        | _, _ =>
            let (negative, rest) := splitSign rest
            let (digits, rest) ← digits? true rest
            let n : Int := foldDigits 10 0 digits
            if rest = [] then some (if negative then -n else n, ts) else none
      else none

/-- A double that is not too large. -/
def finite? (x : Float) : Option Tree :=
  match Binary64.read x with
  | .infinite _ => none
  | _ => some (.float x)

/-- A double, from the word of its whole part, the word of its fraction if there is one, and the
tokens behind them. The exponent ends the last of the words. -/
def double? (cs : List Char) (fraction : Option (List Char)) (ts : List Token) :
    Option (Tree × List Token) := do
  let (negative, cs) := splitSign cs
  let (whole, rest) ← digits? false cs
  let (fraction, rest) ←
    match fraction, rest with
    | none, rest => some ([], rest)
    | some ds, [] => digits? true ds
    | some _, _ :: _ => none
  let (exponent, ts) ← exponent? rest ts
  let digits := foldDigits 10 0 (whole ++ fraction)
  pure (← finite? (Binary64.ofDecimal negative digits (exponent - fraction.length)), ts)

/-- A number, from its first word and the tokens behind it. -/
def ofWord? (cs : List Char) (ts : List Token) : Option (Tree × List Token) :=
  match cs with
  | '0' :: 'x' :: rest =>
      (based? 16 (fun c => (Hexadecimal.value? c).isSome) rest).map (·, ts)
  | '0' :: 'o' :: rest => (based? 8 (fun c => '0' ≤ c && c ≤ '7') rest).map (·, ts)
  | '0' :: 'b' :: rest => (based? 2 (fun c => c = '0' || c = '1') rest).map (·, ts)
  | _ =>
      if cs.any isExponentMark then double? cs none ts
      else
        match ts with
        | .mark '.' :: .word fraction :: ts => double? cs (some fraction) ts
        | .mark '.' :: _ => none
        | _ => ((special? cs).or (integer? cs)).map (·, ts)

end BoundedTables.Toml.Number
