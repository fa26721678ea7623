import BoundedTables.Json.Basic
import BoundedTables.Decimal.Scan
import BoundedTables.Text.Hexadecimal

/-!
# Reading JSON

A strict reader: no comments, no trailing commas, no unpaired surrogates, at most 127 nested
arrays and objects, and nothing but blanks around the value. A number with a fraction or an
exponent is read as its leading digits, as many as fit in a 64-bit word, times a power of ten;
the two are rounded separately.
-/

namespace BoundedTables.Json

open Decimal

/-- Blanks between tokens. -/
def isBlank (c : Char) : Bool := c = ' ' ∨ c = '\t' ∨ c = '\n' ∨ c = '\r'

/-- Drop leading blanks. -/
def skipBlanks (cs : List Char) : List Char := cs.dropWhile isBlank

/-- The character after `\u`: one unit, or a surrogate pair written as two. -/
def unicodeEscape? (cs : List Char) : Option (Char × List Char) := do
  let (unit, rest) ← Hexadecimal.number? 4 cs
  if 0xDC00 ≤ unit ∧ unit < 0xE000 then none
  else if 0xD800 ≤ unit ∧ unit < 0xDC00 then
    match rest with
    | '\\' :: 'u' :: more => do
        let (low, rest) ← Hexadecimal.number? 4 more
        if 0xDC00 ≤ low ∧ low < 0xE000 then
          some (Char.ofNat (0x10000 + (unit - 0xD800) * 0x400 + (low - 0xDC00)), rest)
        else none
    | _ => none
  else some (Char.ofNat unit, rest)

/-- The character after a backslash. -/
def escape? : List Char → Option (Char × List Char)
  | 'u' :: rest => unicodeEscape? rest
  | '"' :: rest => some ('"', rest)
  | '\\' :: rest => some ('\\', rest)
  | '/' :: rest => some ('/', rest)
  | 'b' :: rest => some (Char.ofNat 8, rest)
  | 'f' :: rest => some (Char.ofNat 12, rest)
  | 'n' :: rest => some ('\n', rest)
  | 'r' :: rest => some ('\r', rest)
  | 't' :: rest => some ('\t', rest)
  | _ => none

/-- The rest of a quoted string, after its characters so far in reverse. -/
def string? (fuel : Nat) (read : List Char) (cs : List Char) : Option (String × List Char) :=
  match fuel, cs with
  | 0, _ => none
  | _, [] => none
  | fuel + 1, c :: rest =>
      if c = '"' then some (String.ofList read.reverse, rest)
      else if c = '\\' then do
        let (decoded, rest) ← escape? rest
        string? fuel (decoded :: read) rest
      else if c.toNat < 32 then none
      else string? fuel (c :: read) rest

/-- Append digits to a significand for as long as it fits in a 64-bit word. The digits that no
longer fit are returned. -/
def absorb (significand : Nat) : List Char → Nat × List Char
  | [] => (significand, [])
  | c :: rest =>
      let next := significand * 10 + digitValue c
      if next ≤ Binary64.maxWord then absorb next rest else (significand, c :: rest)

/-- A significand times a power of ten, in steps of at most `10 ^ 308`. Too large is refused. -/
def scaled? (significand : Float) (exponent : Int) : Nat → Option Float
  | 0 => some significand
  | steps + 1 =>
      if exponent.natAbs ≤ 308 then
        let power := Binary64.ofNat (Nat.pow 10 exponent.natAbs)
        if exponent < 0 then some (significand / power)
        else
          let product := significand * power
          if product == Binary64.infinity false then none else some product
      else if significand == 0.0 then some significand
      else if 0 ≤ exponent then none
      else scaled? (significand / Binary64.ofNat (Nat.pow 10 308)) (exponent + 308) steps

/-- The double with the given sign, digits before the point, digits after it, and exponent. -/
def decimal? (negative : Bool) (whole fraction : List Char) (exponent : Int) : Option Float :=
  let (significand, dropped) := absorb 0 whole
  let (significand, unread) := absorb significand fraction
  let taken : Int := fraction.length - unread.length
  if (Nat.pow 2 31 : Nat) ≤ exponent ∧ significand ≠ 0 then none
  else
    let place : Int :=
      if exponent ≤ -(Nat.pow 2 31 : Nat) then -4000 else dropped.length - taken + exponent
    (scaled? (Binary64.ofNat significand) place 16).map fun x => if negative then -x else x

/-- A number literal: its whole digits, without leading zeros, then a fraction and an exponent. -/
def number? (cs : List Char) : Option (Json × List Char) :=
  let (negative, cs) := match cs with
    | '-' :: rest => (true, rest)
    | _ => (false, cs)
  let whole := cs.takeWhile Char.isDigit
  let rest := cs.dropWhile Char.isDigit
  if whole = [] ∨ (whole.head? = some '0' ∧ whole ≠ ['0']) then none
  else
    let (pointed, fraction, rest) := match rest with
      | '.' :: tail => (true, tail.takeWhile Char.isDigit, tail.dropWhile Char.isDigit)
      | _ => (false, [], rest)
    if pointed ∧ fraction = [] then none
    else
      match rest with
      | c :: tail =>
          if c = 'e' ∨ c = 'E' then
            let (down, tail) := splitSign tail
            let digits := tail.takeWhile Char.isDigit
            if digits = [] then none
            else
              let size : Int := foldDigits 10 0 digits
              (decimal? negative whole fraction (if down then -size else size)).map
                fun x => (.float x, tail.dropWhile Char.isDigit)
          else finish negative whole pointed fraction rest
      | [] => finish negative whole pointed fraction rest
where
  /-- A literal without an exponent is an integer if it has no point and fits in a word. -/
  finish (negative : Bool) (whole : List Char) (pointed : Bool) (fraction rest : List Char) :
      Option (Json × List Char) :=
    let value := foldDigits 10 0 whole
    if pointed ∨ Binary64.maxWord < value ∨ (negative ∧ (value = 0 ∨ Nat.pow 2 63 < value)) then
      (decimal? negative whole fraction 0).map fun x => (.float x, rest)
    else some (.integer (if negative then -(value : Int) else value), rest)

mutual

/-- A value, within `depth` further levels of nesting. The fuel bounds the characters read. -/
def value? (fuel depth : Nat) (cs : List Char) : Option (Json × List Char) :=
  match fuel with
  | 0 => none
  | fuel + 1 =>
      match skipBlanks cs with
      | 'n' :: 'u' :: 'l' :: 'l' :: rest => some (.null, rest)
      | 't' :: 'r' :: 'u' :: 'e' :: rest => some (.bool true, rest)
      | 'f' :: 'a' :: 'l' :: 's' :: 'e' :: rest => some (.bool false, rest)
      | '"' :: rest => (string? (rest.length + 1) [] rest).map fun (s, rest) => (.text s, rest)
      | '[' :: rest =>
          if depth ≤ 1 then none
          else
            match skipBlanks rest with
            | ']' :: rest => some (.array [], rest)
            | rest => items? fuel (depth - 1) [] rest
      | '\x7b' :: rest =>
          if depth ≤ 1 then none
          else
            match skipBlanks rest with
            | '\x7d' :: rest => some (.object [], rest)
            | rest => members? fuel (depth - 1) [] rest
      | rest => number? rest

/-- The rest of an array, after the items read so far in reverse. -/
def items? (fuel depth : Nat) (read : List Json) (cs : List Char) : Option (Json × List Char) :=
  match fuel with
  | 0 => none
  | fuel + 1 => do
      let (item, rest) ← value? fuel depth cs
      match skipBlanks rest with
      | ',' :: rest => items? fuel depth (item :: read) rest
      | ']' :: rest => some (.array (item :: read).reverse, rest)
      | _ => none

/-- The rest of an object, after the members read so far in reverse. -/
def members? (fuel depth : Nat) (read : List (String × Json)) (cs : List Char) :
    Option (Json × List Char) :=
  match fuel with
  | 0 => none
  | fuel + 1 =>
      match skipBlanks cs with
      | '"' :: rest => do
          let (name, rest) ← string? (rest.length + 1) [] rest
          match skipBlanks rest with
          | ':' :: rest =>
              let (value, rest) ← value? fuel depth rest
              match skipBlanks rest with
              | ',' :: rest => members? fuel depth ((name, value) :: read) rest
              | '\x7d' :: rest => some (.object ((name, value) :: read).reverse, rest)
              | _ => none
          | _ => none
      | _ => none

end

/-- Read a whole document. -/
def parse? (s : String) : Option Json :=
  let cs := s.toList
  match value? (2 * cs.length + 2) 128 cs with
  | some (value, rest) => if skipBlanks rest = [] then some value else none
  | none => none

end BoundedTables.Json
