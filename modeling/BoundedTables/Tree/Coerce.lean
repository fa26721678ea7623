import BoundedTables.Tree.Basic
import BoundedTables.Decimal.Scan
import BoundedTables.Text.Lowercase

/-!
# Reading scalars leniently

A setting is read as the kind of value it needs, whatever kind its source gave it: numbers, flags
and text convert into each other where that makes sense.
-/

namespace BoundedTables.Tree

open Decimal Binary64

/-- The flag that a text spells in words, in any case. -/
def wordFlag? (s : String) : Option Bool :=
  match Text.lower s with
  | "true" | "on" | "yes" => some true
  | "false" | "off" | "no" => some false
  | _ => none

/-- A natural number below `2 ^ 64`. A double is rounded, with halves away from zero, and clamped
into the range; a negative integer is refused. -/
def word? : Tree → Option Nat
  | .bool b => some (if b then 1 else 0)
  | .int n => if n < 0 then none else some n.toNat
  | .float x => some (roundToWord x)
  | .text s =>
      match wordFlag? s with
      | some b => some (if b then 1 else 0)
      | none => Decimal.word? s.toList
  | _ => none

/-- A natural number cut down to its lowest 32 bits. -/
def word32? (t : Tree) : Option Nat := t.word?.map (· % UInt32.size)

/-- A double. -/
def float? : Tree → Option Float
  | .bool b => some (if b then 1.0 else 0.0)
  | .int n => some (ofInt n)
  | .float x => some x
  | .text s =>
      match wordFlag? s with
      | some b => some (if b then 1.0 else 0.0)
      | none => Decimal.float? s.toList
  | _ => none

/-- A flag. A number is one unless it is zero. -/
def flag? : Tree → Option Bool
  | .bool b => some b
  | .int n => some (n != 0)
  | .float x => some (x != 0.0)
  | .text s =>
      match s with
      | "1" => some true
      | "0" => some false
      | _ => wordFlag? s
  | _ => none

/-- A text. -/
def text? : Tree → Option String
  | .bool b => some (toString b)
  | .int n => some (intText n)
  | .float x => some (floatText x)
  | .text s => some s
  | _ => none

end BoundedTables.Tree
