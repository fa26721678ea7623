import BoundedTables.Decimal.Text
import BoundedTables.Text.Hexadecimal

/-!
# JSON values

A JSON document keeps the difference between a number written as an integer and one written with
a fraction or an exponent, because settings that count something accept only the former.
-/

namespace BoundedTables

/-- A JSON value. An `integer` fits in a 64-bit word, signed or unsigned; all other numbers are
doubles. Members keep the order in which they were written. -/
inductive Json where
  | null
  | bool (value : Bool)
  | integer (value : Int)
  | float (value : Float)
  | text (value : String)
  | array (items : List Json)
  | object (members : List (String × Json))
  deriving Inhabited

namespace Json

/-- The written form of one character inside quotes. -/
def escape (c : Char) : List Char :=
  match c with
  | '"' => ['\\', '"']
  | '\\' => ['\\', '\\']
  | '\n' => ['\\', 'n']
  | '\r' => ['\\', 'r']
  | '\t' => ['\\', 't']
  | _ =>
      if c.toNat = 8 then ['\\', 'b']
      else if c.toNat = 12 then ['\\', 'f']
      else if c.toNat < 32 then
        ['\\', 'u', '0', '0', Hexadecimal.lowerDigit (c.toNat / 16),
          Hexadecimal.lowerDigit (c.toNat % 16)]
      else [c]

/-- A quoted string. -/
def quote (s : String) : String := "\"" ++ String.ofList (s.toList.flatMap escape) ++ "\""

/-- A number written as a double. What is not finite has no JSON form and is written as null. -/
def floatText (x : Float) : String :=
  match Binary64.read x with
  | .finite .. => Decimal.FloatFormat.interchange.text "null" x
  | _ => "null"

mutual

/-- The compact written form of a value, put in front of `rest`. -/
def compact (rest : List String) : Json → List String
  | .null => "null" :: rest
  | .bool b => (if b then "true" else "false") :: rest
  | .integer n => Decimal.intText n :: rest
  | .float x => floatText x :: rest
  | .text s => quote s :: rest
  | .array items => "[" :: compactItems ("]" :: rest) true items
  | .object members => "\x7b" :: compactMembers ("\x7d" :: rest) true members

/-- The items of an array, with a comma before all but the first. -/
def compactItems (rest : List String) (first : Bool) : List Json → List String
  | [] => rest
  | item :: items =>
      let tail := compact (compactItems rest false items) item
      if first then tail else "," :: tail

/-- The members of an object, with a comma before all but the first. -/
def compactMembers (rest : List String) (first : Bool) : List (String × Json) → List String
  | [] => rest
  | (name, value) :: members =>
      let tail := quote name :: ":" :: compact (compactMembers rest false members) value
      if first then tail else "," :: tail

end

/-- The compact written form of a value. -/
def render (value : Json) : String := String.join (compact [] value)

/-- The value of the last member with a name. -/
def member? (name : String) : Json → Option Json
  | .object members => (members.reverse.find? fun m => m.1 == name).map (·.2)
  | _ => none

/-- The integer of a number written as one. -/
def int? : Json → Option Int
  | .integer n => some n
  | _ => none

/-- The natural number of a number written as one. -/
def nat? : Json → Option Nat
  | .integer n => if 0 ≤ n then some n.toNat else none
  | _ => none

/-- The double nearest to a number. -/
def float? : Json → Option Float
  | .integer n => some (Binary64.ofInt n)
  | .float x => some x
  | _ => none

/-- The flag. -/
def bool? : Json → Option Bool
  | .bool b => some b
  | _ => none

/-- The text. -/
def text? : Json → Option String
  | .text s => some s
  | _ => none

/-- The items of an array. -/
def array? : Json → Option (List Json)
  | .array items => some items
  | _ => none

/-- The members of an object. -/
def object? : Json → Option (List (String × Json))
  | .object members => some members
  | _ => none

end Json

end BoundedTables
