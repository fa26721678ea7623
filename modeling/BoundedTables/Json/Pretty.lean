import BoundedTables.Json.Basic

/-!
# JSON on several lines

Every item and every member is written on a line of its own, indented by two blanks for each
array or object around it. Empty arrays and objects stay on one line.
-/

namespace BoundedTables.Json

/-- A line break and the indentation behind it. -/
def newline (depth : Nat) : String := "\n" ++ String.ofList (List.replicate (2 * depth) ' ')

mutual

/-- The written form of a value inside a number of arrays and objects, put in front of `rest`. -/
def lines (depth : Nat) (rest : List String) : Json → List String
  | .array (item :: items) =>
      "[" :: lineItems (depth + 1) (newline depth :: "]" :: rest) true (item :: items)
  | .object (m :: members) =>
      "\x7b" :: lineMembers (depth + 1) (newline depth :: "\x7d" :: rest) true (m :: members)
  | value => compact rest value

/-- The items of an array, with a comma before all but the first. -/
def lineItems (depth : Nat) (rest : List String) (first : Bool) : List Json → List String
  | [] => rest
  | item :: items =>
      let tail := newline depth :: lines depth (lineItems depth rest false items) item
      if first then tail else "," :: tail

/-- The members of an object, with a comma before all but the first. -/
def lineMembers (depth : Nat) (rest : List String) (first : Bool) :
    List (String × Json) → List String
  | [] => rest
  | (name, value) :: members =>
      let tail := newline depth :: quote name :: ": "
        :: lines depth (lineMembers depth rest false members) value
      if first then tail else "," :: tail

end

/-- The written form of a value on several lines. -/
def pretty (value : Json) : String := String.join (lines 0 [] value)

end BoundedTables.Json
