import BoundedTables.Tree.Basic
import BoundedTables.Decimal.Scan

/-!
# Key paths

A top-level key of a layer may spell a path: names joined by points, and list positions in
brackets. A key that is not of this form is a single name. Assigning along a path makes the tables
and lists that it goes through.
-/

namespace BoundedTables

open Decimal

/-- One step down from a value. -/
inductive PathStep where
  | child (name : String)
  | index (position : Int)
  deriving DecidableEq, Repr

/-- A member of the root and the steps below it. -/
structure KeyPath where
  root : String
  steps : List PathStep
  deriving DecidableEq, Repr

namespace KeyPath

/-- The characters of names in a path. -/
def isNameChar (c : Char) : Bool := c.isAlphanum || c = ' ' || c = '_' || c = '-'

/-- The characters that may surround a list position. -/
def isBlank (c : Char) : Bool := c = ' ' || c = '\t'

/-- A list position up to its closing bracket. -/
def index? (cs : List Char) : Option (Int × List Char) :=
  let cs := cs.dropWhile isBlank
  let (negative, cs) := match cs with
    | '-' :: rest => (true, rest)
    | _ => (false, cs)
  match natOfDigits? (cs.takeWhile Char.isDigit), (cs.dropWhile Char.isDigit).dropWhile isBlank with
  | some n, ']' :: rest =>
      let position : Int := if negative then -(n : Int) else n
      if Binary64.isSignedWord position then some (position, rest) else none
  | _, _ => none

/-- The steps that a text spells, at most `fuel` of them. -/
def steps? : Nat → List Char → Option (List PathStep)
  | _, [] => some []
  | 0, _ => none
  | fuel + 1, '.' :: rest =>
      let name := rest.takeWhile isNameChar
      if name = [] then none
      else (steps? fuel (rest.dropWhile isNameChar)).map (.child (String.ofList name) :: ·)
  | fuel + 1, '[' :: rest =>
      match index? rest with
      | some (position, rest) => (steps? fuel rest).map (.index position :: ·)
      | none => none
  | _ + 1, _ => none

/-- The path that a text spells. -/
def parse? (cs : List Char) : Option KeyPath :=
  let name := cs.takeWhile isNameChar
  if name = [] then none
  else (steps? cs.length (cs.dropWhile isNameChar)).map fun steps => ⟨String.ofList name, steps⟩

/-- The path of a key: what it spells, or the key itself. -/
def ofKey (key : String) : KeyPath := (parse? key.toList).getD ⟨key, []⟩

end KeyPath

namespace Tree

/-- The items of a list; other values have none. -/
def items : Tree → List Tree
  | .list ts => ts
  | _ => []

/-- The least list position that is too far out for any list. -/
def positionLimit : Nat := 67108864

/-- Where in a list of a given length a position points; a negative one counts from the end.
There is no answer when it counts past the start, or when no list can be that long. -/
def place? (length : Nat) (position : Int) : Option Nat :=
  let i := if position < 0 then (length : Int) + position else position
  if 0 ≤ i ∧ i < positionLimit then some i.toNat else none

/-- Give a place in a list a new value. The list grows with empty values as far as needed. -/
def putItem (items : List Tree) (i : Nat) (value : Tree) : List Tree :=
  if i < items.length then items.set i value
  else items ++ List.replicate (i - items.length) .nil ++ [value]

/-- Assign a value some steps below a tree. A value that a step goes through and that is no table,
or no list, is replaced by an empty one. There is no answer when a position has no place in
its list. -/
def assignBelow (target : Tree) (value : Tree) : List PathStep → Option Tree
  | [] => some value
  | [.child name] => some (assign target name value)
  | .child name :: rest => do
      let current := (member? target.members name).getD .nil
      let changed ← assignBelow current value rest
      pure (.table (putMember target.members name changed))
  | .index position :: rest => do
      let items := target.items
      let i ← place? items.length position
      let changed ← assignBelow (items.getD i .nil) value rest
      pure (.list (putItem items i changed))

/-- Assign a value along the path of a key. -/
def assignKey (target : Tree) (key : String) (value : Tree) : Option Tree :=
  let path := KeyPath.ofKey key
  assignBelow target value (.child path.root :: path.steps)

/-- Assign every member of a layer along the path of its key. -/
def overlay (target : Tree) (layer : List (String × Tree)) : Option Tree :=
  layer.foldlM (fun tree m => tree.assignKey m.1 m.2) target

end Tree

end BoundedTables
