import BoundedTables.Json.Basic

/-!
# Configuration trees

What a configuration document, the defaults and the environment are read into before they are
merged: scalars, lists and tables of named values. An integer fits in a signed 64-bit word.
-/

namespace BoundedTables

/-- A value in a configuration. Members keep the order in which they were first named. -/
inductive Tree where
  | nil
  | bool (value : Bool)
  | int (value : Int)
  | float (value : Float)
  | text (value : String)
  | list (items : List Tree)
  | table (members : List (String × Tree))
  deriving Inhabited

namespace Tree

/-- The member with a name. -/
def member? (members : List (String × Tree)) (name : String) : Option Tree :=
  (members.find? fun m => m.1 == name).map (·.2)

/-- Give a member a new value in its place, or add it at the end. -/
def putMember (members : List (String × Tree)) (name : String) (value : Tree) :
    List (String × Tree) :=
  match members with
  | [] => [(name, value)]
  | m :: rest => if m.1 == name then (name, value) :: rest else m :: putMember rest name value

/-- The members of a table; other values have none. -/
def members : Tree → List (String × Tree)
  | .table ms => ms
  | _ => []

/-- Named tables as the members of a table. -/
def layerOf (tables : List (String × List (String × Tree))) : List (String × Tree) :=
  tables.map fun t => (t.1, .table t.2)

mutual

/-- Assign a value to a member of a tree, which becomes a table if it is none. A table is merged
into what the member holds, member by member; every other value replaces it. -/
def assign (target : Tree) (name : String) : Tree → Tree
  | .table incoming =>
      let current := (member? target.members name).getD (.table [])
      .table (putMember target.members name (assignAll current incoming))
  | value => .table (putMember target.members name value)

/-- Assign every one of a list of members. -/
def assignAll (target : Tree) : List (String × Tree) → Tree
  | [] => target
  | (name, value) :: rest => assignAll (assign target name value) rest

end

mutual

/-- The tree of a JSON value. An integer past the signed words becomes a double. -/
def ofJson : Json → Tree
  | .null => .nil
  | .bool b => .bool b
  | .integer n => if Binary64.isSignedWord n then .int n else .float (Binary64.ofInt n)
  | .float x => .float x
  | .text s => .text s
  | .array items => .list (ofItems items)
  | .object ms => .table (ofMembers ms [])

/-- The trees of the items of an array. -/
def ofItems : List Json → List Tree
  | [] => []
  | item :: rest => ofJson item :: ofItems rest

/-- The trees of the members of an object, added to those read before. The last of several
members with one name counts. -/
def ofMembers : List (String × Json) → List (String × Tree) → List (String × Tree)
  | [], read => read
  | (name, value) :: rest, read => ofMembers rest (putMember read name (ofJson value))

end

end Tree

end BoundedTables
