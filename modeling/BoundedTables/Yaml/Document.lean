import BoundedTables.Yaml.Node
import BoundedTables.Tree.Basic

/-!
# YAML documents

A stream holds at most one document. Only text serves as a key of a mapping: a value under any
other key is left out, whatever it holds.
-/

namespace BoundedTables.Yaml

/-- Pass over the ends of documents. -/
def skipDocumentEnds : List Token → List Token
  | .documentEnd :: rest => skipDocumentEnds rest
  | ts => ts

/-- Pass over directives. -/
def skipDirectives : List Token → List Token
  | .directive :: rest => skipDirectives rest
  | ts => ts

/-- The root of a document that a marker announced. -/
def content? (fuel : Nat) (ts : List Token) : Option (Node × List Token) :=
  match ts with
  | [] | .directive :: _ | .documentStart :: _ | .documentEnd :: _ => some (.null, ts)
  | _ => (node? fuel true false .none ts).map fun (n, _, rest) => (n, rest)

/-- The roots of all documents of a stream, at most `fuel` of them. Only the first one may do
without a marker. -/
def documents? (size : Nat) : Nat → Bool → List Token → Option (List Node)
  | 0, _, _ => none
  | fuel + 1, implicit, ts =>
      let ts := if implicit then ts else skipDocumentEnds ts
      let announced := match ts with
        | .directive :: _ | .documentStart :: _ => true
        | _ => !implicit
      match ts with
      | [] => some []
      | _ => do
          let (n, rest) ←
            if announced then
              match skipDirectives ts with
              | .documentStart :: rest => content? size rest
              | _ => none
            else (node? size true false .none ts).map fun (n, _, rest) => (n, rest)
          let rest := match rest with
            | .documentEnd :: rest => rest
            | rest => rest
          pure (n :: (← documents? size fuel false rest))

/-- Whether a text is a key of a mapping, in the nodes that follow a key or a value of it. What
stands last and has no value is no key. -/
def hasKey (name : String) (atKey : Bool) : List Node → Bool
  | [] => false
  | n :: rest =>
      match n, atKey with
      | .undefined, true => hasKey name true rest
      | .text s, true => (s == name && !rest.isEmpty) || hasKey name false rest
      | _, _ => hasKey name (!atKey) rest

mutual

/-- The tree of a node. There is none when a number is not a double. -/
def Node.toTree? : Node → Option Tree
  | .null | .undefined => some .nil
  | .bool b => some (.bool b)
  | .int n => some (.int n)
  | .real s => (Decimal.float? s.toList).map .float
  | .text s => some (.text s)
  | .sequence items => (itemTrees? items).map .list
  | .mapping nodes => (memberTrees? none nodes).map .table

/-- The trees of the items of a sequence. -/
def itemTrees? : List Node → Option (List Tree)
  | [] => some []
  | n :: rest => do
      let t ← n.toTree?
      pure (t :: (← itemTrees? rest))

/-- The members of a mapping, from its keys and values in turn. Of several values under one key
only the last one is looked at. -/
def memberTrees? (key : Option Node) : List Node → Option (List (String × Tree))
  | [] => some []
  | n :: rest =>
      match key with
      | none => memberTrees? (match n with | .undefined => none | _ => some n) rest
      | some (.text name) => do
          if hasKey name true rest then memberTrees? none rest
          else
            let t ← n.toTree?
            pure ((name, t) :: (← memberTrees? none rest))
      | some _ => memberTrees? none rest

end

/-- Read a text into the members of the root of its document. A root that is not a mapping has
none. -/
def parse? (s : String) : Option (List (String × Tree)) := do
  let ts ← Token.scan? s
  match ← documents? (4 * ts.length + 4) (ts.length + 1) true ts with
  | [] => some []
  | [n] => n.toTree?.map Tree.members
  | _ => none

end BoundedTables.Yaml
