import BoundedTables.Yaml.Token
import BoundedTables.Decimal.Scan

/-!
# YAML nodes

Tokens read into nested nodes. An alias stands for the node that carries its anchor. A collection
lists its nodes in order, the keys and values of a mapping in turn; what is left out is null.
-/

namespace BoundedTables.Yaml

/-- A node of a document. -/
inductive Node where
  | null
  /-- A node without a meaning: a scalar that does not fit its tag, or an alias inside of its own
  anchor. -/
  | undefined
  | bool (value : Bool)
  | int (value : Int)
  | real (text : String)
  | text (value : String)
  | sequence (items : List Node)
  | mapping (members : List Node)
  deriving Inhabited

/-- Anchors met so far: the number each name stands for, and the nodes by number. -/
structure Anchors where
  names : List (String × Nat)
  nodes : List (Nat × Node)
  count : Nat

/-- The anchors at the start of a document. -/
def Anchors.none : Anchors := ⟨[], [], 0⟩

/-- Give a name a new number. -/
def Anchors.register (a : Anchors) (name : String) : Nat × Anchors :=
  (a.count, { a with names := (name, a.count) :: a.names, count := a.count + 1 })

/-- Note the node that carries an anchor. -/
def Anchors.define (a : Anchors) (number : Option Nat) (n : Node) : Anchors :=
  match number with
  | some i => { a with nodes := (i, n) :: a.nodes }
  | .none => a

/-- A flag or nothing, as written in a plain scalar. -/
def Node.word? : String → Option Node
  | "~" | "null" => some .null
  | "true" => some (.bool true)
  | "false" => some (.bool false)
  | _ => none

/-- Whether a text spells a double. -/
def isReal (s : String) : Bool :=
  [".inf", ".Inf", ".INF", "+.inf", "+.Inf", "+.INF", "-.inf", "-.Inf", "-.INF", ".nan", "NaN",
    ".NAN"].contains s || (Decimal.float? s.toList).isSome

/-- An integer in base eight or sixteen, from behind its mark. -/
def based? (base : Nat) (cs : List Char) : Option Int := do
  let (negative, digits) := Decimal.splitSign cs
  let values ← digits.mapM Hexadecimal.value?
  if digits = [] ∨ values.any (fun v => decide (base ≤ v)) then none
  else
    let n : Nat := values.foldl (fun n v => n * base + v) 0
    let n : Int := if negative then -(n : Int) else n
    if Binary64.isSignedWord n then some n else none

/-- An integer with a mark in front of its digits. -/
def marked? : List Char → Option Int
  | '0' :: 'x' :: rest => based? 16 rest
  | '0' :: 'o' :: rest => based? 8 rest
  | '+' :: rest => Decimal.int64? rest
  | _ => none

/-- What a plain scalar stands for. -/
def Node.ofPlain (s : String) : Node :=
  match marked? s.toList, Node.word? s, Decimal.int64? s.toList with
  | some n, _, _ => .int n
  | none, some n, _ => n
  | none, none, some n => .int n
  | none, none, none => if isReal s then .real s else .text s

/-- What a plain scalar with one of the standard tags stands for. -/
def Node.ofTagged (suffix s : String) : Node :=
  match suffix with
  | "bool" => if s = "true" then .bool true else if s = "false" then .bool false else .undefined
  | "int" => ((Decimal.int64? s.toList).map Node.int).getD .undefined
  | "float" => if isReal s then .real s else .undefined
  | "null" => if s = "~" ∨ s = "null" then .null else .undefined
  | _ => .text s

/-- What a scalar stands for. -/
def Node.ofScalar (plain : Bool) (tag : Option (String × String)) (s : String) : Node :=
  if plain then
    match tag with
    | none => .ofPlain s
    | some (handle, suffix) => if handle = "!!" then .ofTagged suffix s else .text s
  else .text s

/-- What comes in front of a node: its anchor and its tag. -/
structure Properties where
  anchor : Option Nat
  tag : Option (String × String)

/-- Read an anchor and a tag, in either order. -/
def properties (a : Anchors) : List Token → Properties × Anchors × List Token
  | .anchor name :: .tag handle suffix :: rest =>
      let (i, a) := a.register name
      (⟨some i, some (handle, suffix)⟩, a, rest)
  | .anchor name :: rest =>
      let (i, a) := a.register name
      (⟨some i, none⟩, a, rest)
  | .tag handle suffix :: .anchor name :: rest =>
      let (i, a) := a.register name
      (⟨some i, some (handle, suffix)⟩, a, rest)
  | .tag handle suffix :: rest => (⟨none, some (handle, suffix)⟩, a, rest)
  | rest => (⟨none, none⟩, a, rest)

mutual

/-- A node. Block collections are read only where they are allowed; `indentless` allows a sequence
at the indentation of its key. -/
def node? (fuel : Nat) (block indentless : Bool) (a : Anchors) (ts : List Token) :
    Option (Node × Anchors × List Token) :=
  match fuel with
  | 0 => none
  | fuel + 1 =>
      match ts with
      | .alias name :: rest =>
          (a.names.lookup name).map fun i => ((a.nodes.lookup i).getD .undefined, a, rest)
      | _ => do
          let (p, a, ts) := properties a ts
          let close (r : Node × Anchors × List Token) : Option (Node × Anchors × List Token) :=
            some (r.1, r.2.1.define p.anchor r.1, r.2.2)
          let sequence (r : List Node × Anchors × List Token) := close (.sequence r.1, r.2)
          let mapping (r : List Node × Anchors × List Token) := close (.mapping r.1, r.2)
          let other : Option (Node × Anchors × List Token) :=
            if p.anchor.isSome ∨ p.tag.isSome then close (.ofScalar true p.tag "", a, ts) else none
          match ts with
          | .blockEntry :: _ =>
              if indentless then sequence (← indentless? fuel a [] ts) else other
          | .scalar plain text :: rest => close (.ofScalar plain p.tag text, a, rest)
          | .flowSequenceStart :: rest => sequence (← flowItems? fuel true a [] rest)
          | .flowMappingStart :: rest => mapping (← flowMembers? fuel true a [] rest)
          | .sequenceStart :: rest => if block then sequence (← items? fuel a [] rest) else other
          | .mappingStart :: rest => if block then mapping (← members? fuel a [] rest) else other
          | _ => other

/-- The rest of a sequence at the indentation of its key. -/
def indentless? (fuel : Nat) (a : Anchors) (read : List Node) (ts : List Token) :
    Option (List Node × Anchors × List Token) :=
  match fuel with
  | 0 => none
  | fuel + 1 =>
      match ts with
      | .blockEntry :: rest =>
          match rest with
          | .blockEntry :: _ | .key :: _ | .value :: _ | .blockEnd :: _ =>
              indentless? fuel a (.null :: read) rest
          | _ => do
              let (n, a, rest) ← node? fuel true false a rest
              indentless? fuel a (n :: read) rest
      | _ => some (read.reverse, a, ts)

/-- The rest of a block sequence. -/
def items? (fuel : Nat) (a : Anchors) (read : List Node) (ts : List Token) :
    Option (List Node × Anchors × List Token) :=
  match fuel with
  | 0 => none
  | fuel + 1 =>
      match ts with
      | .blockEnd :: rest => some (read.reverse, a, rest)
      | .blockEntry :: rest =>
          match rest with
          | .blockEntry :: _ | .blockEnd :: _ => items? fuel a (.null :: read) rest
          | _ => do
              let (n, a, rest) ← node? fuel true false a rest
              items? fuel a (n :: read) rest
      | _ => none

/-- The rest of a block mapping, from a key on. -/
def members? (fuel : Nat) (a : Anchors) (read : List Node) (ts : List Token) :
    Option (List Node × Anchors × List Token) :=
  match fuel with
  | 0 => none
  | fuel + 1 =>
      match ts with
      | .blockEnd :: rest => some (read.reverse, a, rest)
      | .key :: rest =>
          match rest with
          | .key :: _ | .value :: _ | .blockEnd :: _ => memberValue? fuel a (.null :: read) rest
          | _ => do
              let (n, a, rest) ← node? fuel true true a rest
              memberValue? fuel a (n :: read) rest
      | .value :: _ => memberValue? fuel a (.null :: read) ts
      | _ => none

/-- The rest of a block mapping, from a value on. -/
def memberValue? (fuel : Nat) (a : Anchors) (read : List Node) (ts : List Token) :
    Option (List Node × Anchors × List Token) :=
  match fuel with
  | 0 => none
  | fuel + 1 =>
      match ts with
      | .value :: rest =>
          match rest with
          | .key :: _ | .value :: _ | .blockEnd :: _ => members? fuel a (.null :: read) rest
          | _ => do
              let (n, a, rest) ← node? fuel true true a rest
              members? fuel a (n :: read) rest
      | _ => members? fuel a (.null :: read) ts

/-- The rest of a flow sequence. A pair in it is a mapping of its own. -/
def flowItems? (fuel : Nat) (first : Bool) (a : Anchors) (read : List Node) (ts : List Token) :
    Option (List Node × Anchors × List Token) :=
  match fuel with
  | 0 => none
  | fuel + 1 =>
      match ts with
      | .flowSequenceEnd :: rest => some (read.reverse, a, rest)
      | _ => do
          let ts ← (if first then some ts else
            match ts with
            | .flowEntry :: rest => some rest
            | _ => none : Option (List Token))
          match ts with
          | .flowSequenceEnd :: rest => some (read.reverse, a, rest)
          | .key :: rest =>
              let (pair, a, rest) ← flowPair? fuel a rest
              flowItems? fuel false a (.mapping pair :: read) rest
          | _ =>
              let (n, a, rest) ← node? fuel false false a ts
              flowItems? fuel false a (n :: read) rest

/-- A pair in a flow sequence, from behind the key token. -/
def flowPair? (fuel : Nat) (a : Anchors) (ts : List Token) :
    Option (List Node × Anchors × List Token) :=
  match fuel with
  | 0 => none
  | fuel + 1 => do
      let (key, a, ts) ← (match ts with
        | .value :: rest | .flowEntry :: rest | .flowSequenceEnd :: rest =>
            some (Node.null, a, rest)
        | _ => node? fuel false false a ts : Option (Node × Anchors × List Token))
      match ts with
      | .value :: rest =>
          match rest with
          | .flowEntry :: _ | .flowSequenceEnd :: _ => some ([key, .null], a, rest)
          | _ => do
              let (n, a, rest) ← node? fuel false false a rest
              some ([key, n], a, rest)
      | _ => some ([key, .null], a, ts)

/-- The rest of a flow mapping. -/
def flowMembers? (fuel : Nat) (first : Bool) (a : Anchors) (read : List Node) (ts : List Token) :
    Option (List Node × Anchors × List Token) :=
  match fuel with
  | 0 => none
  | fuel + 1 =>
      match ts with
      | .flowMappingEnd :: rest => some (read.reverse, a, rest)
      | _ => do
          let ts ← (if first then some ts else
            match ts with
            | .flowEntry :: rest => some rest
            | _ => none : Option (List Token))
          match ts with
          | .flowMappingEnd :: rest => some (read.reverse, a, rest)
          | .key :: rest =>
              match rest with
              | .value :: _ | .flowEntry :: _ | .flowMappingEnd :: _ =>
                  flowValue? fuel a (.null :: read) rest
              | _ =>
                  let (n, a, rest) ← node? fuel false false a rest
                  flowValue? fuel a (n :: read) rest
          | .value :: _ => flowValue? fuel a (.null :: read) ts
          | _ =>
              let (n, a, rest) ← node? fuel false false a ts
              flowMembers? fuel false a (.null :: n :: read) rest

/-- The rest of a flow mapping, from a value on. -/
def flowValue? (fuel : Nat) (a : Anchors) (read : List Node) (ts : List Token) :
    Option (List Node × Anchors × List Token) :=
  match fuel with
  | 0 => none
  | fuel + 1 =>
      match ts with
      | .value :: rest =>
          match rest with
          | .flowEntry :: _ | .flowMappingEnd :: _ => flowMembers? fuel false a (.null :: read) rest
          | _ => do
              let (n, a, rest) ← node? fuel false false a rest
              flowMembers? fuel false a (n :: read) rest
      | _ => flowMembers? fuel false a (.null :: read) ts

end

end BoundedTables.Yaml
