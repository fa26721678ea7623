import BoundedTables.Toml.Value

/-!
# Sections of TOML documents

A document is a sequence of sections. A section has a header, with the path of a table or of an
element of an array of tables, and the members below it. The members in front of the first header
are the section of the root.
-/

namespace BoundedTables.Toml

/-- A header and the members below it. -/
structure Section where
  path : List String
  /-- Whether the header adds an element to an array of tables. -/
  isElement : Bool
  members : List (String × Value)

namespace Section

open Value

/-- The rest of a line, which holds nothing more. -/
def endLine? (ts : List Token) : Option (List Token) :=
  match skipBlanks ts with
  | [] => some []
  | .lineEnd :: ts => some ts
  | _ => none

/-- A section without members, from behind the first bracket of its header. The fuel bounds the
tokens read. -/
def header? (fuel : Nat) (ts : List Token) : Option (Section × List Token) := do
  match ts with
  | .mark '[' :: ts =>
      let (path, ts) ← path? fuel ts
      let ts ← expect? ']' ts
      let ts ← expect? ']' ts
      pure (⟨path, true, []⟩, ← endLine? ts)
  | _ =>
      let (path, ts) ← path? fuel ts
      let ts ← expect? ']' ts
      pure (⟨path, false, []⟩, ← endLine? ts)

/-- A value under a key. -/
def assignment? (fuel : Nat) (ts : List Token) : Option (List String × Value × List Token) := do
  let (path, ts) ← path? fuel ts
  let ts ← expect? '=' ts
  let (v, ts) ← read? (2 * fuel) (skipBlanks ts)
  pure (path, v, ← endLine? ts)

/-- Add a value to the last section. -/
def assign? (ss : Array Section) (path : List String) (v : Value) : Option (Array Section) :=
  let last := ss.back?.getD ⟨[], false, []⟩
  (insert? last.members v path).map fun members => ss.pop.push { last with members }

/-- The sections of the rest of a document, behind those read so far. The document has fewer
tokens than `size`, and `lines` lines at most are left. -/
def readAll? (size : Nat) : Nat → Array Section → List Token → Option (Array Section)
  | 0, ss, ts => if ts = [] then some ss else none
  | lines + 1, ss, ts =>
      match skipLines ts with
      | [] => some ss
      | .mark '[' :: ts => do
          let (s, ts) ← header? size ts
          readAll? size lines (ss.push s) ts
      | ts => do
          let (path, v, ts) ← assignment? size ts
          readAll? size lines (← assign? ss path v) ts

/-- The sections of a document. -/
def ofText? (s : String) : Option (Array Section) := do
  let ts ← Token.scan? s
  let size := ts.length + 1
  readAll? size size #[] ts

end Section

end BoundedTables.Toml
