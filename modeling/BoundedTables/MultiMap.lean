import BoundedTables.Table.LinkedTable

/-!
# Multimaps

A map from each key to the list of its values, with the keys in the order of their first
insertion. A key disappears with its last value. In fixed mode a new key evicts the oldest key
with all of its values.
-/

namespace BoundedTables

open Table Hashing

/-- A map from each key to an ordered list of values. -/
structure MultiMap (κ ν : Type) where
  table : LinkedTable κ (List ν)
  /-- The number of values of all keys together. -/
  values : Nat

namespace MultiMap

variable {κ ν : Type}

/-- An empty map with the comparer that the policy chooses. -/
def new [ByteHash] [ByteKey κ] [DecidableEq κ] (o : TableOptions) (seed : Seed) :
    Except TableError (MultiMap κ ν) :=
  (LinkedTable.new o seed).map fun t => ⟨t, 0⟩

/-- An empty map with a given comparer. -/
def withComparer (o : TableOptions) (c : Comparer κ) : Except TableError (MultiMap κ ν) :=
  (LinkedTable.withComparer o c).map fun t => ⟨t, 0⟩

/-- Append a value to those of a key, adding the key at the back if it is new. -/
def insert (m : MultiMap κ ν) (key : κ) (value : ν) : MultiMap κ ν :=
  let hash := m.table.hasher.hash key
  match m.table.find key hash with
  | (some i, t) => ⟨(t.modifyValue i fun vs => vs ++ [value]).touch, m.values + 1⟩
  | (none, t) =>
      let (t, values) :=
        if t.isFull then
          match t.evict .front with
          | (some node, t) => (t, m.values - node.value.length)
          | (none, t) => (t, m.values)
        else (t, m.values)
      ⟨t.attach key [value] hash .back, values + 1⟩

/-- The values of a key, in insertion order. -/
def get (m : MultiMap κ ν) (key : κ) : Option (List ν) × MultiMap κ ν :=
  let (found, t) := m.table.lookup key
  ((found.bind t.entry?).map (·.2), { m with table := t })

/-- The values of a key, or an error. -/
def require (m : MultiMap κ ν) (key : κ) : Except TableError (List ν) × MultiMap κ ν :=
  match m.get key with
  | (some vs, m) => (.ok vs, m)
  | (none, m) => (.error .keyNotFound, m)

/-- Whether a key is present. -/
def containsKey (m : MultiMap κ ν) (key : κ) : Bool × MultiMap κ ν :=
  let (found, t) := m.table.lookup key
  (found.isSome, { m with table := t })

/-- The keys with their values, in the order of first insertion. -/
def toList (m : MultiMap κ ν) : List (κ × List ν) := m.table.toList

/-- Every key with every one of its values. -/
def pairs (m : MultiMap κ ν) : List (κ × ν) :=
  m.toList.flatMap fun (key, vs) => vs.map fun v => (key, v)

/-- Whether any key has a value. -/
def containsValue [BEq ν] (m : MultiMap κ ν) (value : ν) : Bool :=
  m.toList.any fun (_, vs) => vs.any (· == value)

/-- Remove a key with all of its values. -/
def remove (m : MultiMap κ ν) (key : κ) : Option (List ν) × MultiMap κ ν :=
  match m.table.lookup key with
  | (some i, t) =>
      match t.detach i with
      | (some node, t) => (some node.value, ⟨t, m.values - node.value.length⟩)
      | (none, t) => (none, { m with table := t })
  | (none, t) => (none, { m with table := t })

/-- Remove the first occurrence of a value from those of a key, and the key with its last value.
The answer tells whether a value was removed. -/
def removeValue [BEq ν] (m : MultiMap κ ν) (key : κ) (value : ν) : Bool × MultiMap κ ν :=
  match m.table.lookup key with
  | (none, t) => (false, { m with table := t })
  | (some i, t) =>
      let vs := ((t.entry? i).map (·.2)).getD []
      if vs.any (· == value) then
        let left := vs.eraseP (· == value)
        if left.isEmpty then (true, ⟨(t.detach i).2, m.values - 1⟩)
        else (true, ⟨(t.modifyValue i fun _ => left).touch, m.values - 1⟩)
      else (false, { m with table := t })

/-- The number of keys. -/
def size (m : MultiMap κ ν) : Nat := m.table.size

/-- The keys dropped to make room since construction. -/
def evictions (m : MultiMap κ ν) : Nat := m.table.evictions

/-- Drop every key. -/
def clear (m : MultiMap κ ν) : MultiMap κ ν := ⟨m.table.clear, 0⟩

/-- A cursor at the oldest key. -/
def cursor (m : MultiMap κ ν) : Cursor := m.table.cursor

/-- The next key for a cursor, with its values. -/
def advance (m : MultiMap κ ν) (c : Cursor) :
    Except TableError (Option (κ × List ν)) × Cursor :=
  m.table.advance c

end MultiMap

end BoundedTables
