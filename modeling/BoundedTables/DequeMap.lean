import BoundedTables.Table.LinkedTable

/-!
# Deque maps

A map whose entries stand in a double-ended queue. Inserting appends a new key at the back and
updates a present one in place; pushing also moves a present key to that end. In fixed mode a new
key evicts the entry at the opposite end.
-/

namespace BoundedTables

open Table Hashing

/-- A map ordered as a double-ended queue. -/
structure DequeMap (κ ν : Type) where
  table : LinkedTable κ ν

namespace DequeMap

variable {κ ν : Type}

/-- An empty map with the comparer that the policy chooses. -/
def new [ByteHash] [ByteKey κ] [DecidableEq κ] (o : TableOptions) (seed : Seed) :
    Except TableError (DequeMap κ ν) :=
  (LinkedTable.new o seed).map DequeMap.mk

/-- An empty map with a given comparer. -/
def withComparer (o : TableOptions) (c : Comparer κ) : Except TableError (DequeMap κ ν) :=
  (LinkedTable.withComparer o c).map DequeMap.mk

/-- Update a present key, moving it to an end if asked to, or add a new key at that end. The
previous value is returned. -/
def upsert (m : DequeMap κ ν) (key : κ) (value : ν) (side : End) (relocate : Bool) :
    Option ν × DequeMap κ ν :=
  let hash := m.table.hasher.hash key
  match m.table.find key hash with
  | (some i, t) =>
      let previous := (t.entry? i).map (·.2)
      let t := t.modifyValue i fun _ => value
      (previous, ⟨if relocate then t.moveTo i side else t.touch⟩)
  | (none, t) =>
      let t := if t.isFull then (t.evict side.opposite).2 else t
      (none, ⟨t.attach key value hash side⟩)

/-- Append a key at the back, or update it in place. -/
def insert (m : DequeMap κ ν) (key : κ) (value : ν) : Option ν × DequeMap κ ν :=
  m.upsert key value .back false

/-- Make a key the back entry. -/
def pushBack (m : DequeMap κ ν) (key : κ) (value : ν) : Option ν × DequeMap κ ν :=
  m.upsert key value .back true

/-- Make a key the front entry. -/
def pushFront (m : DequeMap κ ν) (key : κ) (value : ν) : Option ν × DequeMap κ ν :=
  m.upsert key value .front true

/-- Remove the entry at an end. -/
def pop (m : DequeMap κ ν) (side : End) : Except TableError (κ × ν) × DequeMap κ ν :=
  match m.table.slotAt side with
  | none => (.error .empty, m)
  | some i =>
      match m.table.detach i with
      | (some node, t) => (.ok (node.key, node.value), ⟨t⟩)
      | (none, t) => (.error .empty, ⟨t⟩)

/-- Remove the front entry. -/
def popFront (m : DequeMap κ ν) : Except TableError (κ × ν) × DequeMap κ ν := m.pop .front

/-- Remove the back entry. -/
def popBack (m : DequeMap κ ν) : Except TableError (κ × ν) × DequeMap κ ν := m.pop .back

/-- The entry at an end. -/
def peek (m : DequeMap κ ν) (side : End) : Except TableError (κ × ν) :=
  match (m.table.slotAt side).bind m.table.entry? with
  | some e => .ok e
  | none => .error .empty

/-- The front entry. -/
def peekFront (m : DequeMap κ ν) : Except TableError (κ × ν) := m.peek .front

/-- The back entry. -/
def peekBack (m : DequeMap κ ν) : Except TableError (κ × ν) := m.peek .back

/-- Move a key to an end; the answer tells whether it is present. -/
def moveKey (m : DequeMap κ ν) (key : κ) (side : End) : Bool × DequeMap κ ν :=
  match m.table.lookup key with
  | (some i, t) => (true, ⟨t.moveTo i side⟩)
  | (none, t) => (false, ⟨t⟩)

/-- Move a key to the front. -/
def moveToFront (m : DequeMap κ ν) (key : κ) : Bool × DequeMap κ ν := m.moveKey key .front

/-- Move a key to the back. -/
def moveToBack (m : DequeMap κ ν) (key : κ) : Bool × DequeMap κ ν := m.moveKey key .back

/-- Remove a key and return its value. -/
def remove (m : DequeMap κ ν) (key : κ) : Option ν × DequeMap κ ν :=
  match m.table.lookup key with
  | (some i, t) =>
      let (node, t) := t.detach i
      (node.map (·.value), ⟨t⟩)
  | (none, t) => (none, ⟨t⟩)

/-- The value of a key. -/
def get (m : DequeMap κ ν) (key : κ) : Option ν × DequeMap κ ν :=
  let (found, t) := m.table.lookup key
  ((found.bind t.entry?).map (·.2), ⟨t⟩)

/-- Change the value of a key in place and return the new value. Cursors stay valid. -/
def modify (m : DequeMap κ ν) (key : κ) (f : ν → ν) : Option ν × DequeMap κ ν :=
  match m.table.lookup key with
  | (some i, t) =>
      let t := t.modifyValue i f
      ((t.entry? i).map (·.2), ⟨t⟩)
  | (none, t) => (none, ⟨t⟩)

/-- The value of a key, or an error. -/
def require (m : DequeMap κ ν) (key : κ) : Except TableError ν × DequeMap κ ν :=
  match m.get key with
  | (some v, m) => (.ok v, m)
  | (none, m) => (.error .keyNotFound, m)

/-- Whether a key is present. -/
def containsKey (m : DequeMap κ ν) (key : κ) : Bool × DequeMap κ ν :=
  let (found, t) := m.table.lookup key
  (found.isSome, ⟨t⟩)

/-- The number of entries. -/
def size (m : DequeMap κ ν) : Nat := m.table.size

/-- The entries dropped to make room since construction. -/
def evictions (m : DequeMap κ ν) : Nat := m.table.evictions

/-- Drop every entry. -/
def clear (m : DequeMap κ ν) : DequeMap κ ν := ⟨m.table.clear⟩

/-- The entries from front to back. -/
def toList (m : DequeMap κ ν) : List (κ × ν) := m.table.toList

/-- The entries from back to front. -/
def toListBack (m : DequeMap κ ν) : List (κ × ν) := m.table.toListBack

/-- A cursor at the front. -/
def cursor (m : DequeMap κ ν) : Cursor := m.table.cursor

/-- The next entry for a cursor, from front to back. -/
def advance (m : DequeMap κ ν) (c : Cursor) : Except TableError (Option (κ × ν)) × Cursor :=
  m.table.advance c

end DequeMap

end BoundedTables
