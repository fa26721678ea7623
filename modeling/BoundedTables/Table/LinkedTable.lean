import BoundedTables.Table.Arena
import BoundedTables.Table.ChainIndex
import BoundedTables.Table.LinkedOrder
import BoundedTables.Table.Cursor
import BoundedTables.Table.Options

/-!
# Linked tables

A chained hash table whose nodes also stand in a list. The arena holds the nodes, the index finds
them by key, and the order strings them up; every operation here updates all three, so that the
keys reachable through the index are those reached by walking the list.
-/

namespace BoundedTables.Table

open Hashing Sizing

/-- An entry with the masked hash of its key. -/
structure LinkedNode (κ ν : Type) where
  key : κ
  value : ν
  hash : UInt32

/-- Nodes in an arena, found through an index and ordered by a list. -/
structure LinkedTable (κ ν : Type) where
  arena : Arena (LinkedNode κ ν)
  index : ChainIndex
  order : LinkedOrder
  hasher : KeyHasher κ
  loadFactor : LoadFactor
  mode : CapacityMode
  capacity : Nat
  evictions : Nat
  version : UInt64
  journal : Journal

namespace LinkedTable

variable {κ ν : Type}

/-- An empty table. -/
def build (o : TableOptions) (f : LoadFactor) (hasher : KeyHasher κ) (journal : Journal) :
    LinkedTable κ ν :=
  { arena := .empty
    index := .withBuckets (bucketCount o.capacity f)
    order := .empty
    hasher
    loadFactor := f
    mode := o.mode
    capacity := o.capacity
    evictions := 0
    version := 0
    journal }

/-- An empty table with the comparer that the policy chooses. -/
def new [ByteHash] [ByteKey κ] [DecidableEq κ] (o : TableOptions) (seed : Seed) :
    Except TableError (LinkedTable κ ν) := do
  let f ← o.check
  pure (build o f (.ofPolicy o.hashing seed) .empty)

/-- An empty table with a given comparer. -/
def withComparer (o : TableOptions) (c : Comparer κ) : Except TableError (LinkedTable κ ν) := do
  let f ← o.check
  let (hasher, journal) := KeyHasher.withComparer o.hashing c
  pure (build o f hasher journal)

/-- The number of entries. -/
def size (t : LinkedTable κ ν) : Nat := t.arena.size

/-- Whether one more key would exceed a fixed capacity. -/
def isFull (t : LinkedTable κ ν) : Bool := t.mode = .fixed ∧ t.capacity ≤ t.arena.size

/-- Whether a slot holds a key. -/
def holds (t : LinkedTable κ ν) (key : κ) (hash : UInt32) (i : Nat) : Bool :=
  match t.arena.get? i with
  | some node => node.hash = hash && t.hasher.comparer.equals node.key key
  | none => false

/-- Note how many nodes one lookup visited. -/
def record (t : LinkedTable κ ν) (visited : Nat) : LinkedTable κ ν :=
  let (hasher, journal) := t.hasher.record visited t.journal
  { t with hasher, journal }

/-- The slot of a key. Every search counts as one lookup. -/
def find (t : LinkedTable κ ν) (key : κ) (hash : UInt32) : Option Nat × LinkedTable κ ν :=
  let (found, visited) := t.index.find hash (t.holds key hash)
  (found, t.record visited)

/-- The slot of a key whose hash is not known yet. -/
def lookup (t : LinkedTable κ ν) (key : κ) : Option Nat × LinkedTable κ ν :=
  t.find key (t.hasher.hash key)

/-- The slot at an end of the list. -/
def slotAt (t : LinkedTable κ ν) : End → Option Nat
  | .front => t.order.head
  | .back => t.order.tail

/-- Note a change of the contents. -/
def touch (t : LinkedTable κ ν) : LinkedTable κ ν := { t with version := t.version + 1 }

/-- The occupied slots with their hashes, in ascending order. -/
def hashedSlots (t : LinkedTable κ ν) : List (Nat × UInt32) :=
  t.arena.occupied.map fun (i, node) => (i, node.hash)

/-- Grow the index to a prime past twice its length when the entries exceed the load factor. Where
the search for this prime has no end, the table stays as it is; no index that can be allocated is
long enough for that. -/
def growIndex (t : LinkedTable κ ν) : LinkedTable κ ν :=
  let buckets := t.index.bucketCount
  if t.loadFactor.admits buckets t.arena.size then t
  else
    match nextPrime (min (2 * buckets) Binary64.maxWord) with
    | none => t
    | some grown =>
        { t with
          index := .ofSlots grown t.hashedSlots
          journal := t.journal.log (.indexGrown buckets grown) }

/-- Add an entry at an end of the list. -/
def attach (t : LinkedTable κ ν) (key : κ) (value : ν) (hash : UInt32) (side : End) :
    LinkedTable κ ν :=
  let (i, arena) := t.arena.insert ⟨key, value, hash⟩
  let index := t.index.link hash i
  let order := match side with
    | .front => t.order.pushFront i
    | .back => t.order.pushBack i
  growIndex (touch { t with arena, index, order })

/-- Take the node in a slot out of the arena, the index and the list. -/
def detach (t : LinkedTable κ ν) (i : Nat) : Option (LinkedNode κ ν) × LinkedTable κ ν :=
  match t.arena.get? i with
  | none => (none, t)
  | some node =>
      let arena := (t.arena.remove i).2
      let index := (t.index.unlink node.hash i).2
      let order := t.order.detach i
      (some node, touch { t with arena, index, order })

/-- Detach the node at an end because a fixed capacity was reached. -/
def evict (t : LinkedTable κ ν) (side : End) : Option (LinkedNode κ ν) × LinkedTable κ ν :=
  match t.slotAt side with
  | none => (none, t)
  | some i =>
      match t.detach i with
      | (none, t) => (none, t)
      | (some node, t) =>
          (some node,
            { t with
              evictions := t.evictions + 1
              journal := t.journal.log (.linkedEvicted i side) })

/-- Move the node in a slot to an end of the list. -/
def moveTo (t : LinkedTable κ ν) (i : Nat) (side : End) : LinkedTable κ ν :=
  let order := match side with
    | .front => t.order.moveToFront i
    | .back => t.order.moveToBack i
  touch { t with order }

/-- Change the value in a slot. -/
def modifyValue (t : LinkedTable κ ν) (i : Nat) (f : ν → ν) : LinkedTable κ ν :=
  { t with arena := t.arena.modify i fun node => { node with value := f node.value } }

/-- The key and the value in a slot. -/
def entry? (t : LinkedTable κ ν) (i : Nat) : Option (κ × ν) :=
  (t.arena.get? i).map fun node => (node.key, node.value)

/-- Drop every entry. -/
def clear (t : LinkedTable κ ν) : LinkedTable κ ν :=
  touch { t with arena := .empty, index := t.index.clear, order := .empty }

/-- A double-ended iterator over the list. -/
structure Iter where
  front : Option Nat
  back : Option Nat
  remaining : Nat

/-- An iterator over all entries. -/
def iter (t : LinkedTable κ ν) : Iter := ⟨t.order.head, t.order.tail, t.arena.size⟩

/-- The next entry from the front. -/
def next (t : LinkedTable κ ν) (it : Iter) : Option (κ × ν) × Iter :=
  if it.remaining = 0 then (none, it)
  else
    match it.front.bind fun i => (t.entry? i).map fun e => (i, e) with
    | none => (none, it)
    | some (i, e) => (some e, { it with front := t.order.after i, remaining := it.remaining - 1 })

/-- The next entry from the back. -/
def nextBack (t : LinkedTable κ ν) (it : Iter) : Option (κ × ν) × Iter :=
  if it.remaining = 0 then (none, it)
  else
    match it.back.bind fun i => (t.entry? i).map fun e => (i, e) with
    | none => (none, it)
    | some (i, e) => (some e, { it with back := t.order.before i, remaining := it.remaining - 1 })

/-- Take entries from one end until the iterator is exhausted, at most `fuel` many. -/
def drain (step : Iter → Option (κ × ν) × Iter) : Nat → Iter → List (κ × ν)
  | 0, _ => []
  | fuel + 1, it =>
      match step it with
      | (none, _) => []
      | (some e, it) => e :: drain step fuel it

/-- The entries from front to back. -/
def toList (t : LinkedTable κ ν) : List (κ × ν) := drain t.next t.arena.size t.iter

/-- The entries from back to front. -/
def toListBack (t : LinkedTable κ ν) : List (κ × ν) := drain t.nextBack t.arena.size t.iter

/-- A cursor at the front. -/
def cursor (t : LinkedTable κ ν) : Cursor := ⟨t.version, t.order.head, t.arena.size⟩

/-- The next entry for a cursor, from front to back. -/
def advance (t : LinkedTable κ ν) (c : Cursor) : Except TableError (Option (κ × ν)) × Cursor :=
  c.advance t.version fun i => (t.entry? i).map fun e => (e, t.order.after i)

end LinkedTable

end BoundedTables.Table
