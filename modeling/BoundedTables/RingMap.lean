import BoundedTables.Table.ChainIndex
import BoundedTables.Table.Cursor
import BoundedTables.Table.Options

/-!
# Ring maps

A map whose entries live in a ring of slots ordered by age. A new key takes the slot behind the
newest entry; removals leave holes, and when the slot behind the newest entry is that of the
oldest one, the ring is packed first. A full ring evicts its oldest entry in fixed mode and
doubles in dynamic mode. Updating a key refreshes its stamp but not its place.
-/

namespace BoundedTables

open Table Hashing Sizing

/-- An entry with the masked hash of its key and the time of its last insertion or update. -/
structure RingNode (κ ν : Type) where
  key : κ
  value : ν
  hash : UInt32
  stamp : Nat

/-- How a ring is occupied. Stamps are zero when there is no entry. -/
structure RingStats where
  size : Nat
  capacity : Nat
  /-- Empty slots between the oldest and the newest entry. -/
  holes : Nat
  oldestStamp : Nat
  newestStamp : Nat
  deriving DecidableEq, Repr

/-- A map ordered by age in a ring of slots. -/
structure RingMap (κ ν : Type) where
  ring : Array (Option (RingNode κ ν))
  index : ChainIndex
  hasher : KeyHasher κ
  loadFactor : LoadFactor
  mode : CapacityMode
  /-- The slot of the oldest entry. -/
  head : Nat
  /-- The slot of the newest entry. -/
  tail : Nat
  size : Nat
  /-- The logical time, one more with every insertion or update. -/
  clock : Nat
  evictions : Nat
  version : UInt64
  journal : Journal

namespace RingMap

variable {κ ν : Type}

/-- An empty map. -/
def build (o : TableOptions) (f : LoadFactor) (hasher : KeyHasher κ) (journal : Journal) :
    RingMap κ ν :=
  { ring := Array.replicate o.capacity none
    index := .withBuckets (bucketCount o.capacity f)
    hasher
    loadFactor := f
    mode := o.mode
    head := 0
    tail := 0
    size := 0
    clock := 0
    evictions := 0
    version := 0
    journal }

/-- An empty map with the comparer that the policy chooses. -/
def new [ByteHash] [ByteKey κ] [DecidableEq κ] (o : TableOptions) (seed : Seed) :
    Except TableError (RingMap κ ν) := do
  let f ← o.check
  pure (build o f (.ofPolicy o.hashing seed) .empty)

/-- An empty map with a given comparer. -/
def withComparer (o : TableOptions) (c : Comparer κ) : Except TableError (RingMap κ ν) := do
  let f ← o.check
  let (hasher, journal) := KeyHasher.withComparer o.hashing c
  pure (build o f hasher journal)

/-- The number of slots. -/
def capacity (m : RingMap κ ν) : Nat := m.ring.size

/-- The node in a slot. -/
def node? (m : RingMap κ ν) (i : Nat) : Option (RingNode κ ν) := (m.ring[i]?).join

/-- The key and the value in a slot. -/
def entry? (m : RingMap κ ν) (i : Nat) : Option (κ × ν) :=
  (m.node? i).map fun node => (node.key, node.value)

/-- Whether a slot holds a key. -/
def holds (m : RingMap κ ν) (key : κ) (hash : UInt32) (i : Nat) : Bool :=
  match m.node? i with
  | some node => node.hash = hash && m.hasher.comparer.equals node.key key
  | none => false

/-- Note how many entries one lookup visited. -/
def record (m : RingMap κ ν) (visited : Nat) : RingMap κ ν :=
  let (hasher, journal) := m.hasher.record visited m.journal
  { m with hasher, journal }

/-- The slot of a key. Every search counts as one lookup. -/
def find (m : RingMap κ ν) (key : κ) (hash : UInt32) : Option Nat × RingMap κ ν :=
  let (found, visited) := m.index.find hash (m.holds key hash)
  (found, m.record visited)

/-- The slot of a key whose hash is not known yet. -/
def lookup (m : RingMap κ ν) (key : κ) : Option Nat × RingMap κ ν :=
  m.find key (m.hasher.hash key)

/-- The first occupied slot among `count` slots from a position on, around the ring. -/
def seekForward (m : RingMap κ ν) : Nat → Nat → Option Nat
  | 0, _ => none
  | count + 1, position =>
      let i := position % m.ring.size
      if (m.node? i).isSome then some i else m.seekForward count (i + 1)

/-- The first occupied slot among `count` slots from a position back, around the ring. -/
def seekBackward (m : RingMap κ ν) : Nat → Nat → Option Nat
  | 0, _ => none
  | count + 1, position =>
      let i := position % m.ring.size
      if (m.node? i).isSome then some i else m.seekBackward count (i + m.ring.size - 1)

/-- The nodes from the oldest slot on, once around the ring. -/
def nodesByAge (m : RingMap κ ν) : List (RingNode κ ν) :=
  (List.range m.ring.size).filterMap fun offset => m.node? ((m.head + offset) % m.ring.size)

/-- Move every entry to the first slots of a ring of a given size, in order of age. The buckets
are sized anew unless the ring keeps its size. -/
def repack (m : RingMap κ ν) (capacity : Nat) : RingMap κ ν :=
  let nodes := m.nodesByAge
  let buckets :=
    if capacity = m.ring.size then m.index.bucketCount else bucketCount capacity m.loadFactor
  { m with
    ring := (nodes.map some).toArray ++ Array.replicate (capacity - nodes.length) none
    head := 0
    tail := nodes.length - 1
    index := .ofSlots buckets (nodes.zipIdx.map fun (node, i) => (i, node.hash)) }

/-- Double the ring, unless its length would not fit in a word. -/
def grow (m : RingMap κ ν) : Except TableError (RingMap κ ν) :=
  let capacity := m.ring.size
  if 2 * capacity ≤ Binary64.maxWord then
    let m := m.repack (2 * capacity)
    .ok { m with journal := m.journal.log (.ringGrown capacity (2 * capacity)) }
  else .error (.capacityExhausted capacity)

/-- The slot for a new entry: the one behind the newest entry, after packing the ring when that
is the slot of the oldest. -/
def claimSlot (m : RingMap κ ν) : Except TableError (Nat × RingMap κ ν) :=
  let capacity := m.ring.size
  if m.size = 0 then .ok (0, { m with head := 0 })
  else if capacity ≤ m.size then .error (.capacityExhausted capacity)
  else
    let next := (m.tail + 1) % capacity
    if next = m.head then .ok (m.size, m.repack capacity) else .ok (next, m)

/-- Take the entry out of a slot. -/
def vacate (m : RingMap κ ν) (i : Nat) (hash : UInt32) : RingMap κ ν :=
  let index := (m.index.unlink hash i).2
  let ring := m.ring.setIfInBounds i none
  { m with index, ring, size := m.size - 1, version := m.version + 1 }

/-- Move the oldest or the newest slot inward over holes when it was the slot emptied. -/
def tighten (m : RingMap κ ν) (i : Nat) : RingMap κ ν :=
  let capacity := m.ring.size
  if m.size = 0 then { m with head := 0, tail := 0 }
  else if i = m.head then
    let head := (m.seekForward (capacity - 1) (i + 1)).getD m.tail
    { m with head }
  else if i = m.tail then
    let tail := (m.seekBackward (capacity - 1) (i + capacity - 1)).getD m.head
    { m with tail }
  else m

/-- Empty a slot and keep the oldest and the newest slot occupied. -/
def removeAt (m : RingMap κ ν) (i : Nat) : Option (RingNode κ ν) × RingMap κ ν :=
  match m.node? i with
  | none => (none, m)
  | some node => (some node, (m.vacate i node.hash).tighten i)

/-- Remove the oldest entry because a fixed ring is full. -/
def evictOldest (m : RingMap κ ν) : RingMap κ ν :=
  let head := m.head
  match m.removeAt head with
  | (none, m) => m
  | (some node, m) =>
      { m with
        evictions := m.evictions + 1
        journal := m.journal.log (.ringEvicted head node.stamp) }

/-- Make room for one more entry. A ring that cannot grow stays as it is. -/
def reserveOne (m : RingMap κ ν) : Except TableError Unit × RingMap κ ν :=
  if m.size = m.ring.size then
    match m.mode with
    | .fixed => (.ok (), m.evictOldest)
    | .dynamic =>
        match m.grow with
        | .error e => (.error e, m)
        | .ok m => (.ok (), m)
  else (.ok (), m)

/-- Fill a slot with a new entry. -/
def occupy (m : RingMap κ ν) (i : Nat) (key : κ) (value : ν) (hash : UInt32) : RingMap κ ν :=
  { m with
    clock := m.clock + 1
    ring := m.ring.setIfInBounds i (some ⟨key, value, hash, m.clock + 1⟩)
    index := m.index.link hash i
    tail := i
    size := m.size + 1
    version := m.version + 1 }

/-- Insert or update a key and return its previous value. -/
def insert (m : RingMap κ ν) (key : κ) (value : ν) : Except TableError (Option ν) × RingMap κ ν :=
  let hash := m.hasher.hash key
  match m.find key hash with
  | (some i, m) =>
      let previous := (m.node? i).map (·.value)
      let stamp := m.clock + 1
      (.ok previous,
        { m with
          clock := stamp
          version := m.version + 1
          ring := m.ring.modify i (Option.map fun node => { node with value, stamp }) })
  | (none, m) =>
      match m.reserveOne with
      | (.error e, m) => (.error e, m)
      | (.ok (), m) =>
          match m.claimSlot with
          | .error e => (.error e, m)
          | .ok (i, m) => (.ok none, m.occupy i key value hash)

/-- The value of a key. -/
def get (m : RingMap κ ν) (key : κ) : Option ν × RingMap κ ν :=
  let (found, m) := m.lookup key
  ((found.bind m.node?).map (·.value), m)

/-- Change the value of a key in place and return the new value. Neither its stamp nor the
version changes. -/
def modify (m : RingMap κ ν) (key : κ) (f : ν → ν) : Option ν × RingMap κ ν :=
  match m.lookup key with
  | (none, m) => (none, m)
  | (some i, m) =>
      let change (node : RingNode κ ν) : RingNode κ ν := { node with value := f node.value }
      let m := { m with ring := m.ring.modify i (Option.map change) }
      ((m.node? i).map (·.value), m)

/-- The value of a key, or an error. -/
def require (m : RingMap κ ν) (key : κ) : Except TableError ν × RingMap κ ν :=
  match m.get key with
  | (some v, m) => (.ok v, m)
  | (none, m) => (.error .keyNotFound, m)

/-- Whether a key is present. -/
def containsKey (m : RingMap κ ν) (key : κ) : Bool × RingMap κ ν :=
  let (found, m) := m.lookup key
  (found.isSome, m)

/-- The time of the last insertion or update of a key. -/
def timestamp (m : RingMap κ ν) (key : κ) : Option Nat × RingMap κ ν :=
  let (found, m) := m.lookup key
  ((found.bind m.node?).map (·.stamp), m)

/-- Remove a key and return its value. -/
def remove (m : RingMap κ ν) (key : κ) : Option ν × RingMap κ ν :=
  match m.lookup key with
  | (none, m) => (none, m)
  | (some i, m) =>
      let (node, m) := m.removeAt i
      (node.map (·.value), m)

/-- The entry in a slot of a map that may be empty. -/
def entryAt (m : RingMap κ ν) (i : Nat) : Except TableError (κ × ν) :=
  if m.size = 0 then .error .empty
  else
    match m.entry? i with
    | some e => .ok e
    | none => .error .empty

/-- The oldest entry. -/
def oldest (m : RingMap κ ν) : Except TableError (κ × ν) := m.entryAt m.head

/-- The newest entry. -/
def newest (m : RingMap κ ν) : Except TableError (κ × ν) := m.entryAt m.tail

/-- Remove the oldest entry. -/
def popOldest (m : RingMap κ ν) : Except TableError (κ × ν) × RingMap κ ν :=
  if m.size = 0 then (.error .empty, m)
  else
    match m.removeAt m.head with
    | (some node, m) => (.ok (node.key, node.value), m)
    | (none, m) => (.error .empty, m)

/-- Collect entries from a slot back around the ring until `wanted` are found; the result is in
order of age. -/
def windowBack (m : RingMap κ ν) (found : List (κ × ν)) (wanted : Nat) : Nat → Nat → List (κ × ν)
  | 0, _ => found
  | count + 1, position =>
      if wanted = 0 then found
      else
        let i := position % m.ring.size
        match m.entry? i with
        | some e => m.windowBack (e :: found) (wanted - 1) count (i + m.ring.size - 1)
        | none => m.windowBack found wanted count (i + m.ring.size - 1)

/-- Up to `n` of the newest entries, oldest first. -/
def recentWindow (m : RingMap κ ν) (n : Nat) : List (κ × ν) :=
  m.windowBack [] (min n m.size) m.ring.size (m.tail + m.ring.size)

/-- Drop every entry. The ring keeps its size and the clock its time. -/
def clear (m : RingMap κ ν) : RingMap κ ν :=
  { m with
    ring := Array.replicate m.ring.size none
    index := m.index.clear
    head := 0
    tail := 0
    size := 0
    version := m.version + 1 }

/-- How the ring is occupied. -/
def stats (m : RingMap κ ν) : RingStats :=
  let capacity := m.ring.size
  if m.size = 0 then ⟨0, capacity, 0, 0, 0⟩
  else
    let span := (m.tail + capacity - m.head) % capacity + 1
    let stampAt (i : Nat) : Nat := ((m.node? i).map (·.stamp)).getD 0
    ⟨m.size, capacity, span - m.size, stampAt m.head, stampAt m.tail⟩

/-- An iterator from the oldest to the newest entry. -/
structure Iter where
  position : Nat
  remaining : Nat

/-- An iterator over all entries. -/
def iter (m : RingMap κ ν) : Iter := ⟨m.head, m.size⟩

/-- The next entry of an iterator. -/
def next (m : RingMap κ ν) (it : Iter) : Option (κ × ν) × Iter :=
  if it.remaining = 0 then (none, it)
  else
    match m.seekForward m.ring.size it.position with
    | none => (none, it)
    | some i => (m.entry? i, ⟨(i + 1) % m.ring.size, it.remaining - 1⟩)

/-- Take entries until the iterator is exhausted, at most `fuel` many. -/
def drain (m : RingMap κ ν) : Nat → Iter → List (κ × ν)
  | 0, _ => []
  | fuel + 1, it =>
      match m.next it with
      | (none, _) => []
      | (some e, it) => e :: m.drain fuel it

/-- The entries from the oldest to the newest. -/
def toList (m : RingMap κ ν) : List (κ × ν) := m.drain m.size m.iter

/-- A cursor at the oldest entry. -/
def cursor (m : RingMap κ ν) : Cursor :=
  ⟨m.version, if 0 < m.size then some m.head else none, m.size⟩

/-- The next entry for a cursor, from the oldest on. -/
def advance (m : RingMap κ ν) (c : Cursor) : Except TableError (Option (κ × ν)) × Cursor :=
  c.advance m.version fun start =>
    (m.seekForward m.ring.size start).bind fun i =>
      (m.entry? i).map fun e => (e, some ((i + 1) % m.ring.size))

end RingMap

end BoundedTables
