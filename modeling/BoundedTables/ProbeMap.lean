import BoundedTables.BloomFilter
import BoundedTables.ProbeMap.Options
import BoundedTables.Sizing.PowerOfTwo
import BoundedTables.Table.Cursor

/-!
# Probe maps

An open-addressed map with linear probing over a power-of-two number of slots. A removed entry
leaves a tombstone, which later insertions reuse and rebuilds drop. A Bloom filter over the hashes
of the keys answers most lookups of absent keys without probing, and the longest displacement of
any entry bounds every probe.
-/

namespace BoundedTables

open Decimal Sizing Hashing Table

/-- An entry with the masked hash of its key. -/
structure ProbeEntry (κ ν : Type) where
  key : κ
  value : ν
  hash : UInt32

/-- A slot that was never used, that lost its entry, or that holds one. -/
inductive Slot (κ ν : Type) where
  | empty
  | deleted
  | occupied (entry : ProbeEntry κ ν)

/-- The entry in a slot. -/
def Slot.entry? {κ ν : Type} : Slot κ ν → Option (ProbeEntry κ ν)
  | .occupied e => some e
  | .empty | .deleted => none

/-- How a probe map is occupied, and what it did so far. -/
structure ProbeStats where
  capacity : Nat
  live : Nat
  tombstones : Nat
  filteredLookups : Nat
  resizes : Nat
  rehashes : Nat
  shrinks : Nat
  maxDisplacement : Nat
  deriving DecidableEq, Repr

/-- An open-addressed map with a Bloom filter in front. -/
structure ProbeMap (κ ν : Type) where
  slots : Array (Slot κ ν)
  filter : BloomFilter
  hasher : KeyHasher κ
  loadFactor : LoadFactor
  falsePositiveRate : Float
  maxProbeDistance : Nat
  /-- The slot count below which the map never shrinks. -/
  minCapacity : Nat
  live : Nat
  tombstones : Nat
  removals : Nat
  maxDisplacement : Nat
  filteredLookups : Nat
  resizes : Nat
  rehashes : Nat
  shrinks : Nat
  version : UInt64
  journal : Journal

namespace ProbeMap

variable {κ ν : Type}

/-- The number of removals between two checks for a rebuild. -/
def maintenanceInterval : Nat := 16

/-- The share of live slots below which the map shrinks, as a fraction: the double nearest to one
tenth. -/
def shrinkShare : Nat × Nat := (3602879701896397, Nat.pow 2 55)

/-- Slots that were never used. -/
def emptySlots (capacity : Nat) : Array (Slot κ ν) := Array.replicate capacity .empty

/-- The options of the filter for a number of slots. It is sized for twice as many keys. -/
def filterOptions (capacity : Nat) (rate : Float) : BloomOptions := .capped (2 * capacity) rate none

/-- An empty filter for a number of slots. -/
def filterFor (capacity : Nat) (rate : Float) : BloomFilter := .build (filterOptions capacity rate)

/-- An empty map with an empty filter. -/
def build (o : ProbeOptions) (f : LoadFactor) (capacity : Nat) (filter : BloomFilter)
    (hasher : KeyHasher κ) (journal : Journal) : ProbeMap κ ν :=
  { slots := emptySlots capacity
    filter
    hasher
    loadFactor := f
    falsePositiveRate := o.falsePositiveRate
    maxProbeDistance := o.maxProbeDistance
    minCapacity := capacity
    live := 0
    tombstones := 0
    removals := 0
    maxDisplacement := 0
    filteredLookups := 0
    resizes := 0
    rehashes := 0
    shrinks := 0
    version := 0
    journal }

/-- An empty map with the comparer that the policy chooses. -/
def new [ByteHash] [ByteKey κ] [DecidableEq κ] (o : ProbeOptions) (seed : Seed) :
    Except TableError (ProbeMap κ ν) := do
  let f ← o.check
  let capacity ← nextPowerOfTwo o.initialCapacity
  let filter ← BloomFilter.new (filterOptions capacity o.falsePositiveRate)
  pure (build o f capacity filter (.ofPolicy o.hashing seed) .empty)

/-- An empty map with a given comparer. -/
def withComparer (o : ProbeOptions) (c : Comparer κ) : Except TableError (ProbeMap κ ν) := do
  let f ← o.check
  let capacity ← nextPowerOfTwo o.initialCapacity
  let filter ← BloomFilter.new (filterOptions capacity o.falsePositiveRate)
  let (hasher, journal) := KeyHasher.withComparer o.hashing c
  pure (build o f capacity filter hasher journal)

/-- The number of slots. -/
def capacity (m : ProbeMap κ ν) : Nat := m.slots.size

/-- The number of keys. -/
def size (m : ProbeMap κ ν) : Nat := m.live

/-- The slot at a distance behind the home of a hash, around the table. -/
def position (capacity : Nat) (hash : UInt32) (distance : Nat) : Nat :=
  (hash.toNat + distance) % capacity

/-- Whether a slot holds a key. -/
def holds (m : ProbeMap κ ν) (key : κ) (hash : UInt32) (i : Nat) : Bool :=
  match (m.slots[i]?).bind Slot.entry? with
  | some e => e.hash = hash && m.hasher.comparer.equals e.key key
  | none => false

/-- Whether a slot was never used. -/
def isUnused (m : ProbeMap κ ν) (i : Nat) : Bool :=
  match m.slots[i]? with
  | some .empty => true
  | _ => false

/-- Probe `count` slots from a distance on for a key, up to a slot that was never used, and count
the slots visited. -/
def probe (m : ProbeMap κ ν) (key : κ) (hash : UInt32) : Nat → Nat → Nat → Option Nat × Nat
  | 0, _, visited => (none, visited)
  | count + 1, distance, visited =>
      let i := position m.slots.size hash distance
      if m.isUnused i then (none, visited + 1)
      else if m.holds key hash i then (some i, visited + 1)
      else m.probe key hash count (distance + 1) (visited + 1)

/-- The slot of a key. A search that the filter answers is counted by the map; every other one is
recorded with the number of slots it visited. -/
def find (m : ProbeMap κ ν) (key : κ) (hash : UInt32) : Option Nat × ProbeMap κ ν :=
  if m.filter.containsHash hash.toUInt64 then
    let (found, visited) := m.probe key hash (min m.maxDisplacement (m.slots.size - 1) + 1) 0 0
    let (hasher, journal) := m.hasher.record visited m.journal
    (found, { m with hasher, journal })
  else (none, { m with filteredLookups := m.filteredLookups + 1 })

/-- The slot of a key whose hash is not known yet. -/
def lookup (m : ProbeMap κ ν) (key : κ) : Option Nat × ProbeMap κ ν :=
  m.find key (m.hasher.hash key)

/-- The first slot without an entry among `count` slots from a distance on, with its distance. -/
def freeFrom (slots : Array (Slot κ ν)) (hash : UInt32) : Nat → Nat → Option (Nat × Nat)
  | 0, _ => none
  | count + 1, distance =>
      let i := position slots.size hash distance
      if ((slots[i]?).bind Slot.entry?).isSome then freeFrom slots hash count (distance + 1)
      else some (i, distance)

/-- The first slot without an entry at most `bound` behind the home of a hash. -/
def freeSlot (slots : Array (Slot κ ν)) (hash : UInt32) (bound : Nat) : Option (Nat × Nat) :=
  freeFrom slots hash (min bound (slots.size - 1) + 1) 0

/-- Whether a slot lost its entry. -/
def isTombstone (slots : Array (Slot κ ν)) (i : Nat) : Bool :=
  match slots[i]? with
  | some .deleted => true
  | _ => false

/-- Set a slot. -/
def setSlot (m : ProbeMap κ ν) (i : Nat) (slot : Slot κ ν) : ProbeMap κ ν :=
  { m with slots := m.slots.setIfInBounds i slot }

/-- Count the tombstone that an entry is about to replace, and how far the entry is from home. -/
def noteArrival (m : ProbeMap κ ν) (i distance : Nat) : ProbeMap κ ν :=
  { m with
    tombstones := if isTombstone m.slots i then m.tombstones - 1 else m.tombstones
    maxDisplacement := max m.maxDisplacement distance }

/-- Put an entry into a slot at a distance behind its home. -/
def place (m : ProbeMap κ ν) (i distance : Nat) (e : ProbeEntry κ ν) : ProbeMap κ ν :=
  (m.noteArrival i distance).setSlot i (.occupied e)

/-- Move an entry into a table that is being rebuilt. -/
def reinsert (m : ProbeMap κ ν) (e : ProbeEntry κ ν) : ProbeMap κ ν :=
  let m := { m with filter := (m.filter.insertHash e.hash.toUInt64).2 }
  match freeSlot m.slots e.hash (m.slots.size - 1) with
  | some (i, distance) => m.place i distance e
  | none => m

/-- Count a rebuild. -/
def countRebuild (m : ProbeMap κ ν) : RebuildReason → ProbeMap κ ν
  | .grow => { m with resizes := m.resizes + 1 }
  | .rehash => { m with rehashes := m.rehashes + 1 }
  | .shrink => { m with shrinks := m.shrinks + 1 }

/-- The entries in slot order. -/
def entries (m : ProbeMap κ ν) : List (ProbeEntry κ ν) := m.slots.toList.filterMap Slot.entry?

/-- Move every entry, in slot order, into fresh slots and a fresh filter. -/
def rebuild (m : ProbeMap κ ν) (capacity : Nat) (reason : RebuildReason) : ProbeMap κ ν :=
  let fresh : ProbeMap κ ν :=
    { m with
      slots := emptySlots capacity
      filter := filterFor capacity m.falsePositiveRate
      tombstones := 0
      maxDisplacement := 0 }
  let rebuilt := (m.entries.foldl reinsert fresh).countRebuild reason
  { rebuilt with
    journal := rebuilt.journal.log (.probeRebuilt m.slots.size capacity m.live reason) }

/-- Twice the number of slots, unless that exceeds the largest one. -/
def grownCapacity (m : ProbeMap κ ν) : Except TableError Nat :=
  if 2 * m.slots.size ≤ maxPowerOfTwo then .ok (2 * m.slots.size)
  else .error (.capacityExhausted m.slots.size)

/-- Double the table. -/
def grow (m : ProbeMap κ ν) : Except TableError (ProbeMap κ ν) :=
  m.grownCapacity.map fun capacity => m.rebuild capacity .grow

/-- Whether a number of used slots is within the load factor. The slot count is a power of two,
so that its product with the load factor is exact. -/
def admits (m : ProbeMap κ ν) (used : Nat) : Bool :=
  decide (used * m.loadFactor.denominator ≤ m.slots.size * m.loadFactor.numerator)

/-- Make room for one more entry: grow when the entries alone would exceed the load factor, and
drop the tombstones when they would do so together with them. -/
def reserveOne (m : ProbeMap κ ν) : Except TableError (ProbeMap κ ν) :=
  if !m.admits (m.live + 1) then m.grow
  else if !m.admits (m.live + m.tombstones + 1) then .ok (m.rebuild m.slots.size .rehash)
  else .ok m

/-- A slot for a new key, after growing a table that is at least a quarter full when none is near
enough. -/
def claimSlot (m : ProbeMap κ ν) (hash : UInt32) :
    Except TableError (Option (Nat × Nat)) × ProbeMap κ ν :=
  match freeSlot m.slots hash m.maxProbeDistance with
  | some slot => (.ok (some slot), m)
  | none =>
      if m.slots.size ≤ 4 * m.live then
        match m.grow with
        | .error e => (.error e, m)
        | .ok m => (.ok (freeSlot m.slots hash m.maxProbeDistance), m)
      else (.ok none, m)

/-- The nearest slot for a new key, however far, which is reported. -/
def forceSlot (m : ProbeMap κ ν) (hash : UInt32) : Except TableError (Nat × Nat) × ProbeMap κ ν :=
  match freeSlot m.slots hash (m.slots.size - 1) with
  | none => (.error (.capacityExhausted m.slots.size), m)
  | some (i, distance) =>
      (.ok (i, distance),
        { m with journal := m.journal.log (.probeForced distance m.maxProbeDistance) })

/-- Put a new entry into a slot. -/
def occupy (m : ProbeMap κ ν) (i distance : Nat) (e : ProbeEntry κ ν) : ProbeMap κ ν :=
  let m := m.place i distance e
  { m with
    filter := (m.filter.insertHash e.hash.toUInt64).2
    live := m.live + 1
    version := m.version + 1 }

/-- Insert a key that is not present. -/
def insertNew (m : ProbeMap κ ν) (e : ProbeEntry κ ν) :
    Except TableError (Option ν) × ProbeMap κ ν :=
  match m.reserveOne with
  | .error error => (.error error, m)
  | .ok m =>
      match m.claimSlot e.hash with
      | (.error error, m) => (.error error, m)
      | (.ok (some (i, distance)), m) => (.ok none, m.occupy i distance e)
      | (.ok none, m) =>
          match m.forceSlot e.hash with
          | (.error error, m) => (.error error, m)
          | (.ok (i, distance), m) => (.ok none, m.occupy i distance e)

/-- Change an entry in its slot. -/
def modifySlot (slots : Array (Slot κ ν)) (i : Nat) (f : ν → ν) : Array (Slot κ ν) :=
  slots.modify i fun
    | .occupied e => .occupied { e with value := f e.value }
    | slot => slot

/-- The value in a slot. -/
def value? (m : ProbeMap κ ν) (i : Nat) : Option ν :=
  ((m.slots[i]?).bind Slot.entry?).map (·.value)

/-- Insert or update a key and return its previous value. -/
def insert (m : ProbeMap κ ν) (key : κ) (value : ν) :
    Except TableError (Option ν) × ProbeMap κ ν :=
  let hash := m.hasher.hash key
  match m.find key hash with
  | (some i, m) =>
      (.ok (m.value? i),
        { m with slots := modifySlot m.slots i fun _ => value, version := m.version + 1 })
  | (none, m) => m.insertNew ⟨key, value, hash⟩

/-- The slot count that fits the entries again: one more than the load factor asks for, rounded
up, and not below the initial slot count. There is none when the sum does not fit in a word. -/
def shrinkTarget? (m : ProbeMap κ ν) : Option Nat :=
  let wanted := min (m.loadFactor.placesFor m.live) Binary64.maxWord + 1
  if Binary64.maxWord < wanted then none
  else
    let target := match nextPowerOfTwo wanted with
      | .ok size => size
      | .error _ => m.slots.size
    some (max target m.minCapacity)

/-- Drop the tombstones when they take more than a quarter of the slots. -/
def dropTombstones (m : ProbeMap κ ν) : ProbeMap κ ν :=
  if m.slots.size < 4 * m.tombstones then m.rebuild m.slots.size .rehash else m

/-- Shrink a table that is nearly empty, or else drop its tombstones if there are many. There is
no result when the size to shrink to does not fit in a word. -/
def maintain (m : ProbeMap κ ν) : Option (ProbeMap κ ν) :=
  let sparse := decide (m.live * shrinkShare.2 < m.slots.size * shrinkShare.1)
  if m.minCapacity < m.slots.size ∧ sparse then
    m.shrinkTarget?.map fun target =>
      if target < m.slots.size then m.rebuild target .shrink else m.dropTombstones
  else some m.dropTombstones

/-- Leave a tombstone in a slot. -/
def vacate (m : ProbeMap κ ν) (i : Nat) : ProbeMap κ ν :=
  { m with
    slots := m.slots.setIfInBounds i .deleted
    live := m.live - 1
    tombstones := m.tombstones + 1
    removals := m.removals + 1
    version := m.version + 1 }

/-- Remove a key and return its value. Every sixteenth removal also maintains the table; there is
no result when that has none. -/
def remove (m : ProbeMap κ ν) (key : κ) : Option (Option ν × ProbeMap κ ν) :=
  match m.lookup key with
  | (none, m) => some (none, m)
  | (some i, m) =>
      let value := m.value? i
      let m := m.vacate i
      if m.removals % maintenanceInterval = 0 then m.maintain.map fun m => (value, m)
      else some (value, m)

/-- The value of a key. -/
def get (m : ProbeMap κ ν) (key : κ) : Option ν × ProbeMap κ ν :=
  let (found, m) := m.lookup key
  (found.bind m.value?, m)

/-- Change the value of a key in place and return the new value. Cursors stay valid. -/
def modify (m : ProbeMap κ ν) (key : κ) (f : ν → ν) : Option ν × ProbeMap κ ν :=
  match m.lookup key with
  | (none, m) => (none, m)
  | (some i, m) =>
      let m := { m with slots := modifySlot m.slots i f }
      (m.value? i, m)

/-- The value of a key, or an error. -/
def require (m : ProbeMap κ ν) (key : κ) : Except TableError ν × ProbeMap κ ν :=
  match m.get key with
  | (some v, m) => (.ok v, m)
  | (none, m) => (.error .keyNotFound, m)

/-- Whether a key is present. -/
def containsKey (m : ProbeMap κ ν) (key : κ) : Bool × ProbeMap κ ν :=
  let (found, m) := m.lookup key
  (found.isSome, m)

/-- Drop every entry and empty the filter. The slots and the counts of rebuilds stay. -/
def clear (m : ProbeMap κ ν) : ProbeMap κ ν :=
  { m with
    slots := emptySlots m.slots.size
    filter := m.filter.clear
    live := 0
    tombstones := 0
    maxDisplacement := 0
    version := m.version + 1 }

/-- How the map is occupied, and what it did so far. -/
def stats (m : ProbeMap κ ν) : ProbeStats :=
  { capacity := m.slots.size
    live := m.live
    tombstones := m.tombstones
    filteredLookups := m.filteredLookups
    resizes := m.resizes
    rehashes := m.rehashes
    shrinks := m.shrinks
    maxDisplacement := m.maxDisplacement }

/-- The first entry among `count` slots from a slot on, with its slot. -/
def entryFrom (m : ProbeMap κ ν) : Nat → Nat → Option (Nat × ProbeEntry κ ν)
  | 0, _ => none
  | count + 1, i =>
      match (m.slots[i]?).bind Slot.entry? with
      | some e => some (i, e)
      | none => m.entryFrom count (i + 1)

/-- The first entry at or after a slot, with its slot. -/
def seek (m : ProbeMap κ ν) (start : Nat) : Option (Nat × ProbeEntry κ ν) :=
  m.entryFrom (m.slots.size - start) start

/-- An iterator in slot order. -/
structure Iter where
  position : Nat
  remaining : Nat

/-- An iterator over all entries. -/
def iter (m : ProbeMap κ ν) : Iter := ⟨0, m.live⟩

/-- The next entry of an iterator. -/
def next (m : ProbeMap κ ν) (it : Iter) : Option (κ × ν) × Iter :=
  if it.remaining = 0 then (none, it)
  else
    match m.seek it.position with
    | none => (none, ⟨m.slots.size, it.remaining⟩)
    | some (i, e) => (some (e.key, e.value), ⟨i + 1, it.remaining - 1⟩)

/-- Take entries until the iterator is exhausted, at most `fuel` many. -/
def drain (m : ProbeMap κ ν) : Nat → Iter → List (κ × ν)
  | 0, _ => []
  | fuel + 1, it =>
      match m.next it with
      | (none, _) => []
      | (some e, it) => e :: m.drain fuel it

/-- The entries in slot order. -/
def toList (m : ProbeMap κ ν) : List (κ × ν) := m.drain m.live m.iter

/-- A cursor at the first slot. -/
def cursor (m : ProbeMap κ ν) : Cursor := ⟨m.version, some 0, m.live⟩

/-- The next entry for a cursor, in slot order. -/
def advance (m : ProbeMap κ ν) (c : Cursor) : Except TableError (Option (κ × ν)) × Cursor :=
  c.advance m.version fun start =>
    (m.seek start).map fun (i, e) => ((e.key, e.value), some (i + 1))

/-- The diagnostic text of a map. -/
def describe (m : ProbeMap κ ν) : String :=
  "PukaProbeMap \x7b stats: ProbeStats \x7b capacity: " ++ natText m.slots.size
    ++ ", live: " ++ natText m.live
    ++ ", tombstones: " ++ natText m.tombstones
    ++ ", filtered_lookups: " ++ natText m.filteredLookups
    ++ ", resizes: " ++ natText m.resizes
    ++ ", rehashes: " ++ natText m.rehashes
    ++ ", shrinks: " ++ natText m.shrinks
    ++ ", max_displacement: " ++ natText m.maxDisplacement
    ++ " \x7d, filter: " ++ m.filter.describe
    ++ ", hasher: " ++ m.hasher.describe ++ " \x7d"

end ProbeMap

end BoundedTables
