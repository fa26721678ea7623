import BoundedTables.LruCache.Recency
import BoundedTables.Table.Options

/-!
# Least-recently-used caches

A cache with a clock. Putting an entry stamps it and moves it to the front of the recency list;
reading one only notes the time. When an entry read since it was stamped comes up for eviction,
it is stamped with that time and moved to the place it earns, so the entry evicted in the end is
the one used least recently.
-/

namespace BoundedTables

open Decimal Sizing Hashing Table

/-- An entry in its bucket. -/
structure CacheEntry (κ ν : Type) where
  key : κ
  value : ν
  hash : UInt32
  /-- The slot of the copy in the recency list. -/
  node : Nat
  /-- The time that placed the entry in the recency list. -/
  stamp : Nat
  /-- The time of the last use. -/
  lastAccess : Nat

/-- A cache that evicts the entry used least recently. -/
structure LruCache (κ ν : Type) where
  buckets : Array (Array (CacheEntry κ ν))
  recency : RecencyList κ ν
  hasher : KeyHasher κ
  loadFactor : LoadFactor
  mode : CapacityMode
  capacity : Nat
  size : Nat
  clock : Nat
  evictions : Nat
  journal : Journal

namespace LruCache

variable {κ ν : Type}

/-- Empty buckets. There is at least one. -/
def emptyBuckets (count : Nat) : Array (Array (CacheEntry κ ν)) := Array.replicate (max count 1) #[]

/-- An empty cache. -/
def build (o : TableOptions) (f : LoadFactor) (hasher : KeyHasher κ) (journal : Journal) :
    LruCache κ ν :=
  { buckets := emptyBuckets (bucketCount o.capacity f)
    recency := .empty
    hasher
    loadFactor := f
    mode := o.mode
    capacity := o.capacity
    size := 0
    clock := 0
    evictions := 0
    journal }

/-- An empty cache with the comparer that the policy chooses. -/
def new [ByteHash] [ByteKey κ] [DecidableEq κ] (o : TableOptions) (seed : Seed) :
    Except TableError (LruCache κ ν) := do
  let f ← o.check
  pure (build o f (.ofPolicy o.hashing seed) .empty)

/-- An empty cache with a given comparer. -/
def withComparer (o : TableOptions) (c : Comparer κ) : Except TableError (LruCache κ ν) := do
  let f ← o.check
  let (hasher, journal) := KeyHasher.withComparer o.hashing c
  pure (build o f hasher journal)

/-- The bucket of a hash among a number of them. -/
def bucketOf (count : Nat) (hash : UInt32) : Nat := hash.toNat % count

/-- The entries in the bucket of a hash. -/
def bucket (m : LruCache κ ν) (hash : UInt32) : Array (CacheEntry κ ν) :=
  m.buckets.getD (bucketOf m.buckets.size hash) #[]

/-- Change the bucket of a hash. -/
def modifyBucket (m : LruCache κ ν) (hash : UInt32)
    (f : Array (CacheEntry κ ν) → Array (CacheEntry κ ν)) : LruCache κ ν :=
  { m with buckets := m.buckets.modify (bucketOf m.buckets.size hash) f }

/-- Whether an entry has a key. -/
def holds (m : LruCache κ ν) (key : κ) (hash : UInt32) (e : CacheEntry κ ν) : Bool :=
  e.hash = hash && m.hasher.comparer.equals e.key key

/-- The place of a key in its bucket with its entry, and the number of entries compared. -/
def locate (m : LruCache κ ν) (key : κ) (hash : UInt32) :
    Option (Nat × CacheEntry κ ν) × Nat :=
  let entries := m.bucket hash
  match entries.findIdx? (m.holds key hash) with
  | some i => (entries[i]?.map fun e => (i, e), i + 1)
  | none => (none, entries.size)

/-- Note how many entries one lookup compared. -/
def record (m : LruCache κ ν) (visited : Nat) : LruCache κ ν :=
  let (hasher, journal) := m.hasher.record visited m.journal
  { m with hasher, journal }

/-- Take the entry at a place out of its bucket; the last entry takes its place. -/
def swapRemove (entries : Array (CacheEntry κ ν)) (i : Nat) : Array (CacheEntry κ ν) :=
  (entries.swapIfInBounds i (entries.size - 1)).pop

/-- The value of a key, noting the use. -/
def get (m : LruCache κ ν) (key : κ) : Option ν × LruCache κ ν :=
  let hash := m.hasher.hash key
  let (found, visited) := m.locate key hash
  match found with
  | none => (none, m.record visited)
  | some (i, e) =>
      let now := m.clock + 1
      let m := { m with clock := now }
      let m := m.modifyBucket hash fun entries =>
        entries.modify i fun e => { e with lastAccess := now }
      (some e.value, m.record visited)

/-- The value of a key, without noting the use. -/
def peek (m : LruCache κ ν) (key : κ) : Option ν × LruCache κ ν :=
  let (found, visited) := m.locate key (m.hasher.hash key)
  (found.map (·.2.value), m.record visited)

/-- Whether a key is present. -/
def containsKey (m : LruCache κ ν) (key : κ) : Bool × LruCache κ ν :=
  let (found, visited) := m.locate key (m.hasher.hash key)
  (found.isSome, m.record visited)

/-- Give a present entry a new value and the current time. -/
def update (m : LruCache κ ν) (i : Nat) (e : CacheEntry κ ν) (value : ν) : LruCache κ ν :=
  let m := { m with recency := m.recency.promote e.node m.clock value }
  let now := m.clock
  m.modifyBucket e.hash fun entries =>
    entries.modify i fun e => { e with value, stamp := now, lastAccess := now }

/-- Add an entry at the current time. -/
def add (m : LruCache κ ν) (key : κ) (value : ν) (hash : UInt32) : LruCache κ ν :=
  let now := m.clock
  let (node, recency) := m.recency.pushFront ⟨key, value, hash, now⟩
  let m := { m with recency, size := m.size + 1 }
  m.modifyBucket hash fun entries => entries.push ⟨key, value, hash, node, now, now⟩

/-- What one look at the candidate for eviction led to. -/
inductive EvictionStep (κ ν : Type) where
  /-- There is no candidate. -/
  | none
  /-- The candidate was given another place, or did not match its bucket. -/
  | deferred (after : LruCache κ ν)
  /-- The candidate is gone. -/
  | evicted (after : LruCache κ ν)

/-- Look at the candidate for eviction: give it the place of its last use, or drop it when it was
not used since it was stamped. -/
def evictionStep (m : LruCache κ ν) : EvictionStep κ ν :=
  match m.recency.victim? with
  | .none => .none
  | some (node, victim) =>
      let entries := m.bucket victim.hash
      match entries.findIdx? fun e => e.node = node && e.stamp = victim.stamp with
      | .none => .deferred m
      | some i =>
          let lastAccess := (entries[i]?.map (·.lastAccess)).getD 0
          if victim.stamp < lastAccess then
            let m := { m with recency := m.recency.reposition node lastAccess }
            .deferred (m.modifyBucket victim.hash fun entries =>
              entries.modify i fun e => { e with stamp := lastAccess })
          else
            let m := m.modifyBucket victim.hash fun entries => swapRemove entries i
            .evicted
              { m with
                recency := m.recency.remove node
                size := m.size - 1
                evictions := m.evictions + 1
                journal := m.journal.log (.cacheEvicted node victim.stamp) }

/-- Look at candidates until one is gone, at most `attempts` times out of `allowed`. -/
def evictWithin (allowed : Nat) : Nat → LruCache κ ν → Bool × LruCache κ ν
  | 0, m => (false, { m with journal := m.journal.log (.cacheEvictionGaveUp allowed) })
  | attempts + 1, m =>
      match m.evictionStep with
      | .none => (false, m)
      | .deferred m => evictWithin allowed attempts m
      | .evicted m => (true, m)

/-- Evict the entry used least recently. The answer tells whether an entry was evicted. -/
def evictOne (m : LruCache κ ν) : Bool × LruCache κ ν :=
  let allowed := 2 * m.size + 8
  evictWithin allowed allowed m

/-- Evict until the cache is within its capacity, at most `fuel` times. -/
def shed : Nat → LruCache κ ν → LruCache κ ν
  | 0, m => m
  | fuel + 1, m =>
      if m.size ≤ m.capacity then m
      else
        match m.evictOne with
        | (true, m) => shed fuel m
        | (false, m) => m

/-- Add an entry to the bucket of its hash. -/
def distribute (buckets : Array (Array (CacheEntry κ ν))) (e : CacheEntry κ ν) :
    Array (Array (CacheEntry κ ν)) :=
  buckets.modify (bucketOf buckets.size e.hash) (·.push e)

/-- Grow to a prime past twice the number of buckets when the entries exceed the load factor. Where
the search for this prime has no end, the cache stays as it is; no number of buckets that can be
allocated is large enough for that. -/
def growBuckets (m : LruCache κ ν) : LruCache κ ν :=
  let count := m.buckets.size
  if m.loadFactor.admits count m.size then m
  else
    match nextPrime (min (2 * count) Binary64.maxWord) with
    | none => m
    | some grown =>
        let fresh : Array (Array (CacheEntry κ ν)) := Array.replicate grown #[]
        { m with
          buckets := m.buckets.foldl (fun fresh entries => entries.foldl distribute fresh) fresh
          journal := m.journal.log (.cacheGrown count grown) }

/-- Insert or update a key, making it the one used last, and return its previous value. -/
def put (m : LruCache κ ν) (key : κ) (value : ν) : Option ν × LruCache κ ν :=
  let hash := m.hasher.hash key
  let m := { m with clock := m.clock + 1 }
  let (found, visited) := m.locate key hash
  match found with
  | some (i, e) => (some e.value, (m.update i e value).record visited)
  | none =>
      let m := (m.add key value hash).record visited
      match m.mode with
      | .fixed => (none, shed m.size m)
      | .dynamic => (none, m.growBuckets)

/-- Remove a key and return its value. -/
def remove (m : LruCache κ ν) (key : κ) : Option ν × LruCache κ ν :=
  let hash := m.hasher.hash key
  let (found, visited) := m.locate key hash
  match found with
  | none => (none, m.record visited)
  | some (i, e) =>
      let m := m.modifyBucket hash fun entries => swapRemove entries i
      let m := { m with recency := m.recency.remove e.node, size := m.size - 1 }
      (some e.value, m.record visited)

/-- Drop every entry. -/
def clear (m : LruCache κ ν) : LruCache κ ν :=
  { m with
    buckets := Array.replicate m.buckets.size #[]
    recency := .empty
    size := 0 }

/-- The entries in the order of the recency list. -/
def toList (m : LruCache κ ν) : List (κ × ν) :=
  m.recency.toList.map fun node => (node.key, node.value)

/-- The keys in the order of the recency list. -/
def keys (m : LruCache κ ν) : List κ := m.recency.toList.map (·.key)

/-- Whether an entry agrees with its copy in the recency list. -/
def agrees (m : LruCache κ ν) (e : CacheEntry κ ν) : Bool :=
  match m.recency.get? e.node with
  | some node =>
      node.stamp = e.stamp && node.hash = e.hash && m.hasher.comparer.equals node.key e.key
  | none => false

/-- Whether every entry agrees with its copy, and all counts with each other. -/
def isConsistent (m : LruCache κ ν) : Bool :=
  let entries := m.buckets.foldl (fun n entries => n + entries.size) 0
  m.buckets.all (fun entries => entries.all m.agrees)
    && entries == m.recency.size
    && entries == m.recency.order.toList.length
    && entries == m.size

/-- The diagnostic text of a cache. -/
def describe (m : LruCache κ ν) : String :=
  "MoanaLruCache \x7b len: " ++ natText m.size
    ++ ", capacity: " ++ natText m.capacity
    ++ ", mode: " ++ m.mode.label
    ++ ", evictions: " ++ natText m.evictions
    ++ ", hasher: " ++ m.hasher.describe ++ " \x7d"

end LruCache

end BoundedTables
