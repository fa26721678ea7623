/-!
# Chained indexes

A bucket array over slot numbers. Every bucket holds the first slot of its chain, and every slot
the one after it; a slot's bucket is its hash modulo the number of buckets. Walks are bounded by
the number of slots, which no chain without repeats exceeds.
-/

namespace BoundedTables.Table

/-- Bucket heads and chain links over slot numbers. -/
structure ChainIndex where
  heads : Array (Option Nat)
  next : Array (Option Nat)

namespace ChainIndex

/-- An index without slots. There is at least one bucket. -/
def withBuckets (count : Nat) : ChainIndex :=
  { heads := Array.replicate (max count 1) none
    next := #[] }

/-- The number of buckets. -/
def bucketCount (ix : ChainIndex) : Nat := ix.heads.size

/-- The bucket of a hash. -/
def bucketOf (ix : ChainIndex) (hash : UInt32) : Nat := hash.toNat % ix.heads.size

/-- The first slot in the chain of a hash. -/
def head (ix : ChainIndex) (hash : UInt32) : Option Nat := (ix.heads[ix.bucketOf hash]?).join

/-- The slot after another one in its chain. -/
def after (ix : ChainIndex) (i : Nat) : Option Nat := (ix.next[i]?).join

/-- Walk a chain from a slot on, up to the first slot with a property, counting the slots
visited. -/
def findFrom (ix : ChainIndex) (p : Nat → Bool) : Nat → Option Nat → Nat → Option Nat × Nat
  | _, none, visited => (none, visited)
  | 0, some _, visited => (none, visited)
  | fuel + 1, some i, visited =>
      if p i then (some i, visited + 1) else ix.findFrom p fuel (ix.after i) (visited + 1)

/-- The first slot with a property in the chain of a hash, and the number of slots visited. -/
def find (ix : ChainIndex) (hash : UInt32) (p : Nat → Bool) : Option Nat × Nat :=
  ix.findFrom p ix.next.size (ix.head hash) 0

/-- Set the link behind a slot. The links grow to cover it. -/
def setAfter (ix : ChainIndex) (i : Nat) (target : Option Nat) : ChainIndex :=
  match ix with
  | ⟨heads, next⟩ =>
      if i < next.size then ⟨heads, next.setIfInBounds i target⟩
      else ⟨heads, (next ++ Array.replicate (i - next.size) none).push target⟩

/-- Set the head of a chain. -/
def setHead (ix : ChainIndex) (bucket : Nat) (target : Option Nat) : ChainIndex :=
  match ix with
  | ⟨heads, next⟩ => ⟨heads.setIfInBounds bucket target, next⟩

/-- Put a slot at the head of the chain of its hash. -/
def link (ix : ChainIndex) (hash : UInt32) (i : Nat) : ChainIndex :=
  let bucket := ix.bucketOf hash
  let first := ix.head hash
  (ix.setAfter i first).setHead bucket (some i)

/-- Walk a chain from `current` on, behind `previous`, and take a slot out of it. -/
def unlinkFrom (ix : ChainIndex) (bucket i : Nat) :
    Nat → Option Nat → Option Nat → Bool × ChainIndex
  | _, _, none => (false, ix)
  | 0, _, some _ => (false, ix)
  | fuel + 1, previous, some current =>
      let following := ix.after current
      if current = i then
        let ix := match previous with
          | none => ix.setHead bucket following
          | some p => ix.setAfter p following
        (true, ix.setAfter i none)
      else ix.unlinkFrom bucket i fuel (some current) following

/-- Take a slot out of the chain of its hash. The answer tells whether it was there. -/
def unlink (ix : ChainIndex) (hash : UInt32) (i : Nat) : Bool × ChainIndex :=
  ix.unlinkFrom (ix.bucketOf hash) i ix.next.size none (ix.head hash)

/-- A fresh index with the given slots, linked in order. -/
def ofSlots (count : Nat) (slots : List (Nat × UInt32)) : ChainIndex :=
  slots.foldl (fun ix s => ix.link s.2 s.1) (withBuckets count)

/-- Drop every slot and keep the buckets. -/
def clear (ix : ChainIndex) : ChainIndex := withBuckets ix.bucketCount

end ChainIndex

end BoundedTables.Table
