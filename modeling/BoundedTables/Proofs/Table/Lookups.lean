import BoundedTables.Proofs.Hashing.Lookups
import BoundedTables.Proofs.Table.Reachable

/-!
# Lookups in chained tables

A search in an index that partitions its slots visits the chain of a bucket, up to the first slot
that passes (`ChainIndex.Partition.find_visits`). In a linked table every search is told to the
monitor, and nothing else is: what adds, drops or moves nodes leaves behind what monitoring has
(`LinkedTable.Linked.lookup_watch` and the lemmas after it).
-/

namespace BoundedTables.Table

open Hashing

namespace ChainIndex

variable {ix : ChainIndex} {hashOf : Nat → Option UInt32}

/-- A search visits the chain that its hash leads to. -/
theorem Partition.find_visits (h : ix.Partition hashOf) (hash : UInt32) {p : Nat → Bool}
    {Matches : Nat → Prop} (hp : ∀ i, p i = true ↔ Matches i) :
    ∃ slots, Trail ix.after (ix.head hash) slots ∧ Visits Matches slots (ix.find hash p).2 := by
  obtain ⟨slots, hchain, -, -, hfind⟩ := h.find_eq hash p
  refine ⟨slots, hchain.trail, ?_⟩
  rw [hfind]
  exact visits_findIdx? hp slots

end ChainIndex

namespace LinkedTable

variable {κ ν : Type} {t t' : LinkedTable κ ν} {slots : List Nat} {key : κ}

/-- What monitoring has left behind in a table. -/
def watch (t : LinkedTable κ ν) : Watch := t.hasher.watch t.journal

/-- A slot holds a key. -/
def Matches (t : LinkedTable κ ν) (key : κ) (i : Nat) : Prop :=
  ∃ node, t.arena.get? i = some node ∧ node.hash = t.hasher.hash key ∧
    t.hasher.comparer.equals node.key key = true

/-- Looking up a key visits so much of the chain of its bucket. -/
def Walks (t : LinkedTable κ ν) (key : κ) (n : Nat) : Prop :=
  ∃ chain, Trail t.index.after (t.index.head (t.hasher.hash key)) chain ∧
    Visits (t.Matches key) chain n

/-- A slot holds a key when its node has the hash and a key that compares equal. -/
theorem holds_iff {i : Nat} : t.holds key (t.hasher.hash key) i = true ↔ t.Matches key i := by
  unfold holds Matches
  cases t.arena.get? i <;> simp

/-- A lookup is told to the monitor once, with what it visits. -/
theorem Linked.lookup_watch (h : t.Linked slots) (key : κ) :
    ∃ n, t.Walks key n ∧ (t.lookup key).2.watch = t.watch.record n :=
  ⟨_, h.index.find_visits _ fun _ => holds_iff, t.hasher.record_watch _ t.journal⟩

/-! ## What the monitor does not hear of -/

@[simp] theorem touch_watch (t : LinkedTable κ ν) : t.touch.watch = t.watch := rfl

@[simp] theorem moveTo_watch (t : LinkedTable κ ν) (i : Nat) (side : End) :
    (t.moveTo i side).watch = t.watch := rfl

@[simp] theorem modifyValue_watch (t : LinkedTable κ ν) (i : Nat) (f : ν → ν) :
    (t.modifyValue i f).watch = t.watch := rfl

@[simp] theorem clear_watch (t : LinkedTable κ ν) : t.clear.watch = t.watch := rfl

/-- Growing the index is no lookup. -/
theorem growIndex_watch (t : LinkedTable κ ν) : t.growIndex.watch = t.watch := by
  unfold growIndex
  dsimp only
  split
  · rfl
  · split
    · rfl
    · exact t.hasher.watch_log t.journal rfl

@[simp] theorem attach_watch (t : LinkedTable κ ν) (key : κ) (value : ν) (hash : UInt32)
    (side : End) : (t.attach key value hash side).watch = t.watch :=
  growIndex_watch _

@[simp] theorem detach_watch (t : LinkedTable κ ν) (i : Nat) : (t.detach i).2.watch = t.watch := by
  unfold detach
  split <;> rfl

@[simp] theorem evict_watch (t : LinkedTable κ ν) (side : End) :
    (t.evict side).2.watch = t.watch := by
  unfold evict
  split
  · rfl
  · rename_i i _
    have hdetached := t.detach_watch i
    rcases hdetach : t.detach i with ⟨_ | node, t'⟩ <;> rw [hdetach] at hdetached
    · exact hdetached
    · exact (t'.hasher.watch_log t'.journal rfl).trans hdetached

/-! ## New tables -/

variable {o : TableOptions} {f : Sizing.LoadFactor} {threshold : Nat}

/-- A new table has heard nothing, whatever its comparer. -/
theorem withComparer_watch (hvalid : o.check = .ok f)
    (hthreshold : o.hashing.collisionThreshold = some threshold) (c : Comparer κ) :
    ∃ t : LinkedTable κ ν, withComparer o c = .ok t ∧ t.Linked [] ∧
      t.watch = .start threshold o.hashing.hasCallback := by
  obtain ⟨t, ht, hlinked⟩ : ∃ t : LinkedTable κ ν, _ := withComparer_linked hvalid c
  refine ⟨t, ht, hlinked, ?_⟩
  rw [withComparer, hvalid] at ht
  cases ht
  exact KeyHasher.withComparer_watch hthreshold c

/-- A new table is linked, has no slots, and has watched nothing. -/
theorem new_watch [ByteHash] [ByteKey κ] [DecidableEq κ] (hvalid : o.check = .ok f)
    (hthreshold : o.hashing.collisionThreshold = some threshold) (seed : Seed) :
    ∃ t : LinkedTable κ ν, new o seed = .ok t ∧ t.Linked [] ∧
      t.watch = .start threshold o.hashing.hasCallback := by
  refine ⟨build o f (.ofPolicy o.hashing seed) .empty, ?_,
    empty_linked rfl (ChainIndex.withBuckets_partition _) rfl,
    KeyHasher.ofPolicy_watch hthreshold seed⟩
  rw [new, hvalid]
  rfl

end LinkedTable

end BoundedTables.Table
