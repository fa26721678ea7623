import BoundedTables.Proofs.RingMap.Cursor
import BoundedTables.Proofs.Table.Lookups

/-!
# Lookups in ring maps

Every operation that takes a key tells the monitor of one lookup, whatever else it does: evicting,
packing and growing the ring tell it nothing (`step_watch`).
-/

namespace BoundedTables.RingMap

open Hashing Table

variable {κ ν : Type} {m m' : RingMap κ ν}

/-- The key that an operation takes. -/
def Op.key? : Op κ ν → Option κ
  | .insert key _ | .remove key | .get key | .require key | .modify key _ => some key
  | .containsKey key | .timestamp key => some key
  | .oldest | .newest | .popOldest | .clear => none

/-- What monitoring has left behind in a map. -/
def watch (m : RingMap κ ν) : Watch := m.hasher.watch m.journal

/-- A slot holds a key. -/
def Matches (m : RingMap κ ν) (key : κ) (i : Nat) : Prop :=
  ∃ node, m.node? i = some node ∧ node.hash = m.hasher.hash key ∧
    m.hasher.comparer.equals node.key key = true

/-- Looking up a key visits so much of the chain of its bucket. -/
def Walks (m : RingMap κ ν) (key : κ) (n : Nat) : Prop :=
  ∃ chain, Trail m.index.after (m.index.head (m.hasher.hash key)) chain ∧
    Visits (m.Matches key) chain n

/-- Ring maps with their monitors. -/
def watched : Watched (RingMap κ ν) (Op κ ν) (Reply κ ν) κ where
  step m op := some (m.step op)
  key? := Op.key?
  watch := watch
  filtered _ := 0
  Walks := Walks
  Filters _ _ := False

/-- A slot holds a key when its node has the hash and a key that compares equal. -/
theorem holds_iff {key : κ} {i : Nat} :
    m.holds key (m.hasher.hash key) i = true ↔ m.Matches key i := by
  unfold holds Matches
  cases m.node? i <;> simp

/-- A lookup is told to the monitor once, with what it visits. -/
theorem InOrder.lookup_watch (h : m.InOrder) (key : κ) :
    ∃ n, m.Walks key n ∧ (m.lookup key).2.watch = m.watch.record n := by
  obtain ⟨cells, h⟩ := h
  exact ⟨_, h.index.find_visits _ fun _ => holds_iff, m.hasher.record_watch _ m.journal⟩

/-! ## What the monitor does not hear of -/

/-- Emptying a slot is no lookup. -/
theorem removeAt_watch (m : RingMap κ ν) (i : Nat) : (m.removeAt i).2.watch = m.watch := by
  unfold removeAt
  split
  · rfl
  · rename_i node _
    obtain ⟨head, tail, htighten⟩ := tighten_eq (m.vacate i node.hash) i
    rw [htighten]
    rfl

/-- An eviction is no lookup. -/
theorem evictOldest_watch (m : RingMap κ ν) : m.evictOldest.watch = m.watch := by
  have hremoved := m.removeAt_watch m.head
  unfold evictOldest
  dsimp only
  rcases hremove : m.removeAt m.head with ⟨_ | node, m'⟩ <;> rw [hremove] at hremoved
  · exact hremoved
  · exact (m'.hasher.watch_log m'.journal rfl).trans hremoved

/-- Growing is no lookup. -/
theorem grow_watch (h : m.grow = .ok m') : m'.watch = m.watch := by
  unfold grow at h
  dsimp only at h
  split at h
  · cases h
    exact m.hasher.watch_log m.journal rfl
  · cases h

/-- Reserving room for an entry is no lookup. -/
theorem reserveOne_watch (m : RingMap κ ν) : m.reserveOne.2.watch = m.watch := by
  unfold reserveOne
  split
  · split
    · exact m.evictOldest_watch
    · split
      · rfl
      · exact grow_watch ‹_›
  · rfl

/-- Claiming a slot is no lookup. -/
theorem claimSlot_watch {i : Nat} (h : m.claimSlot = .ok (i, m')) : m'.watch = m.watch := by
  unfold claimSlot at h
  dsimp only at h
  split at h
  · cases h
    rfl
  · split at h
    · cases h
    · split at h <;> cases h <;> rfl

/-- Past its lookup, an operation tells the monitor nothing. -/
theorem insert_watch (m : RingMap κ ν) (key : κ) (value : ν) :
    (m.insert key value).2.watch = (m.lookup key).2.watch := by
  unfold insert lookup
  dsimp only
  rcases m.find key (m.hasher.hash key) with ⟨_ | i, m₁⟩
  · have hreserved := m₁.reserveOne_watch
    dsimp only
    rcases hreserve : m₁.reserveOne with ⟨e | ⟨⟨⟩⟩, m₂⟩ <;> rw [hreserve] at hreserved
    · exact hreserved
    · dsimp only
      rcases hclaim : m₂.claimSlot with e | ⟨i, m₃⟩
      · exact hreserved
      · exact (claimSlot_watch hclaim).trans hreserved
  · rfl

/-- A modification is watched as one lookup. -/
theorem modify_watch (m : RingMap κ ν) (key : κ) (f : ν → ν) :
    (m.modify key f).2.watch = (m.lookup key).2.watch := by
  unfold modify
  rcases m.lookup key with ⟨_ | i, m₁⟩ <;> rfl

/-- A lookup that requires its key is watched as one lookup. -/
theorem require_watch (m : RingMap κ ν) (key : κ) :
    (m.require key).2.watch = (m.lookup key).2.watch := by
  have hget : (m.get key).2.watch = (m.lookup key).2.watch := rfl
  rw [← hget, require]
  rcases m.get key with ⟨_ | v, m₁⟩ <;> rfl

/-- A removal is watched as one lookup. -/
theorem remove_watch (m : RingMap κ ν) (key : κ) :
    (m.remove key).2.watch = (m.lookup key).2.watch := by
  unfold remove
  rcases m.lookup key with ⟨_ | i, m₁⟩
  · rfl
  · exact m₁.removeAt_watch i

/-- Taking the oldest entry off is no lookup. -/
theorem popOldest_watch (m : RingMap κ ν) : m.popOldest.2.watch = m.watch := by
  have hremoved := m.removeAt_watch m.head
  unfold popOldest
  split
  · rfl
  · rcases hremove : m.removeAt m.head with ⟨_ | node, m'⟩ <;> rw [hremove] at hremoved <;>
      exact hremoved

/-- An operation with a key tells the monitor what a lookup of it does, and no other operation tells
it anything. -/
theorem step_watch (m : RingMap κ ν) (op : Op κ ν) : (m.step op).2.watch =
    match op.key? with
    | some key => (m.lookup key).2.watch
    | none => m.watch := by
  cases op with
  | insert key value => exact m.insert_watch key value
  | remove key => exact m.remove_watch key
  | modify key f => exact m.modify_watch key f
  | require key => exact m.require_watch key
  | get key | containsKey key | timestamp key => rfl
  | popOldest => exact m.popOldest_watch
  | oldest | newest | clear => rfl

/-- Ring maps account for their lookups. -/
theorem watched_sound : (watched : Watched (RingMap κ ν) _ _ _).Sound InOrder :=
  Watched.sound_of_lookups rfl (fun op h => (step_kept h op).1) step_watch
    (fun key h => h.lookup_watch key) fun _ _ => rfl

variable {o : TableOptions} {f : Sizing.LoadFactor} {threshold : Nat}

/-- An empty map accounts for the lookups to come. -/
theorem build_accounts (hvalid : o.check = .ok f) {hasher : KeyHasher κ} {journal : Journal}
    {callback : Bool} (hwatch : hasher.watch journal = .start threshold callback)
    {start : Except TableError (RingMap κ ν)} (hstart : start = .ok (build o f hasher journal)) :
    watched.Accounts threshold callback start := by
  obtain ⟨cells, hcells, -⟩ := build_stands hvalid hasher journal
  exact watched_sound.accounts hstart ⟨cells, hcells.laid⟩ hwatch rfl

/-- Whatever its comparer says, a new map accounts for all of its lookups. -/
theorem withComparer_accounts (hvalid : o.check = .ok f)
    (hthreshold : o.hashing.collisionThreshold = some threshold) (c : Comparer κ) :
    watched.Accounts threshold o.hashing.hasCallback
      (withComparer o c : Except _ (RingMap κ ν)) := by
  refine build_accounts hvalid (KeyHasher.withComparer_watch hthreshold c) ?_
  rw [withComparer, hvalid]
  rfl

/-- A new map with the comparer of its policy accounts for all of its lookups. -/
theorem new_accounts [ByteHash] [ByteKey κ] [DecidableEq κ] (hvalid : o.check = .ok f)
    (hthreshold : o.hashing.collisionThreshold = some threshold) (seed : Seed) :
    watched.Accounts threshold o.hashing.hasCallback
      (new o seed : Except _ (RingMap κ ν)) := by
  refine build_accounts hvalid (KeyHasher.ofPolicy_watch hthreshold seed) ?_
  rw [new, hvalid]
  rfl

end BoundedTables.RingMap
