import BoundedTables.Proofs.DequeMap
import BoundedTables.Proofs.LinkedMaps
import BoundedTables.Proofs.Table.Lookups

/-!
# Lookups in deque maps

Every operation that takes a key tells the monitor of one lookup, whatever else it does: evicting,
moving and growing tell it nothing (`step_watch`).
-/

namespace BoundedTables.DequeMap

open Hashing Table

variable {κ ν : Type}

/-- The key that an operation takes. -/
def Op.key? : Op κ ν → Option κ
  | .insert key _ | .pushBack key _ | .pushFront key _ | .moveToFront key | .moveToBack key
  | .remove key | .modify key _ | .get key | .require key | .containsKey key => some key
  | .popFront | .popBack | .peekFront | .peekBack | .clear => none

/-- Deque maps with their monitors. -/
def watched : Watched (DequeMap κ ν) (Op κ ν) (Reply κ ν) κ where
  step m op := some (m.step op)
  key? := Op.key?
  watch m := m.table.watch
  filtered _ := 0
  Walks m := m.table.Walks
  Filters _ _ := False

/-! ## Past its lookup, an operation tells the monitor nothing -/

/-- An insertion is watched as one lookup. -/
theorem upsert_watch (m : DequeMap κ ν) (key : κ) (value : ν) (side : End) (relocate : Bool) :
    (m.upsert key value side relocate).2.table.watch = (m.table.lookup key).2.watch := by
  unfold upsert LinkedTable.lookup
  dsimp only
  rcases m.table.find key (m.table.hasher.hash key) with ⟨_ | i, t⟩
  · dsimp only
    rw [LinkedTable.attach_watch]
    split
    · exact t.evict_watch side.opposite
    · rfl
  · cases relocate <;> rfl

/-- Taking an entry off an end is no lookup. -/
theorem pop_watch (m : DequeMap κ ν) (side : End) : (m.pop side).2.table.watch = m.table.watch := by
  unfold pop
  split
  · rfl
  · rename_i i _
    have hdetached := m.table.detach_watch i
    rcases hdetach : m.table.detach i with ⟨_ | node, t⟩ <;> rw [hdetach] at hdetached <;>
      exact hdetached

/-- Moving a key is watched as one lookup. -/
theorem moveKey_watch (m : DequeMap κ ν) (key : κ) (side : End) :
    (m.moveKey key side).2.table.watch = (m.table.lookup key).2.watch := by
  unfold moveKey
  rcases m.table.lookup key with ⟨_ | i, t⟩ <;> rfl

/-- A removal is watched as one lookup. -/
theorem remove_watch (m : DequeMap κ ν) (key : κ) :
    (m.remove key).2.table.watch = (m.table.lookup key).2.watch := by
  unfold remove
  rcases m.table.lookup key with ⟨_ | i, t⟩
  · rfl
  · exact t.detach_watch i

/-- A modification is watched as one lookup. -/
theorem modify_watch (m : DequeMap κ ν) (key : κ) (f : ν → ν) :
    (m.modify key f).2.table.watch = (m.table.lookup key).2.watch := by
  unfold modify
  rcases m.table.lookup key with ⟨_ | i, t⟩ <;> rfl

/-- A lookup that requires its key is watched as one lookup. -/
theorem require_watch (m : DequeMap κ ν) (key : κ) :
    (m.require key).2.table.watch = (m.table.lookup key).2.watch := by
  have hget : (m.get key).2.table.watch = (m.table.lookup key).2.watch := rfl
  rw [← hget, require]
  rcases m.get key with ⟨_ | v, m'⟩ <;> rfl

/-- An operation with a key tells the monitor what a lookup of it does, and no other operation tells
it anything. -/
theorem step_watch (m : DequeMap κ ν) (op : Op κ ν) : (m.step op).2.table.watch =
    match op.key? with
    | some key => (m.table.lookup key).2.watch
    | none => m.table.watch := by
  cases op with
  | insert key value => exact m.upsert_watch key value .back false
  | pushBack key value => exact m.upsert_watch key value .back true
  | pushFront key value => exact m.upsert_watch key value .front true
  | popFront => exact m.pop_watch .front
  | popBack => exact m.pop_watch .back
  | moveToFront key => exact m.moveKey_watch key .front
  | moveToBack key => exact m.moveKey_watch key .back
  | remove key => exact m.remove_watch key
  | modify key f => exact m.modify_watch key f
  | require key => exact m.require_watch key
  | get key | containsKey key => rfl
  | peekFront | peekBack | clear => rfl

/-- Deque maps account for their lookups. -/
theorem watched_sound :
    (watched : Watched (DequeMap κ ν) _ _ _).Sound fun m => ∃ slots, m.table.Linked slots := by
  refine Watched.sound_of_lookups rfl ?_ step_watch ?_ fun _ _ => rfl
  · rintro m op ⟨slots, h⟩
    exact (m.step_turns op).reaches.linked h
  · rintro m key ⟨slots, h⟩
    exact h.lookup_watch key

variable {o : TableOptions} {f : Sizing.LoadFactor} {threshold : Nat}

/-- Whatever its comparer says, a new map accounts for all of its lookups. -/
theorem withComparer_accounts (hvalid : o.check = .ok f)
    (hthreshold : o.hashing.collisionThreshold = some threshold) (c : Comparer κ) :
    watched.Accounts threshold o.hashing.hasCallback
      (withComparer o c : Except _ (DequeMap κ ν)) := by
  obtain ⟨t, ht, hlinked, hwatch⟩ : ∃ t : LinkedTable κ ν, _ :=
    LinkedTable.withComparer_watch hvalid hthreshold c
  refine watched_sound.accounts (m := DequeMap.mk t) ?_ ⟨[], hlinked⟩ hwatch rfl
  rw [withComparer, ht]
  rfl

/-- A new map with the comparer of its policy accounts for all of its lookups. -/
theorem new_accounts [ByteHash] [ByteKey κ] [DecidableEq κ] (hvalid : o.check = .ok f)
    (hthreshold : o.hashing.collisionThreshold = some threshold) (seed : Seed) :
    watched.Accounts threshold o.hashing.hasCallback (new o seed : Except _ (DequeMap κ ν)) := by
  obtain ⟨t, ht, hlinked, hwatch⟩ : ∃ t : LinkedTable κ ν, _ :=
    LinkedTable.new_watch hvalid hthreshold seed
  refine watched_sound.accounts (m := DequeMap.mk t) ?_ ⟨[], hlinked⟩ hwatch rfl
  rw [new, ht]
  rfl

end BoundedTables.DequeMap
