import BoundedTables.Proofs.LinkedMaps
import BoundedTables.Proofs.MultiMap
import BoundedTables.Proofs.Table.Lookups

/-!
# Lookups in multimaps

Every operation that takes a key tells the monitor of one lookup, whatever else it does
(`step_watch`). Looking for a value walks the list of keys and not the index, and tells the monitor
nothing.
-/

namespace BoundedTables.MultiMap

open Hashing Table

variable {κ ν : Type}

/-- The key that an operation takes. -/
def Op.key? : Op κ ν → Option κ
  | .insert key _ | .remove key | .removeValue key _ | .get key | .require key | .containsKey key =>
      some key
  | .containsValue _ | .clear => none

/-- Multimaps with their monitors. -/
def watched [BEq ν] : Watched (MultiMap κ ν) (Op κ ν) (Reply ν) κ where
  step m op := some (m.step op)
  key? := Op.key?
  watch m := m.table.watch
  filtered _ := 0
  Walks m := m.table.Walks
  Filters _ _ := False

/-! ## Past its lookup, an operation tells the monitor nothing -/

/-- An insertion is watched as one lookup. -/
theorem insert_watch (m : MultiMap κ ν) (key : κ) (value : ν) :
    (m.insert key value).table.watch = (m.table.lookup key).2.watch := by
  unfold insert LinkedTable.lookup
  dsimp only
  rcases m.table.find key (m.table.hasher.hash key) with ⟨_ | i, t⟩
  · have hevicted := t.evict_watch .front
    dsimp only
    rw [LinkedTable.attach_watch]
    split
    · rcases hevict : t.evict .front with ⟨_ | node, t'⟩ <;> rw [hevict] at hevicted <;>
        exact hevicted
    · rfl
  · rfl

/-- A removal is watched as one lookup. -/
theorem remove_watch (m : MultiMap κ ν) (key : κ) :
    (m.remove key).2.table.watch = (m.table.lookup key).2.watch := by
  unfold remove
  rcases m.table.lookup key with ⟨_ | i, t⟩
  · rfl
  · have hdetached := t.detach_watch i
    dsimp only
    rcases hdetach : t.detach i with ⟨_ | node, t'⟩ <;> rw [hdetach] at hdetached <;>
      exact hdetached

/-- Taking one value out is watched as one lookup. -/
theorem removeValue_watch [BEq ν] (m : MultiMap κ ν) (key : κ) (value : ν) :
    (m.removeValue key value).2.table.watch = (m.table.lookup key).2.watch := by
  unfold removeValue
  rcases m.table.lookup key with ⟨_ | i, t⟩
  · rfl
  · dsimp only
    split
    · split
      · exact t.detach_watch i
      · rfl
    · rfl

/-- A lookup that requires its key is watched as one lookup. -/
theorem require_watch (m : MultiMap κ ν) (key : κ) :
    (m.require key).2.table.watch = (m.table.lookup key).2.watch := by
  have hget : (m.get key).2.table.watch = (m.table.lookup key).2.watch := rfl
  rw [← hget, require]
  rcases m.get key with ⟨_ | vs, m'⟩ <;> rfl

/-- An operation with a key tells the monitor what a lookup of it does, and no other operation tells
it anything. -/
theorem step_watch [BEq ν] (m : MultiMap κ ν) (op : Op κ ν) : (m.step op).2.table.watch =
    match op.key? with
    | some key => (m.table.lookup key).2.watch
    | none => m.table.watch := by
  cases op with
  | insert key value => exact m.insert_watch key value
  | remove key => exact m.remove_watch key
  | removeValue key value => exact m.removeValue_watch key value
  | require key => exact m.require_watch key
  | get key | containsKey key => rfl
  | containsValue value => rfl
  | clear => rfl

/-- Multimaps account for their lookups. -/
theorem watched_sound [BEq ν] :
    (watched : Watched (MultiMap κ ν) _ _ _).Sound fun m => ∃ slots, m.table.Linked slots := by
  refine Watched.sound_of_lookups rfl ?_ step_watch ?_ fun _ _ => rfl
  · rintro m op ⟨slots, h⟩
    exact (m.step_turns op).reaches.linked h
  · rintro m key ⟨slots, h⟩
    exact h.lookup_watch key

variable {o : TableOptions} {f : Sizing.LoadFactor} {threshold : Nat}

/-- Whatever its comparer says, a new multimap accounts for all of its lookups. -/
theorem withComparer_accounts [BEq ν] (hvalid : o.check = .ok f)
    (hthreshold : o.hashing.collisionThreshold = some threshold) (c : Comparer κ) :
    watched.Accounts threshold o.hashing.hasCallback
      (withComparer o c : Except _ (MultiMap κ ν)) := by
  obtain ⟨t, ht, hlinked, hwatch⟩ : ∃ t : LinkedTable κ (List ν), _ :=
    LinkedTable.withComparer_watch hvalid hthreshold c
  refine watched_sound.accounts (m := MultiMap.mk t 0) ?_ ⟨[], hlinked⟩ hwatch rfl
  rw [withComparer, ht]
  rfl

/-- A new multimap with the comparer of its policy accounts for all of its lookups. -/
theorem new_accounts [ByteHash] [ByteKey κ] [DecidableEq κ] [BEq ν] (hvalid : o.check = .ok f)
    (hthreshold : o.hashing.collisionThreshold = some threshold) (seed : Seed) :
    watched.Accounts threshold o.hashing.hasCallback (new o seed : Except _ (MultiMap κ ν)) := by
  obtain ⟨t, ht, hlinked, hwatch⟩ : ∃ t : LinkedTable κ (List ν), _ :=
    LinkedTable.new_watch hvalid hthreshold seed
  refine watched_sound.accounts (m := MultiMap.mk t 0) ?_ ⟨[], hlinked⟩ hwatch rfl
  rw [new, ht]
  rfl

end BoundedTables.MultiMap
