import BoundedTables.Proofs.DequeMap
import BoundedTables.Proofs.MultiMap.Cursor
import BoundedTables.Proofs.Table.Reachable

/-!
# Maps over linked tables keep their tables in agreement

Deque maps and multimaps change their tables only through the operations of a linked table, and only
move slots that a search has found (`DequeMap.step_turns`, `MultiMap.step_turns`). So whatever
the comparer says, the index, the order and the arena below them agree (`linked_tables_agree`).
-/

namespace BoundedTables

open Hashing Table

variable {κ ν : Type}

namespace DequeMap

open LinkedTable

/-- Updating a key changes the slot that was found, and adding one makes room first. -/
theorem upsert_turns (m : DequeMap κ ν) (key : κ) (value : ν) (side : End) (relocate : Bool) :
    Turns m.table (m.upsert key value side relocate).2.table := by
  unfold upsert
  rcases find_cases m.table key (m.table.hasher.hash key) with
    ⟨t, hfind, hturns⟩ | ⟨i, t, hfind, hturns, hoccupied⟩ <;> dsimp only <;> rw [hfind]
  · exact hturns.tail (.accept key value (m.table.hasher.hash key) side.opposite side)
  · have hchanged : Turns m.table (t.modifyValue i fun _ => value) :=
      hturns.tail (.modifyValue i _)
    cases relocate with
    | false => exact hchanged.tail .touch
    | true => exact hchanged.tail (.moveTo i side (occupied_modifyValue hoccupied _))

/-- Taking an entry off an end turns the table as the table's own operations do. -/
theorem pop_turns (m : DequeMap κ ν) (side : End) :
    Turns m.table (m.pop side).2.table := by
  unfold pop
  split
  · exact .refl
  · rename_i i _
    have hturns : Turns m.table (m.table.detach i).2 := .single (.detach i)
    rcases hdetach : m.table.detach i with ⟨_ | node, t⟩ <;> rw [hdetach] at hturns <;> exact hturns

/-- Moving a key to an end turns the table as the table's own operations do. -/
theorem moveKey_turns (m : DequeMap κ ν) (key : κ) (side : End) :
    Turns m.table (m.moveKey key side).2.table := by
  unfold moveKey lookup
  rcases find_cases m.table key (m.table.hasher.hash key) with
    ⟨t, hfind, hturns⟩ | ⟨i, t, hfind, hturns, hoccupied⟩ <;> rw [hfind]
  · exact hturns
  · exact hturns.tail (.moveTo i side hoccupied)

/-- A removal turns the table as the table's own operations do. -/
theorem remove_turns (m : DequeMap κ ν) (key : κ) :
    Turns m.table (m.remove key).2.table := by
  unfold remove lookup
  rcases find_cases m.table key (m.table.hasher.hash key) with
    ⟨t, hfind, hturns⟩ | ⟨i, t, hfind, hturns, -⟩ <;> rw [hfind]
  · exact hturns
  · exact hturns.tail (.detach i)

/-- A modification turns the table as the table's own operations do. -/
theorem modify_turns (m : DequeMap κ ν) (key : κ) (f : ν → ν) :
    Turns m.table (m.modify key f).2.table := by
  unfold modify lookup
  rcases find_cases m.table key (m.table.hasher.hash key) with
    ⟨t, hfind, hturns⟩ | ⟨i, t, hfind, hturns, -⟩ <;> rw [hfind]
  · exact hturns
  · exact hturns.tail (.modifyValue i f)

/-- A lookup that requires its key turns the table as a lookup does. -/
theorem require_turns (m : DequeMap κ ν) (key : κ) :
    Turns m.table (m.require key).2.table := by
  have hturns : Turns m.table (m.get key).2.table := .single (.find key _)
  unfold require
  rcases hget : m.get key with ⟨_ | value, m'⟩ <;> rw [hget] at hturns <;> exact hturns

/-- Every operation of a deque map is a number of operations on its table. -/
theorem step_turns (m : DequeMap κ ν) (op : Op κ ν) :
    Turns m.table (m.step op).2.table := by
  cases op with
  | insert key value => exact m.upsert_turns key value .back false
  | pushBack key value => exact m.upsert_turns key value .back true
  | pushFront key value => exact m.upsert_turns key value .front true
  | popFront => exact m.pop_turns .front
  | popBack => exact m.pop_turns .back
  | peekFront | peekBack => exact .refl
  | moveToFront key => exact m.moveKey_turns key .front
  | moveToBack key => exact m.moveKey_turns key .back
  | remove key => exact m.remove_turns key
  | modify key f => exact m.modify_turns key f
  | get key | containsKey key => exact .single (.find key _)
  | require key => exact m.require_turns key
  | clear => exact .single .clear

/-- Over a run of a deque map, its table turns as the table's own operations turn it. -/
theorem run_turns (m : DequeMap κ ν) (ops : List (Op κ ν)) :
    Turns m.table (run step m ops).2.table :=
  run_keeps (P := fun m' : DequeMap κ ν => Turns m.table m'.table)
    (fun m' op hturns => hturns.trans (m'.step_turns op)) .refl ops

/-- Every run of a deque map takes its table to one that the table's own operations lead to. -/
theorem run_reaches (m : DequeMap κ ν) (ops : List (Op κ ν)) :
    Reaches m.table (run step m ops).2.table :=
  (m.run_turns ops).reaches

end DequeMap

namespace MultiMap

open LinkedTable

/-- An insertion turns the table as the table's own operations do. -/
theorem insert_turns (m : MultiMap κ ν) (key : κ) (value : ν) :
    Turns m.table (m.insert key value).table := by
  rcases find_cases m.table key (m.table.hasher.hash key) with
    ⟨t, hfind, hturns⟩ | ⟨i, t, hfind, hturns, -⟩
  · rw [insert_table hfind]
    exact hturns.tail (.accept key [value] (m.table.hasher.hash key) .front .back)
  · unfold insert
    dsimp only
    rw [hfind]
    exact (hturns.tail (.modifyValue i _)).tail .touch

/-- A removal turns the table as the table's own operations do. -/
theorem remove_turns (m : MultiMap κ ν) (key : κ) :
    Turns m.table (m.remove key).2.table := by
  unfold remove lookup
  rcases find_cases m.table key (m.table.hasher.hash key) with
    ⟨t, hfind, hturns⟩ | ⟨i, t, hfind, hturns, -⟩ <;> rw [hfind]
  · exact hturns
  · have hdetached : Turns m.table (t.detach i).2 := hturns.tail (.detach i)
    dsimp only
    rcases hdetach : t.detach i with ⟨_ | node, t'⟩ <;> rw [hdetach] at hdetached <;>
      exact hdetached

/-- Taking one value out turns the table as the table's own operations do. -/
theorem removeValue_turns [BEq ν] (m : MultiMap κ ν) (key : κ) (value : ν) :
    Turns m.table (m.removeValue key value).2.table := by
  unfold removeValue lookup
  rcases find_cases m.table key (m.table.hasher.hash key) with
    ⟨t, hfind, hturns⟩ | ⟨i, t, hfind, hturns, -⟩ <;> rw [hfind]
  · exact hturns
  · dsimp only
    split
    · split
      · exact hturns.tail (.detach i)
      · exact (hturns.tail (.modifyValue i _)).tail .touch
    · exact hturns

/-- A lookup that requires its key turns the table as a lookup does. -/
theorem require_turns (m : MultiMap κ ν) (key : κ) :
    Turns m.table (m.require key).2.table := by
  have hturns : Turns m.table (m.get key).2.table := .single (.find key _)
  unfold require
  rcases hget : m.get key with ⟨_ | values, m'⟩ <;> rw [hget] at hturns <;> exact hturns

/-- Every operation of a multimap is a number of operations on its table. -/
theorem step_turns [BEq ν] (m : MultiMap κ ν) (op : Op κ ν) :
    Turns m.table (m.step op).2.table := by
  cases op with
  | insert key value => exact m.insert_turns key value
  | remove key => exact m.remove_turns key
  | removeValue key value => exact m.removeValue_turns key value
  | get key | containsKey key => exact .single (.find key _)
  | require key => exact m.require_turns key
  | containsValue value => exact .refl
  | clear => exact .single .clear

/-- Over a run of a multimap, its table turns as the table's own operations turn it. -/
theorem run_turns [BEq ν] (m : MultiMap κ ν) (ops : List (Op κ ν)) :
    Turns m.table (run step m ops).2.table :=
  run_keeps (P := fun m' : MultiMap κ ν => Turns m.table m'.table)
    (fun m' op hturns => hturns.trans (m'.step_turns op)) .refl ops

/-- Every run of a multimap takes its table to one that the table's own operations lead to. -/
theorem run_reaches [BEq ν] (m : MultiMap κ ν) (ops : List (Op κ ν)) :
    Reaches m.table (run step m ops).2.table :=
  (m.run_turns ops).reaches

end MultiMap

variable {o : TableOptions}

/-- Whatever is done to a new linked table, and whatever the comparer says, all ways through it lead
to the same slots. That is so for the tables of deque maps and of multimaps in particular. -/
theorem linked_tables_agree [BEq ν] (hvalid : o.check.isOk) (c : Comparer κ) :
    (∃ t : LinkedTable κ ν, LinkedTable.withComparer o c = .ok t ∧
      ∀ t', LinkedTable.Reaches t t' → t'.Agreeing) ∧
    (∃ m : DequeMap κ ν, DequeMap.withComparer o c = .ok m ∧
      ∀ ops, (run DequeMap.step m ops).2.table.Agreeing) ∧
    ∃ m : MultiMap κ ν, MultiMap.withComparer o c = .ok m ∧
      ∀ ops, (run MultiMap.step m ops).2.table.Agreeing := by
  obtain ⟨f, hvalid⟩ := exists_ok hvalid
  refine ⟨?_, ?_, ?_⟩
  · obtain ⟨t, ht, hlinked⟩ : ∃ t : LinkedTable κ ν, _ := LinkedTable.withComparer_linked hvalid c
    refine ⟨t, ht, ?_⟩
    intro t' hreach
    exact hreach.agreeing hlinked
  · obtain ⟨t, ht, hlinked⟩ : ∃ t : LinkedTable κ ν, _ := LinkedTable.withComparer_linked hvalid c
    refine ⟨⟨t⟩, ?_, ?_⟩
    · rw [DequeMap.withComparer, ht]
      rfl
    · intro ops
      exact (DequeMap.run_reaches ⟨t⟩ ops).agreeing hlinked
  · obtain ⟨t, ht, hlinked⟩ : ∃ t : LinkedTable κ (List ν), _ :=
      LinkedTable.withComparer_linked hvalid c
    refine ⟨⟨t, 0⟩, ?_, ?_⟩
    · rw [MultiMap.withComparer, ht]
      rfl
    · intro ops
      exact (MultiMap.run_reaches ⟨t, 0⟩ ops).agreeing hlinked

/-- The ways through the table of a deque map agree under a comparer that takes no two keys for
equal, too, where every key that is pushed takes a slot of its own. -/
theorem tables_agree_unequal :
    (⟨2, .fixed, 0.75, .deterministic⟩ : TableOptions).check.isOk ∧
    ∃ m : DequeMap UInt64 Nat, DequeMap.withComparer ⟨2, .fixed, 0.75, .deterministic⟩
        { (Comparer.natural : Comparer UInt64) with equals := fun _ _ => false } = .ok m ∧
      (run DequeMap.step m [.pushBack 1 10, .pushFront 1 20, .pushBack 1 30]).2.toList =
        [(1, 10), (1, 30)] ∧
      (run DequeMap.step m [.pushBack 1 10, .pushFront 1 20, .pushBack 1 30]).2.table.Agreeing := by
  have hvalid : (⟨2, .fixed, 0.75, .deterministic⟩ : TableOptions).check.isOk := by decide +kernel
  obtain ⟨-, ⟨m, hm, hruns⟩, -⟩ := linked_tables_agree (ν := Nat) hvalid
    { (Comparer.natural : Comparer UInt64) with equals := fun _ _ => false }
  have hentries : ((DequeMap.withComparer ⟨2, .fixed, 0.75, .deterministic⟩
        { (Comparer.natural : Comparer UInt64) with equals := fun _ _ => false }).map
      fun m : DequeMap UInt64 Nat => (run DequeMap.step m
        [.pushBack 1 10, .pushFront 1 20, .pushBack 1 30]).2.toList) =
      .ok [(1, 10), (1, 30)] := by decide +kernel
  rw [hm] at hentries
  exact ⟨hvalid, m, hm, Except.ok.inj hentries, hruns _⟩

end BoundedTables
