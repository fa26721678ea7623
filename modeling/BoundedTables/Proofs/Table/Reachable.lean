import BoundedTables.Proofs.Table.LinkedTable
import BoundedTables.Proofs.Table.Trail
import Mathlib.Logic.Relation

/-!
# The structures of a linked table agree

A linked table threads its slots three times, through the chains of its index and through its order
in either direction, while the slots themselves are recycled. `Agreeing t` says that all of these
lead to the occupied slots, to each of them once. No operation on slots that are occupied can break
that (`Reaches.linked`), whatever the hashes it is given. Maps do no more than that to their tables,
and make room before they add an entry (`Turn`).
-/

namespace BoundedTables.Table.LinkedTable

open Hashing

variable {κ ν : Type} {t t' : LinkedTable κ ν} {slots : List Nat} {i : Nat}

/-- One operation on a table. Only an occupied slot can be moved. -/
inductive Step (t : LinkedTable κ ν) : LinkedTable κ ν → Prop
  | find (key : κ) (hash : UInt32) : Step t (t.find key hash).2
  | touch : Step t t.touch
  | attach (key : κ) (value : ν) (hash : UInt32) (side : End) :
      Step t (t.attach key value hash side)
  | detach (i : Nat) : Step t (t.detach i).2
  | evict (side : End) : Step t (t.evict side).2
  | moveTo (i : Nat) (side : End) (occupied : (t.arena.get? i).isSome) : Step t (t.moveTo i side)
  | modifyValue (i : Nat) (f : ν → ν) : Step t (t.modifyValue i f)
  | clear : Step t t.clear

/-- A table that operations lead to. -/
abbrev Reaches : LinkedTable κ ν → LinkedTable κ ν → Prop := Relation.ReflTransGen Step

/-- Every way through a table leads to the same slots, to each of them once. -/
structure Threads (t : LinkedTable κ ν) (slots : List Nat) : Prop where
  nodup : slots.Nodup
  occupied : ∀ i, i ∈ slots ↔ (t.arena.get? i).isSome
  forward : Trail t.order.after t.order.head slots
  backward : Trail t.order.before t.order.tail slots.reverse
  chains : ∃ chain, t.index.Chains (fun i => (t.arena.get? i).map (·.hash)) slots chain
  /-- The free slots are the empty ones. -/
  free_nodup : t.arena.free.Nodup
  free : ∀ i, i ∈ t.arena.free ↔ i < t.arena.slots.size ∧ t.arena.get? i = none
  size : t.size = slots.length

/-- The index, the order and the arena of a table agree on the slots it holds. -/
def Agreeing (t : LinkedTable κ ν) : Prop := ∃ slots, t.Threads slots

/-- Every way through a linked table leads to its slots. -/
theorem Linked.threads (h : t.Linked slots) : t.Threads slots where
  nodup := h.order.nodup
  occupied := h.occupied
  forward := h.order.forward
  backward := h.order.backward
  chains := h.index.exists_chains h.order.nodup fun i => by
    rw [h.occupied i, Option.isSome_map]
  free_nodup := h.arena.free_nodup
  free := h.arena.mem_free_iff
  size := h.size

/-! ## Every operation keeps a table linked -/

/-- Detaching frees a slot, or there was nothing to free. -/
theorem Linked.detach (h : t.Linked slots) (i : Nat) : ∃ slots, (t.detach i).2.Linked slots := by
  cases hnode : t.arena.get? i with
  | none =>
      refine ⟨slots, ?_⟩
      rw [LinkedTable.detach, hnode]
      exact h
  | some node =>
      have hmem : i ∈ slots := (h.occupied i).mpr (by rw [hnode]; rfl)
      obtain ⟨front, back, rfl⟩ := List.append_of_mem hmem
      exact ⟨_, (detach_linked h hnode).2.1⟩

/-- What an eviction counts and logs is not among the links. -/
theorem Linked.evict (h : t.Linked slots) (side : End) :
    ∃ slots, (t.evict side).2.Linked slots := by
  unfold LinkedTable.evict
  split
  · exact ⟨slots, h⟩
  · rename_i i _
    obtain ⟨slots', hdetached⟩ := h.detach i
    rcases hdetach : t.detach i with ⟨_ | node, t'⟩ <;> rw [hdetach] at hdetached
    · exact ⟨slots', hdetached⟩
    · exact ⟨slots', hdetached.arena, hdetached.order, hdetached.index, hdetached.occupied,
        hdetached.size⟩

/-- One operation keeps a table linked. -/
theorem Step.linked (hstep : Step t t') (h : t.Linked slots) : ∃ slots, t'.Linked slots := by
  cases hstep with
  | find key hash => exact ⟨slots, (find_sameContents t key hash).linked h⟩
  | touch => exact ⟨slots, (touch_sameContents t).linked h⟩
  | attach key value hash side => exact ⟨_, attach_linked h key value hash side⟩
  | detach i => exact h.detach i
  | evict side => exact h.evict side
  | moveTo i side hoccupied =>
      obtain ⟨front, back, rfl⟩ := List.append_of_mem ((h.occupied i).mpr hoccupied)
      exact ⟨_, moveTo_linked h side⟩
  | modifyValue i f => exact ⟨slots, modifyValue_linked h i f⟩
  | clear => exact ⟨[], empty_linked rfl (ChainIndex.clear_partition t.index) rfl⟩

/-- Any number of operations keep a table linked. -/
theorem Reaches.linked (hreach : Reaches t t') (h : t.Linked slots) :
    ∃ slots, t'.Linked slots := by
  induction hreach with
  | refl => exact ⟨slots, h⟩
  | tail _ hstep ih =>
      obtain ⟨slots', hlinked⟩ := ih
      exact hstep.linked hlinked

/-- Whatever operations lead to from a linked table agrees with itself. -/
theorem Reaches.agreeing (hreach : Reaches t t') (h : t.Linked slots) : t'.Agreeing := by
  obtain ⟨slots', hlinked⟩ := hreach.linked h
  exact ⟨slots', hlinked.threads⟩

variable {o : TableOptions} {f : Sizing.LoadFactor}

/-- A new table is linked, and has no slots. -/
theorem withComparer_linked (hvalid : o.check = .ok f) (c : Comparer κ) :
    ∃ t : LinkedTable κ ν, withComparer o c = .ok t ∧ t.Linked [] := by
  refine ⟨build o f (KeyHasher.withComparer o.hashing c).1 (KeyHasher.withComparer o.hashing c).2,
    ?_, empty_linked rfl (ChainIndex.withBuckets_partition _) rfl⟩
  rw [withComparer, hvalid]
  rfl

/-! ## What maps do to their tables -/

/-- One operation of a map on its table. An entry is added after making room for it at an end. -/
inductive Turn (t : LinkedTable κ ν) : LinkedTable κ ν → Prop
  | find (key : κ) (hash : UInt32) : Turn t (t.find key hash).2
  | touch : Turn t t.touch
  | accept (key : κ) (value : ν) (hash : UInt32) (room side : End) :
      Turn t ((if t.isFull then (t.evict room).2 else t).attach key value hash side)
  | detach (i : Nat) : Turn t (t.detach i).2
  | moveTo (i : Nat) (side : End) (occupied : (t.arena.get? i).isSome) : Turn t (t.moveTo i side)
  | modifyValue (i : Nat) (f : ν → ν) : Turn t (t.modifyValue i f)
  | clear : Turn t t.clear

/-- A table that a map may turn another one into. -/
abbrev Turns : LinkedTable κ ν → LinkedTable κ ν → Prop := Relation.ReflTransGen Turn

/-- An operation of a map comes down to operations on its table. -/
theorem Turn.reaches (hturn : Turn t t') : Reaches t t' := by
  cases hturn with
  | find key hash => exact .single (.find key hash)
  | touch => exact .single .touch
  | accept key value hash room side =>
      refine Relation.ReflTransGen.tail ?_ (.attach key value hash side)
      split
      · exact .single (.evict room)
      · exact .refl
  | detach i => exact .single (.detach i)
  | moveTo i side hoccupied => exact .single (.moveTo i side hoccupied)
  | modifyValue i f => exact .single (.modifyValue i f)
  | clear => exact .single .clear

/-- Operations of a map come down to operations on its table. -/
theorem Turns.reaches (hturns : Turns t t') : Reaches t t' := by
  induction hturns with
  | refl => exact .refl
  | tail _ hturn ih => exact ih.trans hturn.reaches

/-! ## Searching -/

/-- A walk stops at a slot with the property it looks for. -/
theorem findFrom_some {ix : ChainIndex} {p : Nat → Bool} {fuel visited : Nat}
    {start : Option Nat} (h : (ix.findFrom p fuel start visited).1 = some i) : p i = true := by
  induction fuel generalizing start visited with
  | zero => cases start <;> cases h
  | succ fuel ih =>
      cases start with
      | none => cases h
      | some j =>
          unfold ChainIndex.findFrom at h
          split at h
          · rename_i hj
            cases h
            exact hj
          · exact ih h

/-- A search finds an occupied slot or none, even in a table whose links lead astray. -/
theorem find_cases (t : LinkedTable κ ν) (key : κ) (hash : UInt32) :
    (∃ t', t.find key hash = (none, t') ∧ Turns t t') ∨
      ∃ i t', t.find key hash = (some i, t') ∧ Turns t t' ∧ (t'.arena.get? i).isSome := by
  have hturns : Turns t (t.find key hash).2 := .single (.find key hash)
  rcases hfind : (t.find key hash).1 with _ | i
  · exact .inl ⟨_, Prod.ext hfind rfl, hturns⟩
  · refine .inr ⟨i, _, Prod.ext hfind rfl, hturns, ?_⟩
    have hholds : t.holds key hash i = true := findFrom_some hfind
    rw [(find_sameContents t key hash).arena]
    unfold holds at hholds
    split at hholds
    · rename_i node hnode
      rw [hnode]
      rfl
    · cases hholds

/-- A slot stays occupied when its value changes. -/
theorem occupied_modifyValue (hoccupied : (t.arena.get? i).isSome) (f : ν → ν) :
    ((t.modifyValue i f).arena.get? i).isSome := by
  rw [modifyValue, Arena.modify_get?, if_pos rfl, Option.isSome_map]
  exact hoccupied

end BoundedTables.Table.LinkedTable
