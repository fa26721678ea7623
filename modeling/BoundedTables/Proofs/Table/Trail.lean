import BoundedTables.Proofs.Table.ChainIndex
import Mathlib.Data.List.Induction
import Mathlib.Data.List.Nodup

/-!
# The slots that links lead to

`Trail next start slots` says where links lead: following them from `start` meets the slots of a
list, one after the other, and then ends. A strung order has a trail in either direction, the one
the reverse of the other, and the trails of all buckets of an index together hold every linked slot
once (`ChainIndex.Partition.exists_chains`).
-/

namespace BoundedTables.Table

/-- Following links from a start meets these slots in this order, and no other. -/
inductive Trail (next : Nat → Option Nat) : Option Nat → List Nat → Prop
  | nil : Trail next none []
  | cons {i : Nat} {rest : List Nat} : Trail next (next i) rest → Trail next (some i) (i :: rest)

namespace Trail

variable {next : Nat → Option Nat} {start : Option Nat} {slots other front back : List Nat}
  {i : Nat}

/-- A trail starts at its first slot. -/
theorem start_eq (h : Trail next start slots) : start = slots.head? := by
  cases h <;> rfl

/-- Links lead on from every slot that they lead to. -/
theorem rest (h : Trail next start (front ++ i :: back)) : Trail next (next i) back := by
  induction front generalizing start with
  | nil =>
      cases h with
      | cons hrest => exact hrest
  | cons j front ih =>
      cases h with
      | cons hrest => exact ih hrest

/-- Links lead to one list of slots only. -/
theorem unique (h : Trail next start slots) (hother : Trail next start other) : slots = other := by
  induction h generalizing other with
  | nil =>
      cases hother
      rfl
  | cons _ ih =>
      cases hother with
      | cons hrest => rw [ih hrest]

end Trail

/-- A list without repeats loses the one place where a slot stands. -/
theorem erase_middle {front back : List Nat} {i : Nat} (h : (front ++ i :: back).Nodup) :
    (front ++ i :: back).erase i = front ++ back := by
  have hfront : i ∉ front := fun hmem => (List.nodup_append.mp h).2.2 i hmem i (by simp) rfl
  rw [List.erase_append_right _ hfront, List.erase_cons_head]

namespace LinkedOrder

variable {o : LinkedOrder} {slots front back : List Nat}

/-- The links behind the members lead from any of them through the rest. -/
theorem Strung.trail_after (h : o.Strung (front ++ back)) : Trail o.after back.head? back := by
  induction back generalizing front with
  | nil => exact .nil
  | cons i back ih =>
      have hsplit : o.Strung ((front ++ [i]) ++ back) := by simpa using h
      have hrest := ih hsplit
      rw [← (h.links front i back rfl).1] at hrest
      exact .cons hrest

/-- The links in front of the members lead from any of them back to the first. -/
theorem Strung.trail_before (h : o.Strung (front ++ back)) :
    Trail o.before front.getLast? front.reverse := by
  induction front using List.reverseRecOn generalizing back with
  | nil => exact .nil
  | append_singleton front i ih =>
      have hsplit : o.Strung (front ++ i :: back) := by simpa using h
      have hrest := ih hsplit
      rw [← (hsplit.links front i back rfl).2] at hrest
      rw [List.getLast?_append_of_ne_nil _ (by simp), List.reverse_append]
      exact .cons hrest

/-- The links of an order lead from its head through the slots. -/
theorem Strung.forward (h : o.Strung slots) : Trail o.after o.head slots := by
  have hwhole : o.Strung ([] ++ slots) := h
  rw [h.head]
  exact hwhole.trail_after

/-- The links of an order lead from its tail through the slots in reverse. -/
theorem Strung.backward (h : o.Strung slots) : Trail o.before o.tail slots.reverse := by
  have hwhole : o.Strung (slots ++ []) := by simpa using h
  rw [h.tail]
  exact hwhole.trail_before

end LinkedOrder

namespace ChainIndex

variable {ix : ChainIndex} {hashOf : Nat → Option UInt32} {slots : List Nat}

/-- A chain is a trail along the links of its index. -/
theorem Chain.trail {start : Option Nat} (h : ix.Chain start slots) :
    Trail ix.after start slots := by
  induction slots generalizing start with
  | nil =>
      obtain rfl : start = none := h
      exact .nil
  | cons i rest ih =>
      obtain ⟨rfl, hrest⟩ := h
      exact .cons (ih hrest)

/-- The chains of an index: each is what its bucket leads to, its slots belong there, and all of
them together are some slots, each once. -/
structure Chains (ix : ChainIndex) (hashOf : Nat → Option UInt32) (slots : List Nat)
    (chain : Nat → List Nat) : Prop where
  trail : ∀ b < ix.bucketCount, Trail ix.after (ix.heads[b]?).join (chain b)
  home : ∀ b < ix.bucketCount, ∀ i ∈ chain b,
    ∃ hash, hashOf i = some hash ∧ hash.toNat % ix.bucketCount = b
  perm : ((List.range ix.bucketCount).flatMap chain).Perm slots

/-- An index that partitions the linked slots has chains with all of them. -/
theorem Partition.exists_chains (h : ix.Partition hashOf) (hnodup : slots.Nodup)
    (hslots : ∀ i, i ∈ slots ↔ (hashOf i).isSome) : ∃ chain, ix.Chains hashOf slots chain := by
  choose! chain hchain hdistinct hmem using h.chain
  refine ⟨chain, fun b hb => (hchain b hb).trail, fun b hb i hi => (hmem b hb i).mp hi, ?_⟩
  have hapart : ((List.range ix.bucketCount).flatMap chain).Nodup := by
    refine List.nodup_flatMap.mpr ⟨fun b hb => hdistinct b (List.mem_range.mp hb), ?_⟩
    refine List.Nodup.pairwise_of_forall_ne List.nodup_range ?_
    intro b hb c hc hne i hi hi'
    refine hne ?_
    -- a slot has one hash, so it stands in the chain of one bucket
    obtain ⟨hash, hhash, hbucket⟩ := (hmem b (List.mem_range.mp hb) i).mp hi
    obtain ⟨hash', hhash', hbucket'⟩ := (hmem c (List.mem_range.mp hc) i).mp hi'
    obtain rfl : hash = hash' := Option.some.inj (hhash.symm.trans hhash')
    exact hbucket.symm.trans hbucket'
  refine (List.perm_ext_iff_of_nodup hapart hnodup).mpr ?_
  intro i
  rw [hslots, List.mem_flatMap, Option.isSome_iff_exists]
  constructor
  · rintro ⟨b, hb, hi⟩
    obtain ⟨hash, hhash, -⟩ := (hmem b (List.mem_range.mp hb) i).mp hi
    exact ⟨hash, hhash⟩
  · rintro ⟨hash, hhash⟩
    have hb := bucketOf_lt h.buckets_pos hash
    exact ⟨ix.bucketOf hash, List.mem_range.mpr hb, (hmem _ hb i).mpr ⟨hash, hhash, rfl⟩⟩

end ChainIndex

end BoundedTables.Table
