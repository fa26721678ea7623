import BoundedTables.Table.Arena
import Mathlib.Data.List.Nodup

/-!
# Reading arenas

What every operation of an arena changes at each slot. `Arena.Sound` says that the stack of free
slots holds exactly the empty ones, each once, so that an insertion never meets an occupied slot.
-/

namespace BoundedTables.Table.Arena

variable {α : Type} {a : Arena α} {i j : Nat} {node : α}

/-- The stack of free slots holds exactly the empty ones, without repeats. -/
structure Sound (a : Arena α) : Prop where
  free_nodup : a.free.Nodup
  mem_free_iff : ∀ i, i ∈ a.free ↔ i < a.slots.size ∧ a.get? i = none

/-- An empty arena is sound. -/
theorem empty_sound : (Arena.empty : Arena α).Sound where
  free_nodup := List.nodup_nil
  mem_free_iff := by simp [empty]

@[simp] theorem empty_get? (i : Nat) : (Arena.empty : Arena α).get? i = none := by
  simp [empty, get?]

/-- An occupied slot is one of the arena's. -/
theorem lt_size_of_get? (h : a.get? i = some node) : i < a.slots.size := by
  unfold get? at h
  by_contra hi
  rw [Array.getElem?_eq_none (Nat.le_of_not_lt hi)] at h
  cases h

/-- A node goes into one slot and changes no other. -/
theorem insert_get? (h : a.Sound) (node : α) (j : Nat) :
    (a.insert node).2.get? j = if j = (a.insert node).1 then some node else a.get? j := by
  obtain ⟨slots, free, size⟩ := a
  cases free with
  | nil =>
      simp only [insert, get?, Array.getElem?_push]
      by_cases hj : j = slots.size <;> simp [hj]
  | cons i rest =>
      have hi := ((h.mem_free_iff i).mp (by simp)).1
      by_cases hj : j = i
      · subst hj
        simp_all [insert, get?]
      · simp [insert, get?, hj, Array.getElem?_setIfInBounds_ne (Ne.symm hj)]

/-- An insertion takes an empty slot. -/
theorem insert_vacant (h : a.Sound) (node : α) : a.get? (a.insert node).1 = none := by
  obtain ⟨slots, free, size⟩ := a
  cases free with
  | nil => simp [insert, get?]
  | cons i rest => exact ((h.mem_free_iff i).mp (by simp)).2

@[simp] theorem insert_size (a : Arena α) (node : α) : (a.insert node).2.size = a.size + 1 := by
  obtain ⟨slots, free, size⟩ := a
  cases free <;> rfl

/-- An arena stays sound when a node goes in. -/
theorem insert_sound (h : a.Sound) (node : α) : (a.insert node).2.Sound := by
  have hread := insert_get? h node
  obtain ⟨slots, free, size⟩ := a
  cases free with
  | nil =>
      refine ⟨List.nodup_nil, fun j => ?_⟩
      have hmem := h.mem_free_iff j
      rw [hread j]
      simp only [insert, Array.size_push] at hmem ⊢
      grind
  | cons i rest =>
      have hnodup := List.nodup_cons.mp h.free_nodup
      refine ⟨hnodup.2, fun j => ?_⟩
      have hmem := h.mem_free_iff j
      rw [hread j]
      simp only [insert, Array.size_setIfInBounds, List.mem_cons] at hmem ⊢
      by_cases hj : j = i
      · subst hj
        simp [hnodup.1]
      · simpa [hj] using hmem

/-- Taking a node out empties its slot and changes no other. -/
theorem remove_get? (h : a.get? i = some node) (j : Nat) :
    (a.remove i).2.get? j = if j = i then none else a.get? j := by
  have hi := lt_size_of_get? h
  obtain ⟨slots, free, size⟩ := a
  simp only [remove, h]
  by_cases hj : j = i
  · subst hj
    simp_all [get?]
  · simp [get?, hj, Array.getElem?_setIfInBounds_ne (Ne.symm hj)]

/-- Taking a node out leaves one node less. -/
theorem remove_size (h : a.get? i = some node) : (a.remove i).2.size = a.size - 1 := by
  simp [remove, h]

/-- An arena stays sound when a node is taken out. -/
theorem remove_sound (h : a.Sound) (hi : a.get? i = some node) : (a.remove i).2.Sound := by
  have hread := remove_get? hi
  have hlt := lt_size_of_get? hi
  have hvacant : i ∉ a.free := fun hmem => by
    rw [((h.mem_free_iff i).mp hmem).2] at hi
    cases hi
  have hshape : (a.remove i).2.free = i :: a.free ∧ (a.remove i).2.slots.size = a.slots.size := by
    simp [remove, hi]
  refine ⟨?_, fun j => ?_⟩
  · rw [hshape.1]
    exact List.nodup_cons.mpr ⟨hvacant, h.free_nodup⟩
  · have hmem := h.mem_free_iff j
    rw [hread j, hshape.1, hshape.2, List.mem_cons, hmem]
    by_cases hj : j = i
    · simp [hj, hlt]
    · simp [hj]

/-- Modifying a node changes no other slot. -/
theorem modify_get? (a : Arena α) (i j : Nat) (f : α → α) :
    (a.modify i f).get? j = if j = i then (a.get? i).map f else a.get? j := by
  obtain ⟨slots, free, size⟩ := a
  simp only [modify, get?, Array.getElem?_modify]
  by_cases hj : i = j
  · subst hj
    cases slots[i]? <;> simp
  · simp [hj, Ne.symm hj]

@[simp] theorem modify_slots_size (a : Arena α) (i : Nat) (f : α → α) :
    (a.modify i f).slots.size = a.slots.size := by
  simp [modify]

/-- An arena stays sound when a node is modified. -/
theorem modify_sound (h : a.Sound) (i : Nat) (f : α → α) : (a.modify i f).Sound := by
  refine ⟨h.free_nodup, fun j => ?_⟩
  have hmem := h.mem_free_iff j
  rw [modify_get?, modify_slots_size]
  show j ∈ a.free ↔ _
  rw [hmem]
  by_cases hj : j = i
  · simp [hj]
  · simp [hj]

/-! ## The list of occupied slots -/

/-- The occupied slots are those with a node. -/
theorem mem_occupied_iff (a : Arena α) (i : Nat) (node : α) :
    (i, node) ∈ a.occupied ↔ a.get? i = some node := by
  simp only [occupied, List.mem_filterMap, List.mem_range, Option.map_eq_some_iff, Prod.mk.injEq]
  constructor
  · rintro ⟨k, _, other, hget, rfl, rfl⟩
    exact hget
  · intro h
    exact ⟨i, lt_size_of_get? h, node, h, rfl, rfl⟩

/-- No slot is listed twice. -/
theorem occupied_nodup (a : Arena α) : (a.occupied.map Prod.fst).Nodup := by
  have hsub : List.Sublist (a.occupied.map Prod.fst) (List.range a.slots.size) := by
    unfold occupied
    generalize List.range a.slots.size = slots
    induction slots with
    | nil => simp
    | cons i slots ih =>
        cases hget : a.get? i with
        | none => simpa [hget] using ih.trans (List.sublist_cons_self i slots)
        | some node => simpa [hget] using ih
  exact hsub.nodup List.nodup_range

end BoundedTables.Table.Arena
