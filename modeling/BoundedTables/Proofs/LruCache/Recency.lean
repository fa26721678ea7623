import BoundedTables.LruCache.Recency
import BoundedTables.Proofs.Table.Arena
import BoundedTables.Proofs.Table.LinkedOrder

/-!
# Recency lists as lists of cells

`Spells l cells` says that the order of a recency list strings up its occupied slots and that these
hold the nodes of the cells. Adding, promoting and removing a node act on the cells in the obvious
way; repositioning a node puts it behind the last cell whose stamp is not earlier
(`Spells.reposition`).
-/

namespace BoundedTables.RecencyList

open Table

variable {κ ν : Type} {l : RecencyList κ ν} {i stamp : Nat} {node : RecencyNode κ ν}

/-- A slot with its node. -/
abbrev Cell (κ ν : Type) : Type := Nat × RecencyNode κ ν

variable {cells before after front back : List (Cell κ ν)}

/-- The cells are the nodes of a recency list in order. -/
structure Spells (l : RecencyList κ ν) (cells : List (Cell κ ν)) : Prop where
  arena : l.arena.Sound
  order : l.order.Strung (cells.map (·.1))
  node : ∀ cell ∈ cells, l.get? cell.1 = some cell.2
  occupied : ∀ i node, l.get? i = some node → i ∈ cells.map (·.1)
  size : l.size = cells.length

/-- An empty recency list spells no cells. -/
theorem empty_spells : (empty : RecencyList κ ν).Spells [] where
  arena := Arena.empty_sound
  order := LinkedOrder.empty_strung
  node _ hcell := absurd hcell List.not_mem_nil
  occupied i node hnode := by simp [empty, get?] at hnode
  size := rfl

/-- A cell of the rest stands in another slot. -/
theorem Spells.ne_of_mem (h : l.Spells (before ++ (i, node) :: after)) {cell : Cell κ ν}
    (hcell : cell ∈ before ++ after) : cell.1 ≠ i := by
  have hnodup := h.order.nodup
  rw [List.map_append, List.map_cons, List.perm_middle.nodup_iff, ← List.map_append] at hnodup
  intro heq
  exact (List.nodup_cons.mp hnodup).1 (List.mem_map.mpr ⟨cell, hcell, heq⟩)

/-- A node is read from its place in the list. -/
theorem Spells.get?_eq (h : l.Spells (before ++ (i, node) :: after)) : l.get? i = some node :=
  h.node (i, node) (by simp)

/-- There are at most as many cells as slots. -/
theorem Spells.length_le (h : l.Spells cells) : cells.length ≤ l.arena.slots.size := by
  have hsub : cells.map (·.1) ⊆ List.range l.arena.slots.size := by
    intro i hi
    obtain ⟨cell, hcell, rfl⟩ := List.mem_map.mp hi
    exact List.mem_range.mpr (Arena.lt_size_of_get? (h.node cell hcell))
  simpa using (List.subperm_of_subset h.order.nodup hsub).length_le

/-- Walking the list from its front reads the nodes in order. -/
theorem Spells.toList_eq (h : l.Spells cells) : l.toList = cells.map (·.2) := by
  rw [toList, h.order.toList_eq, List.filterMap_map]
  have hall := h.node
  clear h
  induction cells with
  | nil => rfl
  | cons cell cells ih =>
      have hcell : (l.get? ∘ fun cell : Cell κ ν => cell.1) cell = some cell.2 :=
        hall cell List.mem_cons_self
      rw [List.filterMap_cons_some hcell, List.map_cons,
        ih fun other hother => hall other (List.mem_cons_of_mem _ hother)]

/-- The candidate for eviction is the last cell. -/
theorem Spells.victim?_eq (h : l.Spells cells) : l.victim? = cells.getLast? := by
  rw [victim?, h.order.tail, List.getLast?_map]
  cases hlast : cells.getLast? with
  | none => rfl
  | some cell => simp [h.node cell (List.mem_of_getLast? hlast)]

/-! ## Adding, removing and changing nodes -/

/-- A new node goes to the front, in a slot of its own. -/
theorem Spells.pushFront (h : l.Spells cells) (node : RecencyNode κ ν) :
    ∃ i l', l.pushFront node = (i, l') ∧ l'.Spells ((i, node) :: cells) := by
  have hvacant := Arena.insert_vacant h.arena node
  have hread := Arena.insert_get? h.arena node
  have hsound := Arena.insert_sound h.arena node
  rcases hinsert : l.arena.insert node with ⟨i, arena⟩
  simp only [hinsert] at hvacant hread hsound
  have hslot : i ∉ cells.map (·.1) := fun hmem => by
    obtain ⟨cell, hcell, rfl⟩ := List.mem_map.mp hmem
    have hnode : l.arena.get? cell.1 = some cell.2 := h.node cell hcell
    rw [hvacant] at hnode
    cases hnode
  refine ⟨i, ⟨arena, l.order.pushFront i⟩, by simp [RecencyList.pushFront, hinsert], hsound,
    LinkedOrder.pushFront_strung h.order hslot, fun cell hcell => ?_, fun j other hother => ?_, ?_⟩
  · show arena.get? cell.1 = _
    rw [hread]
    rcases List.mem_cons.mp hcell with rfl | hcell
    · rw [if_pos rfl]
    · have hne : cell.1 ≠ i := fun heq => hslot (List.mem_map.mpr ⟨cell, hcell, heq⟩)
      rw [if_neg hne]
      exact h.node cell hcell
  · have hother : arena.get? j = some other := hother
    rw [hread] at hother
    split at hother
    · rename_i hj
      rw [List.map_cons, hj]
      exact List.mem_cons_self
    · exact List.mem_cons_of_mem _ (h.occupied j other hother)
  · have hsize := Arena.insert_size l.arena node
    rw [hinsert] at hsize
    exact hsize.trans (congrArg (· + 1) h.size)

/-- Removing a node takes its cell out. -/
theorem Spells.remove (h : l.Spells (before ++ (i, node) :: after)) :
    (l.remove i).Spells (before ++ after) := by
  have hnode : l.arena.get? i = some node := h.get?_eq
  have hread := Arena.remove_get? hnode
  have horder := h.order
  rw [List.map_append, List.map_cons] at horder
  refine ⟨Arena.remove_sound h.arena hnode, ?_, fun cell hcell => ?_,
    fun j other hother => ?_, ?_⟩
  · rw [List.map_append]
    exact LinkedOrder.detach_strung horder
  · show (l.arena.remove i).2.get? cell.1 = _
    rw [hread, if_neg (h.ne_of_mem hcell)]
    exact h.node cell (List.perm_middle.mem_iff.mpr (List.mem_cons_of_mem _ hcell))
  · have hother : (l.arena.remove i).2.get? j = some other := hother
    rw [hread] at hother
    split at hother
    · cases hother
    · rename_i hj
      have hmem := h.occupied j other hother
      rw [List.map_append, List.map_cons, List.mem_append, List.mem_cons] at hmem
      rw [List.map_append, List.mem_append]
      rcases hmem with hmem | rfl | hmem
      · exact .inl hmem
      · exact absurd rfl hj
      · exact .inr hmem
  · show (l.arena.remove i).2.size = _
    rw [Arena.remove_size hnode, show l.arena.size = _ from h.size]
    simp

/-- The nodes after one of them was changed, in any order of the slots. -/
theorem Spells.reorder (h : l.Spells (before ++ (i, node) :: after))
    {f : RecencyNode κ ν → RecencyNode κ ν} {order : LinkedOrder}
    (hperm : cells.Perm ((i, f node) :: (before ++ after)))
    (horder : order.Strung (cells.map (·.1))) :
    Spells ⟨l.arena.modify i f, order⟩ cells := by
  have hnode : l.arena.get? i = some node := h.get?_eq
  refine ⟨Arena.modify_sound h.arena i f, horder, fun cell hcell => ?_,
    fun j other hother => ?_, ?_⟩
  · show (l.arena.modify i f).get? cell.1 = _
    rw [Arena.modify_get?]
    rcases List.mem_cons.mp (hperm.mem_iff.mp hcell) with rfl | hcell
    · rw [if_pos rfl, hnode, Option.map_some]
    · rw [if_neg (h.ne_of_mem hcell)]
      exact h.node cell (List.perm_middle.mem_iff.mpr (List.mem_cons_of_mem _ hcell))
  · have hother : (l.arena.modify i f).get? j = some other := hother
    have hold : ∃ old, l.get? j = some old := by
      rw [Arena.modify_get?] at hother
      split at hother
      · rename_i hj
        exact ⟨node, hj ▸ hnode⟩
      · exact ⟨other, hother⟩
    obtain ⟨old, hold⟩ := hold
    have hmem := h.occupied j old hold
    rw [(hperm.map _).mem_iff]
    simpa [or_left_comm] using hmem
  · show l.arena.size = _
    rw [show l.arena.size = _ from h.size, hperm.length_eq, List.perm_middle.length_eq]
    rfl

/-- Promoting a node moves its cell to the front. -/
theorem Spells.promote (h : l.Spells (before ++ (i, node) :: after)) (stamp : Nat) (value : ν) :
    (l.promote i stamp value).Spells ((i, { node with stamp, value }) :: (before ++ after)) := by
  have horder := h.order
  rw [List.map_append, List.map_cons] at horder
  have hmoved := LinkedOrder.moveToFront_strung horder
  rw [RecencyList.promote, if_pos (by simp [h.get?_eq])]
  exact h.reorder (.refl _) (by simpa using hmoved)

/-! ## Repositioning -/

/-- Walking back over earlier stamps stops at the last cell that is not earlier. -/
theorem anchorFrom_eq (stamp : Nat) {fuel : Nat}
    (horder : l.order.Strung ((front ++ back).map (·.1)))
    (hnode : ∀ cell ∈ front, l.get? cell.1 = some cell.2) (hfuel : front.length ≤ fuel) :
    ∃ kept passed, front = kept ++ passed ∧ (∀ cell ∈ passed, cell.2.stamp < stamp) ∧
      (∀ cell ∈ kept.getLast?, stamp ≤ cell.2.stamp) ∧
      l.anchorFrom stamp fuel (front.map (·.1)).getLast? = (kept.map (·.1)).getLast? := by
  induction fuel generalizing front back with
  | zero =>
      obtain rfl : front = [] := by simpa using hfuel
      exact ⟨[], [], rfl, by simp, by simp, rfl⟩
  | succ fuel ih =>
      -- the walk goes from the back, so a step takes the last cell off
      rcases List.eq_nil_or_concat front with rfl | ⟨front, last, rfl⟩
      · exact ⟨[], [], rfl, by simp, by simp, rfl⟩
      · rw [List.concat_eq_append] at *
        have hlast := hnode last (by simp)
        by_cases hstamp : last.2.stamp < stamp
        · have hbefore := (horder.links (front.map (·.1)) last.1 (back.map (·.1)) (by simp)).2
          have hrest : l.order.Strung ((front ++ last :: back).map (·.1)) := by
            simpa using horder
          obtain ⟨kept, passed, rfl, hpassed, hkept, hwalk⟩ := ih hrest
            (fun cell hcell => hnode cell (List.mem_append_left _ hcell)) (by simpa using hfuel)
          refine ⟨kept, passed ++ [last], by simp, fun cell hcell => ?_, hkept, ?_⟩
          · rcases List.mem_append.mp hcell with hcell | hcell
            · exact hpassed cell hcell
            · rw [List.mem_singleton.mp hcell]
              exact hstamp
          · rw [← hwalk, ← hbefore]
            simp [anchorFrom, hlast, hstamp]
        · refine ⟨front ++ [last], [], by simp, by simp, ?_, ?_⟩
          · intro cell hcell
            obtain rfl : last = cell := by simpa using hcell
            omega
          · simp [anchorFrom, hlast, hstamp]

/-- Repositioning a node puts it behind the last cell whose stamp is not earlier. -/
theorem Spells.reposition (h : l.Spells (before ++ (i, node) :: after)) (stamp : Nat) :
    ∃ front back, before ++ after = front ++ back ∧ (∀ cell ∈ back, cell.2.stamp < stamp) ∧
      (∀ cell ∈ front.getLast?, stamp ≤ cell.2.stamp) ∧
      (l.reposition i stamp).Spells (front ++ (i, { node with stamp }) :: back) := by
  have horder := h.order
  rw [List.map_append, List.map_cons] at horder
  have hdetached := LinkedOrder.detach_strung horder
  rw [← List.map_append] at hdetached
  have hfree : i ∉ (before ++ after).map (·.1) := fun hmem => by
    obtain ⟨cell, hcell, heq⟩ := List.mem_map.mp hmem
    exact h.ne_of_mem hcell heq
  have hnodes : ∀ cell ∈ before ++ after,
      get? ⟨l.arena.modify i fun node => { node with stamp }, l.order.detach i⟩ cell.1 =
        some cell.2 := fun cell hcell => by
    show (l.arena.modify i _).get? cell.1 = _
    rw [Arena.modify_get?, if_neg (h.ne_of_mem hcell)]
    exact h.node cell (List.perm_middle.mem_iff.mpr (List.mem_cons_of_mem _ hcell))
  have hwhole : (l.order.detach i).Strung
      ((before ++ after ++ []).map fun cell : Cell κ ν => cell.1) := by
    simpa using hdetached
  have hfuel : (before ++ after).length ≤ l.arena.slots.size := by
    have hslots := h.length_le
    simp at hslots ⊢
    omega
  obtain ⟨front, back, hsplit, hpassed, hkept, hwalk⟩ :=
    anchorFrom_eq stamp hwhole hnodes hfuel
  refine ⟨front, back, hsplit, hpassed, hkept, ?_⟩
  have hperm : (front ++ (i, { node with stamp }) :: back).Perm
      ((i, { node with stamp }) :: (before ++ after)) := by
    rw [hsplit]
    exact List.perm_middle
  rw [hsplit, List.map_append] at hdetached hfree
  have hplaced := LinkedOrder.insertBehind_strung hdetached hfree
  have htail := hdetached.tail
  rw [← List.map_append, ← hsplit] at htail
  rw [RecencyList.reposition, if_pos (by simp [h.get?_eq])]
  dsimp only
  rw [htail, Arena.modify_slots_size, hwalk]
  cases hanchor : (front.map fun cell : Cell κ ν => cell.1).getLast? <;>
    rw [hanchor] at hplaced <;> exact h.reorder hperm (by simpa using hplaced)

end BoundedTables.RecencyList
