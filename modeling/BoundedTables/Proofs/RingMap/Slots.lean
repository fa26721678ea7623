import BoundedTables.Proofs.RingMap.Layout

/-!
# Filling and emptying the slots of a ring map

What the slot operations do to the cells of a laid out ring. Emptying a slot takes its cell out and
moves the oldest and the newest slot past the hole, filling the slot behind the newest entry puts a
cell behind all others, and packing the ring moves the cells to its first positions.
-/

namespace BoundedTables.RingMap

open Hashing Table

variable {κ ν : Type} {m m' : RingMap κ ν} {i n p q r : Nat} {node : RingNode κ ν}
variable {cells before after : List (Cell κ ν)}

/-! ## Emptying a slot -/

/-- Writing a slot of a ring changes that slot only. -/
theorem set_join {α : Type} (ring : Array (Option α)) (hi : i < ring.size) (x : Option α)
    (j : Nat) :
    ((ring.setIfInBounds i x)[j]?).join = if j = i then x else (ring[j]?).join := by
  by_cases hj : j = i
  · subst hj
    simp [hi]
  · simp [hj, Array.getElem?_setIfInBounds_ne (Ne.symm hj)]

/-- Vacating a slot takes its node out and no other. -/
theorem vacate_node? (m : RingMap κ ν) (hi : i < m.ring.size) (hash : UInt32) (j : Nat) :
    (m.vacate i hash).node? j = if j = i then none else m.node? j :=
  set_join m.ring hi none j

@[simp] theorem vacate_ring_size (m : RingMap κ ν) (i : Nat) (hash : UInt32) :
    (m.vacate i hash).ring.size = m.ring.size := by
  simp [vacate]

/-- Emptying a slot takes its cell out. -/
theorem vacate_placed (h : m.Placed (before ++ (p, node) :: after)) :
    (m.vacate (p % m.ring.size) node.hash).Placed (before ++ after) := by
  have hnode : m.node? (p % m.ring.size) = some node := h.node (p, node) (by simp)
  have hread := vacate_node? m (lt_size_of_node? hnode) node.hash
  refine ⟨?_, ?_, fun cell hcell => ?_, fun j other hother => ?_, ?_, ?_⟩
  · rw [vacate_ring_size]
    exact h.room
  · rw [vacate_ring_size]
    exact h.spaced.sublist ((List.sublist_cons_self (p, node) after).append_left before)
  · rw [vacate_ring_size, hread, if_neg (h.slot_ne hcell)]
    exact h.node cell (List.perm_middle.mem_iff.mpr (List.mem_cons_of_mem _ hcell))
  · rw [vacate_ring_size]
    rw [hread] at hother
    split at hother
    · cases hother
    · rename_i hj
      obtain ⟨cell, hcell, hslot⟩ := h.covered j other hother
      rcases List.mem_cons.mp (List.perm_middle.mem_iff.mp hcell) with rfl | hcell
      · exact absurd hslot.symm hj
      · exact ⟨cell, hcell, hslot⟩
  · show m.size - 1 = _
    rw [h.size]
    simp
  · refine (ChainIndex.unlink_partition h.index (i := p % m.ring.size) (by simp [hnode])).2.congr
      fun j => ?_
    rw [hread]
    split <;> rfl

/-- Tightening changes nothing but the oldest and the newest slot. -/
theorem tighten_eq (m : RingMap κ ν) (i : Nat) :
    ∃ head tail, m.tighten i = { m with head, tail } := by
  unfold tighten
  dsimp only
  split
  · exact ⟨_, _, rfl⟩
  · split
    · exact ⟨_, _, rfl⟩
    · split <;> exact ⟨_, _, rfl⟩

/-- Moving the oldest and the newest slot leaves the cells placed. -/
theorem Placed.tighten (h : m.Placed cells) (i : Nat) : (m.tighten i).Placed cells := by
  obtain ⟨head, tail, heq⟩ := tighten_eq m i
  rw [heq]
  exact ⟨h.room, h.spaced, h.node, h.covered, h.size, h.index⟩

/-- After the only cell was removed, both ends are at rest. -/
theorem tighten_only (h : m.Placed []) : (m.tighten i).Laid [] := by
  refine ⟨h.tighten i, ?_, ?_⟩ <;> simp [RingMap.tighten, h.size, slotOf]

/-- After the first cell was removed, the oldest slot moves forward to the next cell. -/
theorem tighten_first {cell : Cell κ ν} (h : m.Placed (cell :: after))
    (hi : p % m.ring.size = m.head)
    (htail : m.tail = slotOf m.ring.size (cell :: after).getLast?) (hlt : p < cell.1)
    (hclose : ∀ c ∈ cell :: after, c.1 < p + m.ring.size) :
    (m.tighten (p % m.ring.size)).Laid (cell :: after) := by
  have hfirst := h.first_le
  have hcell := hclose cell (by simp)
  have hseek : m.seekForward (m.ring.size - 1) (p + 1) = some (cell.1 % m.ring.size) := by
    refine seekForward_eq (by simp [h.node cell (by simp)]) hlt (by omega) fun q hq hqc => ?_
    refine h.vacant (fun c hc => ?_) fun c hc => ?_
    · have := hfirst c hc
      omega
    · have := hfirst c hc
      have := hclose c hc
      omega
  have hseek' : m.seekForward (m.ring.size - 1) (p % m.ring.size + 1) =
      some (cell.1 % m.ring.size) :=
    (seekForward_congr _ (Nat.mod_add_mod p _ 1)).trans hseek
  have heq : m.tighten (p % m.ring.size) = { m with head := cell.1 % m.ring.size } := by
    rw [hi] at hseek' ⊢
    simp [RingMap.tighten, h.size, hseek']
  refine ⟨h.tighten _, ?_, ?_⟩
  · rw [heq]
    rfl
  · rw [heq]
    exact htail

/-- After the last cell was removed, the newest slot moves backward to the one before it. -/
theorem tighten_last {cell : Cell κ ν} (h : m.Placed (before ++ [cell]))
    (hi : p % m.ring.size = m.tail) (hne : p % m.ring.size ≠ m.head)
    (hhead : m.head = slotOf m.ring.size (before ++ [cell]).head?) (hlt : cell.1 < p)
    (hclose : ∀ c ∈ before ++ [cell], p < c.1 + m.ring.size) :
    (m.tighten (p % m.ring.size)).Laid (before ++ [cell]) := by
  have hlast := h.le_last
  have hcell := hclose cell (by simp)
  have hseek : m.seekBackward (m.ring.size - 1) (p - 1) = some (cell.1 % m.ring.size) := by
    refine seekBackward_eq (by simp [h.node cell (by simp)]) (by omega) (by omega)
      fun q hq hqp => ?_
    refine h.vacant (fun c hc => ?_) fun c hc => ?_
    · have := hlast c hc
      omega
    · have := hlast c hc
      have := hclose c hc
      omega
  have hseek' : m.seekBackward (m.ring.size - 1) (p % m.ring.size + m.ring.size - 1) =
      some (cell.1 % m.ring.size) :=
    (seekBackward_congr _ (back_mod (by omega))).trans hseek
  have heq : m.tighten (p % m.ring.size) = { m with tail := cell.1 % m.ring.size } := by
    rw [hi] at hseek' hne ⊢
    simp [RingMap.tighten, h.size, hseek', hne]
  refine ⟨h.tighten _, ?_, ?_⟩
  · rw [heq]
    exact hhead
  · rw [heq]
    simp [slotOf]

/-- A slot that is neither the oldest nor the newest leaves both ends alone. -/
theorem tighten_inner (h : m.Laid cells) (hne : cells ≠ []) (hhead : i ≠ m.head)
    (htail : i ≠ m.tail) : (m.tighten i).Laid cells := by
  have heq : m.tighten i = m := by
    have hsize : cells.length ≠ 0 := fun hlen => hne (List.length_eq_zero_iff.mp hlen)
    simp [RingMap.tighten, h.size, hsize, hhead, htail]
  rw [heq]
  exact h

/-- Tightening after a cell was taken out puts both ends right. -/
theorem tighten_laid (p : Nat) (node : RingNode κ ν) (h : m.Placed (before ++ after))
    (hhead : m.head = slotOf m.ring.size (before ++ (p, node) :: after).head?)
    (htail : m.tail = slotOf m.ring.size (before ++ (p, node) :: after).getLast?)
    (hbefore : ∀ cell ∈ before, cell.1 < p ∧ p < cell.1 + m.ring.size)
    (hafter : ∀ cell ∈ after, p < cell.1 ∧ cell.1 < p + m.ring.size)
    (hslots : ∀ cell ∈ before ++ after, p % m.ring.size ≠ cell.1 % m.ring.size) :
    (m.tighten (p % m.ring.size)).Laid (before ++ after) := by
  -- which of the two ends was at the cell depends on whether cells are left before and after it
  rcases List.eq_nil_or_concat before with rfl | ⟨front, last, rfl⟩
  · cases after with
    | nil => exact tighten_only h
    | cons cell after =>
        exact tighten_first h hhead.symm (by simpa using htail) (hafter cell (by simp)).1
          fun c hc => (hafter c hc).2
  · rw [List.concat_eq_append] at *
    have hoff : p % m.ring.size ≠ m.head := by
      rw [hhead]
      cases front with
      | nil => exact hslots last (by simp)
      | cons first front => exact hslots first (by simp)
    have hhead' : m.head = slotOf m.ring.size (front ++ [last] ++ after).head? := by
      rw [hhead]
      cases front <;> rfl
    cases after with
    | nil =>
        rw [List.append_nil] at *
        refine tighten_last h ?_ hoff hhead' (hbefore last (by simp)).1
          fun c hc => (hbefore c hc).2
        rw [htail]
        simp [slotOf]
    | cons cell after =>
        rw [List.getLast?_append_cons, List.getLast?_cons_cons] at htail
        refine tighten_inner ⟨h, hhead', ?_⟩ (by simp) hoff ?_
        · rw [htail, List.getLast?_append_cons]
        · rw [htail]
          cases hget : (cell :: after).getLast? with
          | none => simp at hget
          | some c => exact hslots c (List.mem_append_right _ (List.mem_of_getLast? hget))

/-- Removing a cell moves the oldest and the newest slot inward where they were its own. -/
theorem removeAt_laid (h : m.Laid (before ++ (p, node) :: after)) :
    ∃ m', m.removeAt (p % m.ring.size) = (some node, m') ∧ m'.Laid (before ++ after) ∧
      m.SameSetup m' ∧ m'.ring.size = m.ring.size := by
  have hnode : m.node? (p % m.ring.size) = some node := h.node (p, node) (by simp)
  have hslots : ∀ cell ∈ before ++ after, p % m.ring.size ≠ cell.1 % m.ring.size :=
    fun cell hcell => (h.slot_ne hcell).symm
  obtain ⟨hbefore, hafter⟩ := h.around
  have hvacated := vacate_placed h.toPlaced
  have hsize := vacate_ring_size m (p % m.ring.size) node.hash
  refine ⟨(m.vacate (p % m.ring.size) node.hash).tighten (p % m.ring.size), ?_, ?_, ?_⟩
  · rw [removeAt, hnode]
  · have hlaid := tighten_laid p node hvacated
    rw [hsize] at hlaid
    exact hlaid h.head h.tail hbefore hafter hslots
  · obtain ⟨head, tail, htighten⟩ := tighten_eq (m.vacate (p % m.ring.size) node.hash)
      (p % m.ring.size)
    rw [htighten]
    exact ⟨⟨rfl, rfl, rfl, rfl⟩, hsize⟩

/-- The first cell is in the oldest slot. -/
theorem removeAt_head_laid (h : m.Laid ((p, node) :: after)) :
    ∃ m', m.removeAt m.head = (some node, m') ∧ m'.Laid after ∧ m.SameSetup m' ∧
      m'.ring.size = m.ring.size := by
  have hfront : m.Laid ([] ++ (p, node) :: after) := h
  have hhead : m.head = p % m.ring.size := h.head
  rw [hhead]
  exact removeAt_laid hfront

/-- Evicting removes the first cell and counts it. -/
theorem evictOldest_laid (h : m.Laid ((p, node) :: after)) : m.evictOldest.Laid after ∧
    { m with evictions := m.evictions + 1 }.SameSetup m.evictOldest ∧
      m.evictOldest.ring.size = m.ring.size := by
  obtain ⟨m', hremove, hlaid, hsetup, hring⟩ := removeAt_head_laid h
  have heq : m.evictOldest = { m' with
      evictions := m'.evictions + 1
      journal := m'.journal.log (.ringEvicted m.head node.stamp) } := by
    simp only [evictOldest, hremove]
  rw [heq]
  exact ⟨SameLayout.laid (m := m') ⟨rfl, rfl, rfl, rfl, rfl⟩ hlaid,
    ⟨hsetup.comparer, hsetup.mode, hsetup.clock, congrArg (· + 1) hsetup.evictions⟩, hring⟩

/-! ## Filling and changing slots -/

/-- The node that fills a slot. -/
def fresh (m : RingMap κ ν) (key : κ) (value : ν) (hash : UInt32) : RingNode κ ν :=
  ⟨key, value, hash, m.clock + 1⟩

/-- Filling a slot puts a fresh node there and changes no other. -/
theorem occupy_node? (m : RingMap κ ν) (hi : i < m.ring.size) (key : κ) (value : ν) (hash : UInt32)
    (j : Nat) : (m.occupy i key value hash).node? j =
      if j = i then some (m.fresh key value hash) else m.node? j :=
  set_join m.ring hi _ j

@[simp] theorem occupy_ring_size (m : RingMap κ ν) (i : Nat) (key : κ) (value : ν) (hash : UInt32) :
    (m.occupy i key value hash).ring.size = m.ring.size := by
  simp [occupy]

/-- A position behind all cells, within one turn of them, has an empty slot. -/
theorem Placed.vacant_behind (h : m.Placed cells)
    (hbehind : ∀ cell ∈ cells, cell.1 < p ∧ p < cell.1 + m.ring.size) :
    m.node? (p % m.ring.size) = none := by
  refine h.vacant (fun cell hcell => ?_) fun cell hcell => ?_
  · have := hbehind cell hcell
    omega
  · have := hbehind cell hcell
    omega

/-- A fresh node behind all others, within one turn of the ring, is placed after them. -/
theorem occupy_placed (h : m.Placed cells) (key : κ) (value : ν) (hash : UInt32)
    (hbehind : ∀ cell ∈ cells, cell.1 < p ∧ p < cell.1 + m.ring.size) :
    (m.occupy (p % m.ring.size) key value hash).Placed
      (cells ++ [(p, m.fresh key value hash)]) := by
  have hread := occupy_node? m (Nat.mod_lt p h.room) key value hash
  have hempty := h.vacant_behind hbehind
  refine ⟨?_, ?_, fun cell hcell => ?_, fun j node hnode => ?_, ?_, ?_⟩
  · rw [occupy_ring_size]
    exact h.room
  · rw [occupy_ring_size]
    refine List.pairwise_append.mpr ⟨h.spaced, List.pairwise_singleton .., ?_⟩
    intro cell hcell last hlast
    rw [List.mem_singleton.mp hlast]
    exact hbehind cell hcell
  · rw [occupy_ring_size, hread]
    rcases List.mem_append.mp hcell with hcell | hcell
    · rw [if_neg, h.node cell hcell]
      intro heq
      have hb := hbehind cell hcell
      have := mod_inj_of_close heq (by omega) hb.2
      omega
    · rw [List.mem_singleton.mp hcell, if_pos rfl]
  · rw [occupy_ring_size]
    rw [hread] at hnode
    split at hnode
    · rename_i hj
      exact ⟨(p, m.fresh key value hash), by simp, hj.symm⟩
    · obtain ⟨cell, hcell, hslot⟩ := h.covered j node hnode
      exact ⟨cell, List.mem_append_left _ hcell, hslot⟩
  · show m.size + 1 = _
    rw [h.size]
    simp
  · refine (ChainIndex.link_partition h.index (i := p % m.ring.size) (by simp [hempty])
      hash).congr fun j => ?_
    rw [hread]
    split <;> rfl

/-- A cell behind all others fills an empty slot. -/
theorem occupy_laid (h : m.Laid cells) (key : κ) (value : ν) (hash : UInt32)
    (hbehind : ∀ cell ∈ cells, cell.1 < p ∧ p < cell.1 + m.ring.size)
    (hfirst : cells = [] → m.head = p % m.ring.size) :
    (m.occupy (p % m.ring.size) key value hash).Laid
      (cells ++ [(p, m.fresh key value hash)]) := by
  refine ⟨occupy_placed h.toPlaced key value hash hbehind, ?_, ?_⟩
  · rw [occupy_ring_size]
    show m.head = _
    cases cells with
    | nil => exact hfirst rfl
    | cons first rest => exact h.head
  · rw [occupy_ring_size]
    show p % m.ring.size = _
    simp [slotOf]

/-- Change the node in a slot. -/
def change (m : RingMap κ ν) (i : Nat) (f : RingNode κ ν → RingNode κ ν) : RingMap κ ν :=
  { m with ring := m.ring.modify i (Option.map f) }

/-- Changing the node in a slot changes no other. -/
theorem change_node? (m : RingMap κ ν) (i : Nat) (f : RingNode κ ν → RingNode κ ν) (j : Nat) :
    (m.change i f).node? j = if j = i then (m.node? i).map f else m.node? j := by
  simp only [change, node?, Array.getElem?_modify]
  by_cases hj : j = i
  · subst hj
    simp only [↓reduceIte]
    rcases m.ring[j]? with _ | _ | node <;> rfl
  · simp [hj, Ne.symm hj]

@[simp] theorem change_ring_size (m : RingMap κ ν) (i : Nat) (f : RingNode κ ν → RingNode κ ν) :
    (m.change i f).ring.size = m.ring.size := by
  simp [change]

/-- A node that keeps its hash stays placed when it changes. -/
theorem change_placed (h : m.Placed (before ++ (p, node) :: after))
    {f : RingNode κ ν → RingNode κ ν} (hf : (f node).hash = node.hash) :
    (m.change (p % m.ring.size) f).Placed (before ++ (p, f node) :: after) := by
  have hnode : m.node? (p % m.ring.size) = some node := h.node (p, node) (by simp)
  have hread := change_node? m (p % m.ring.size) f
  rw [hnode, Option.map_some] at hread
  refine ⟨?_, ?_, fun cell hcell => ?_, fun j other hother => ?_, ?_, ?_⟩
  · rw [change_ring_size]
    exact h.room
  · rw [change_ring_size]
    -- the positions are the old ones, and only they matter
    have hspaced := h.spaced
    have hiff := fun l : List (Cell κ ν) => List.pairwise_map (f := fun cell : Cell κ ν => cell.1)
      (R := fun a b => a < b ∧ b < a + m.ring.size) (l := l)
    rw [← hiff] at hspaced ⊢
    simpa using hspaced
  · rw [change_ring_size, hread]
    rcases List.mem_cons.mp (List.perm_middle.mem_iff.mp hcell) with rfl | hcell
    · rw [if_pos rfl]
    · rw [if_neg (h.slot_ne hcell)]
      exact h.node cell (List.perm_middle.mem_iff.mpr (List.mem_cons_of_mem _ hcell))
  · rw [change_ring_size]
    have hold : ∃ old, m.node? j = some old := by
      rw [hread] at hother
      split at hother
      · rename_i hj
        exact ⟨node, hj ▸ hnode⟩
      · exact ⟨other, hother⟩
    obtain ⟨old, hold⟩ := hold
    obtain ⟨cell, hcell, hslot⟩ := h.covered j old hold
    rcases List.mem_cons.mp (List.perm_middle.mem_iff.mp hcell) with rfl | hcell
    · exact ⟨(p, f node), by simp, hslot⟩
    · exact ⟨cell, List.perm_middle.mem_iff.mpr (List.mem_cons_of_mem _ hcell), hslot⟩
  · show m.size = _
    rw [h.size]
    simp
  · refine h.index.congr fun j => ?_
    rw [hread]
    split
    · rename_i hj
      rw [hj, hnode, Option.map_some, Option.map_some, hf]
    · rfl

/-- Changing a node without its hash changes its cell. -/
theorem change_laid (h : m.Laid (before ++ (p, node) :: after)) {f : RingNode κ ν → RingNode κ ν}
    (hf : (f node).hash = node.hash) :
    (m.change (p % m.ring.size) f).Laid (before ++ (p, f node) :: after) := by
  refine ⟨change_placed h.toPlaced hf, ?_, ?_⟩
  · rw [change_ring_size]
    show m.head = _
    rw [h.head]
    cases before <;> rfl
  · rw [change_ring_size]
    show m.tail = _
    rw [h.tail]
    cases after <;> simp [slotOf]

/-! ## Packing the ring -/

/-- Nodes at the first positions. -/
def packed (nodes : List (RingNode κ ν)) : List (Cell κ ν) :=
  nodes.zipIdx.map fun (node, i) => (i, node)

@[simp] theorem packed_nodes (nodes : List (RingNode κ ν)) : (packed nodes).map (·.2) = nodes := by
  simp [packed, Function.comp_def]

@[simp] theorem packed_length (nodes : List (RingNode κ ν)) :
    (packed nodes).length = nodes.length := by
  simp [packed]

/-- A packed cell is a node with its index. -/
theorem mem_packed {nodes : List (RingNode κ ν)} {cell : Cell κ ν} :
    cell ∈ packed nodes ↔ nodes[cell.1]? = some cell.2 := by
  obtain ⟨i, node⟩ := cell
  rw [← List.mk_mem_zipIdx_iff_getElem?]
  simp [packed]

/-- A packed cell lies within the number of nodes. -/
theorem lt_of_mem_packed {nodes : List (RingNode κ ν)} {cell : Cell κ ν} (h : cell ∈ packed nodes) :
    cell.1 < nodes.length :=
  (List.getElem?_eq_some_iff.mp (mem_packed.mp h)).1

/-- Packed cells lie at ascending positions. -/
theorem packed_ascending (nodes : List (RingNode κ ν)) :
    (packed nodes).Pairwise fun a b => a.1 < b.1 := by
  rw [List.pairwise_iff_getElem]
  intro i j hi hj hij
  simpa [packed] using hij

/-- Repacking puts each node at its index by age. -/
theorem repack_node? (m : RingMap κ ν) (capacity i : Nat) :
    (m.repack capacity).node? i = m.nodesByAge[i]? := by
  simp only [repack, node?, Array.getElem?_append, List.size_toArray, List.length_map,
    List.getElem?_toArray, List.getElem?_map, Array.getElem?_replicate]
  split
  · cases m.nodesByAge[i]? <;> rfl
  · rename_i hi
    rw [List.getElem?_eq_none (Nat.le_of_not_lt hi)]
    split <;> rfl

/-- Repacking gives the ring the length asked for, if the nodes fit into it. -/
theorem repack_ring_size (m : RingMap κ ν) {capacity : Nat}
    (hcapacity : m.nodesByAge.length ≤ capacity) : (m.repack capacity).ring.size = capacity := by
  simp only [repack, Array.size_append, List.size_toArray, List.length_map, Array.size_replicate]
  omega

/-- The index that packing builds holds the packed nodes. -/
theorem repack_index (m : RingMap κ ν) (capacity : Nat) :
    (m.repack capacity).index.Partition fun i => ((m.repack capacity).node? i).map (·.hash) := by
  refine ChainIndex.ofSlots_partition _ ?_ fun i hash => ?_
  · rw [List.map_map]
    exact (List.nodup_range' ..).perm (by rw [← List.zipIdx_map_snd]; exact List.Perm.refl _)
  · rw [repack_node?]
    simp only [List.mem_map, Prod.mk.injEq, Prod.exists, List.mk_mem_zipIdx_iff_getElem?,
      Option.map_eq_some_iff]
    exact ⟨fun ⟨other, j, hj, hji, hhash⟩ => ⟨other, hji ▸ hj, hhash⟩,
      fun ⟨other, hother, hhash⟩ => ⟨other, i, hother, rfl, hhash⟩⟩

/-- Repacking places the nodes at the first positions. -/
theorem repack_placed (h : m.Laid cells) {capacity : Nat} (hroom : 0 < capacity)
    (hcapacity : cells.length ≤ capacity) :
    (m.repack capacity).Placed (packed (cells.map (·.2))) := by
  have hnodes := h.nodesByAge_eq
  have hread := repack_node? m capacity
  rw [hnodes] at hread
  have hsize : (m.repack capacity).ring.size = capacity :=
    repack_ring_size m (by rw [hnodes, List.length_map]; exact hcapacity)
  have hlt : ∀ cell ∈ packed (cells.map (·.2)), cell.1 < capacity := fun cell hcell =>
    Nat.lt_of_lt_of_le (lt_of_mem_packed hcell) (by rw [List.length_map]; exact hcapacity)
  refine ⟨?_, ?_, fun cell hcell => ?_, fun j node hnode => ?_, ?_, repack_index m capacity⟩
  · rw [hsize]
    exact hroom
  · rw [hsize]
    refine (packed_ascending _).imp_of_mem fun {a b} _ hb hab => ⟨hab, ?_⟩
    have := hlt b hb
    omega
  · rw [hsize, hread, Nat.mod_eq_of_lt (hlt cell hcell)]
    exact mem_packed.mp hcell
  · rw [hsize]
    rw [hread] at hnode
    have hcell : (j, node) ∈ packed (cells.map (·.2)) := mem_packed.mpr hnode
    exact ⟨(j, node), hcell, Nat.mod_eq_of_lt (hlt _ hcell)⟩
  · rw [packed_length, List.length_map]
    exact h.size

/-- Packing moves the nodes to the first positions of a ring that holds them. -/
theorem repack_laid (h : m.Laid cells) {capacity : Nat} (hroom : 0 < capacity)
    (hcapacity : cells.length ≤ capacity) :
    (m.repack capacity).Laid (packed (cells.map (·.2))) ∧ m.SameSetup (m.repack capacity) ∧
      (m.repack capacity).ring.size = capacity := by
  have hnodes := h.nodesByAge_eq
  have hsize : (m.repack capacity).ring.size = capacity :=
    repack_ring_size m (by rw [hnodes, List.length_map]; exact hcapacity)
  refine ⟨⟨repack_placed h hroom hcapacity, ?_, ?_⟩, ⟨rfl, rfl, rfl, rfl⟩, hsize⟩
  · rw [hsize]
    show 0 = _
    cases cells with
    | nil => rfl
    | cons first rest => simp [packed, slotOf]
  · rw [hsize]
    show m.nodesByAge.length - 1 = _
    rw [hnodes]
    rcases List.eq_nil_or_concat cells with rfl | ⟨init, last, rfl⟩
    · rfl
    · have hinit : init.length < capacity := by
        rw [List.concat_eq_append, List.length_append, List.length_singleton] at hcapacity
        omega
      simp [packed, List.zipIdx_append, slotOf, Nat.mod_eq_of_lt hinit]

/-- Growing packs the entries into a ring of twice the size. -/
theorem grow_laid (h : m.Laid cells) (hfits : 2 * m.ring.size ≤ Binary64.maxWord) :
    ∃ m', m.grow = .ok m' ∧ m'.Laid (packed (cells.map (·.2))) ∧ m.SameSetup m' ∧
      m'.ring.size = 2 * m.ring.size := by
  have hroom : 0 < 2 * m.ring.size := Nat.mul_pos Nat.two_pos h.room
  have hle : cells.length ≤ 2 * m.ring.size := by
    have := h.length_le
    omega
  obtain ⟨hlaid, hsetup, hring⟩ := repack_laid h hroom hle
  refine ⟨{ m.repack (2 * m.ring.size) with
      journal := (m.repack (2 * m.ring.size)).journal.log
        (.ringGrown m.ring.size (2 * m.ring.size)) }, by simp [grow, hfits], ?_, ?_, hring⟩
  · exact SameLayout.laid (m := m.repack _) ⟨rfl, rfl, rfl, rfl, rfl⟩ hlaid
  · exact ⟨hsetup.comparer, hsetup.mode, hsetup.clock, hsetup.evictions⟩

/-- Room is there already, or is made by evicting from a full fixed ring or by growing a full
dynamic one, unless that is too long to double. -/
theorem Laid.reserveOne_cases (h : m.Laid cells) :
    (cells.length < m.ring.size ∧ m.reserveOne = (.ok (), m)) ∨
    ¬ cells.length < m.ring.size ∧
      ((m.mode = .fixed ∧ m.reserveOne = (.ok (), m.evictOldest) ∧
          ∃ cell rest, cells = cell :: rest) ∨
        (m.mode = .dynamic ∧ 2 * m.ring.size ≤ Binary64.maxWord ∧
          ∃ m', m.grow = .ok m' ∧ m.reserveOne = (.ok (), m')) ∨
        m.mode = .dynamic ∧ ¬ 2 * m.ring.size ≤ Binary64.maxWord ∧
          m.reserveOne = (.error (.capacityExhausted m.ring.size), m)) := by
  have hroom := h.room
  have hle := h.length_le
  have hsize := h.size
  by_cases hfree : cells.length < m.ring.size
  · have hne : m.size ≠ m.ring.size := by omega
    exact .inl ⟨hfree, if_neg hne⟩
  · have hfull : m.size = m.ring.size := by omega
    refine .inr ⟨hfree, ?_⟩
    cases hmode : m.mode with
    | fixed =>
        refine .inl ⟨rfl, by simp [reserveOne, hfull, hmode], ?_⟩
        cases cells with
        | nil => exact absurd hroom hfree -- a ring has a slot, so a full one has an entry
        | cons cell rest => exact ⟨cell, rest, rfl⟩
    | dynamic =>
        by_cases hfits : 2 * m.ring.size ≤ Binary64.maxWord
        · obtain ⟨m', hgrow, -⟩ := grow_laid h hfits
          exact .inr (.inl ⟨rfl, hfits, m', hgrow, by simp [reserveOne, hfull, hmode, hgrow]⟩)
        · exact .inr (.inr ⟨rfl, hfits, by simp [reserveOne, hfull, hmode, grow, hfits]⟩)

/-! ## Claiming a slot -/

/-- The position after the newest entry is within one turn of every cell, unless its slot is the
oldest one. -/
theorem Laid.behind_last {last : Cell κ ν} (h : m.Laid (before ++ [last]))
    (hwrap : (last.1 + 1) % m.ring.size ≠ m.head) :
    ∀ cell ∈ before ++ [last], cell.1 < last.1 + 1 ∧ last.1 + 1 < cell.1 + m.ring.size := by
  intro cell hcell
  refine ⟨Nat.lt_succ_of_le (h.le_last cell hcell), ?_⟩
  obtain ⟨first, hfirst⟩ : ∃ first, (before ++ [last]).head? = some first := by
    cases before <;> simp
  obtain ⟨rest, hrest⟩ := List.head?_eq_some_iff.mp hfirst
  have hge : first.1 ≤ cell.1 := by
    have hplaced := h.toPlaced
    rw [hrest] at hplaced hcell
    exact hplaced.first_le cell hcell
  have hspan : last.1 < first.1 + m.ring.size := h.close (by simp) (by rw [hrest]; simp)
  -- a whole turn ahead of the first cell would be the oldest slot
  by_contra hturn
  have heq : last.1 + 1 = first.1 + m.ring.size := by omega
  apply hwrap
  rw [heq, Nat.add_mod_right, h.head, hfirst]
  rfl

/-- A ring with room has a slot for a new entry behind all others, packing it if need be. -/
theorem claimSlot_laid (h : m.Laid cells) (hfree : cells.length < m.ring.size) :
    ∃ p m' cells', m.claimSlot = .ok (p % m.ring.size, m') ∧ m'.Laid cells' ∧ m.SameSetup m' ∧
      m'.ring.size = m.ring.size ∧ cells'.map (·.2) = cells.map (·.2) ∧
      (∀ cell ∈ cells', cell.1 < p ∧ p < cell.1 + m.ring.size) ∧
      (cells' = [] → m'.head = p % m.ring.size) := by
  have hnotFull : ¬ m.ring.size ≤ m.size := by
    rw [h.size]
    omega
  rcases List.eq_nil_or_concat cells with rfl | ⟨init, last, rfl⟩
  · have hsize : m.size = 0 := h.size
    refine ⟨0, { m with head := 0 }, [], ?_, ⟨⟨h.room, h.spaced, h.node, h.covered, h.size,
      h.index⟩, rfl, h.tail⟩, ⟨rfl, rfl, rfl, rfl⟩, rfl, rfl, by simp, fun _ => by simp⟩
    simp [claimSlot, hsize]
  · rw [List.concat_eq_append] at *
    have hsize : m.size ≠ 0 := by
      rw [h.size]
      simp
    have htail : (m.tail + 1) % m.ring.size = (last.1 + 1) % m.ring.size := by
      rw [h.tail]
      simp [slotOf]
    by_cases hwrap : (last.1 + 1) % m.ring.size = m.head
    · -- the newest entry stands right before the oldest one, so the free slots are holes inside
      obtain ⟨hlaid, hsetup, hring⟩ := repack_laid h h.room (Nat.le_of_lt hfree)
      refine ⟨m.size, m.repack m.ring.size, _, ?_, hlaid, hsetup, hring, packed_nodes _,
        fun cell hcell => ?_, fun hnil => ?_⟩
      · rw [Nat.mod_eq_of_lt (by omega)]
        simp [claimSlot, hsize, hnotFull, htail, hwrap]
      · have := lt_of_mem_packed hcell
        rw [List.length_map] at this
        rw [h.size]
        omega
      · have := congrArg List.length hnil
        simp at this
    · refine ⟨last.1 + 1, m, _, ?_, h, ⟨rfl, rfl, rfl, rfl⟩, rfl, rfl, h.behind_last hwrap,
        fun hnil => by simp at hnil⟩
      simp [claimSlot, hsize, hnotFull, htail, hwrap]

/-- A ring without entries. -/
theorem empty_laid (hroom : 0 < m.ring.size) (hnode : ∀ i, m.node? i = none) (hsize : m.size = 0)
    (hindex : m.index.Partition fun _ => none) (hhead : m.head = 0) (htail : m.tail = 0) :
    m.Laid [] where
  room := hroom
  spaced := List.Pairwise.nil
  node _ hcell := absurd hcell List.not_mem_nil
  covered i node hi := by
    rw [hnode] at hi
    cases hi
  size := hsize
  index := hindex.congr fun i => by simp [hnode]
  head := hhead
  tail := htail

/-- Clearing empties the ring and keeps its size. -/
theorem clear_laid (h : 0 < m.ring.size) : m.clear.Laid [] := by
  have hring : m.clear.ring.size = m.ring.size := by simp [clear]
  refine empty_laid (hring ▸ h) (fun i => ?_) rfl (ChainIndex.clear_partition m.index) rfl rfl
  simp only [clear, node?, Array.getElem?_replicate]
  split <;> rfl

end BoundedTables.RingMap
