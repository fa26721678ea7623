import BoundedTables.Table.LinkedTable
import BoundedTables.Proofs.Ends
import BoundedTables.Proofs.EntryList
import BoundedTables.Proofs.Hashing.Policy
import BoundedTables.Proofs.Table.Arena
import BoundedTables.Proofs.Table.ChainIndex
import BoundedTables.Proofs.Table.Options

/-!
# Linked tables as lists of entries

`Linked t slots` says that the order of a linked table strings up exactly its occupied slots, and
that the index has exactly these in its chains; every operation keeps it, whatever the comparer.
`Spells t cells` adds what is in the slots: a cell is a slot with its entry, and the cells from
front to back are the contents of the table. Every operation acts on this list in the obvious way,
and a lookup splits it at the key. `Spells.toList_eq` and `Spells.toListBack_eq` read it off.
-/

namespace BoundedTables.Table.LinkedTable

open Hashing

variable {κ ν : Type} {t t' : LinkedTable κ ν} {slots front back : List Nat} {i : Nat}
  {node : LinkedNode κ ν} {key : κ} {value : ν} {hash : UInt32}

/-- The order and the index of a table both hold exactly its occupied slots. -/
structure Linked (t : LinkedTable κ ν) (slots : List Nat) : Prop where
  arena : t.arena.Sound
  order : t.order.Strung slots
  index : t.index.Partition fun i => (t.arena.get? i).map (·.hash)
  occupied : ∀ i, i ∈ slots ↔ (t.arena.get? i).isSome
  size : t.arena.size = slots.length

/-- Every node stands under the hash of its key. -/
def Hashed (t : LinkedTable κ ν) : Prop :=
  ∀ i node, t.arena.get? i = some node → node.hash = t.hasher.hash node.key

/-- The largest number of entries, if there is one. -/
def limit? (t : LinkedTable κ ν) : Option Nat := t.mode.limit? t.capacity

/-- A table is full when its entries have reached the limit. -/
theorem isFull_eq (t : LinkedTable κ ν) : t.isFull = t.limit?.any (· ≤ t.arena.size) :=
  CapacityMode.isFull_eq ..

/-- Two tables that were set up alike and evicted as much. -/
structure SameSetup (t t' : LinkedTable κ ν) : Prop where
  comparer : t'.hasher.comparer = t.hasher.comparer
  mode : t'.mode = t.mode
  capacity : t'.capacity = t.capacity
  evictions : t'.evictions = t.evictions

/-- Two tables whose contents cannot be told apart. -/
structure SameContents (t t' : LinkedTable κ ν) : Prop extends SameSetup t t' where
  arena : t'.arena = t.arena
  index : t'.index = t.index
  order : t'.order = t.order

/-- Tables that were set up alike have the same limit. -/
theorem SameSetup.limit?_eq (h : t.SameSetup t') : t'.limit? = t.limit? := by
  rw [limit?, h.mode, h.capacity, limit?]

/-- Recording a lookup keeps the contents. -/
theorem record_sameContents (t : LinkedTable κ ν) (visited : Nat) :
    t.SameContents (t.record visited) :=
  ⟨⟨KeyHasher.record_comparer .., rfl, rfl, rfl⟩, rfl, rfl, rfl⟩

/-- A search keeps the contents. -/
theorem find_sameContents (t : LinkedTable κ ν) (key : κ) (hash : UInt32) :
    t.SameContents (t.find key hash).2 :=
  record_sameContents ..

/-- Moving the version on keeps the contents. -/
theorem touch_sameContents (t : LinkedTable κ ν) : t.SameContents t.touch :=
  ⟨⟨rfl, rfl, rfl, rfl⟩, rfl, rfl, rfl⟩

/-- A table with the same contents links the same slots. -/
theorem SameContents.linked (hs : t.SameContents t') (h : t.Linked slots) :
    t'.Linked slots where
  arena := hs.arena ▸ h.arena
  order := hs.order ▸ h.order
  index := by rw [hs.arena, hs.index]; exact h.index
  occupied := by rw [hs.arena]; exact h.occupied
  size := by rw [hs.arena]; exact h.size

/-- A table with the same contents has its nodes under their hashes, too. -/
theorem SameContents.hashed (hs : t.SameContents t') (h : t.Hashed) :
    t'.Hashed := by
  unfold Hashed KeyHasher.hash at *
  rw [hs.arena, hs.comparer]
  exact h

/-! ## Changing the contents -/

/-- A table with an empty arena, index and order links no slots. -/
theorem empty_linked (h : t.arena = .empty) (hindex : t.index.Partition fun _ => none)
    (horder : t.order = .empty) : t.Linked [] where
  arena := h ▸ Arena.empty_sound
  order := horder ▸ LinkedOrder.empty_strung
  index := hindex.congr fun i => by simp [h]
  occupied := by simp [h]
  size := by simp [h, Arena.empty]

/-- Growing the index changes nothing else. -/
theorem growIndex_eq (t : LinkedTable κ ν) :
    ∃ index journal, t.growIndex = { t with index, journal } := by
  unfold growIndex
  dsimp only
  split
  · exact ⟨_, _, rfl⟩
  · split <;> exact ⟨_, _, rfl⟩

/-- Growing the index keeps the same slots linked. -/
theorem growIndex_linked (h : t.Linked slots) : t.growIndex.Linked slots := by
  have hbuilt (count : Nat) : (ChainIndex.ofSlots count t.hashedSlots).Partition
      fun i => (t.arena.get? i).map (·.hash) := by
    refine ChainIndex.ofSlots_partition count ?_ fun i hash => ?_
    · have hfst : t.hashedSlots.map Prod.fst = t.arena.occupied.map Prod.fst := by
        simp [hashedSlots]
      exact hfst ▸ Arena.occupied_nodup t.arena
    · simp only [hashedSlots, List.mem_map, Prod.mk.injEq, Prod.exists, Arena.mem_occupied_iff]
      simp [Option.map_eq_some_iff]
  unfold growIndex
  dsimp only
  split
  · exact h
  · split
    · exact h
    · exact ⟨h.arena, h.order, hbuilt _, h.occupied, h.size⟩

/-- The slot that the next entry takes. -/
def vacant (t : LinkedTable κ ν) (node : LinkedNode κ ν) : Nat := (t.arena.insert node).1

/-- A table with one more entry, before its index is checked for growth. -/
def attached (t : LinkedTable κ ν) (node : LinkedNode κ ν) (side : End) : LinkedTable κ ν :=
  touch { t with
    arena := (t.arena.insert node).2
    index := t.index.link node.hash (t.vacant node)
    order := match side with
      | .front => t.order.pushFront (t.vacant node)
      | .back => t.order.pushBack (t.vacant node) }

/-- Attaching an entry links it, and then checks the index for growth. -/
theorem attach_eq (t : LinkedTable κ ν) (key : κ) (value : ν) (hash : UInt32) (side : End) :
    t.attach key value hash side = growIndex (t.attached ⟨key, value, hash⟩ side) := rfl

/-- The slot that the next entry takes is not linked yet. -/
theorem Linked.vacant_not_mem (h : t.Linked slots) (node : LinkedNode κ ν) :
    t.vacant node ∉ slots := fun hmem => by
  have := (h.occupied _).mp hmem
  rw [vacant, Arena.insert_vacant h.arena node] at this
  cases this

/-- An entry links its slot at the end it goes to. -/
theorem attached_linked (h : t.Linked slots) (node : LinkedNode κ ν) (side : End) :
    (t.attached node side).Linked (side.place (t.vacant node) slots) := by
  have hvacant := Arena.insert_vacant h.arena node
  have hread := Arena.insert_get? h.arena node
  refine ⟨Arena.insert_sound h.arena node, ?_, ?_, fun j => ?_, ?_⟩
  · cases side
    · exact LinkedOrder.pushFront_strung h.order (h.vacant_not_mem node)
    · exact LinkedOrder.pushBack_strung h.order (h.vacant_not_mem node)
  · refine (ChainIndex.link_partition h.index (by simp [vacant, hvacant]) node.hash).congr
      fun j => ?_
    show ((t.arena.insert node).2.get? j).map (·.hash) = _
    rw [hread j]
    split <;> simp_all [vacant]
  · show _ ↔ ((t.arena.insert node).2.get? j).isSome
    rw [(side.place_perm _ slots).mem_iff, hread j, List.mem_cons, h.occupied j]
    by_cases hj : j = t.vacant node
    · simp [hj, vacant]
    · have hj' : j ≠ (t.arena.insert node).1 := hj
      simp [hj, hj']
  · show (t.arena.insert node).2.size = _
    rw [Arena.insert_size, h.size, (side.place_perm _ slots).length_eq, List.length_cons]

/-- Attaching an entry puts its slot at the chosen end. -/
theorem attach_linked (h : t.Linked slots) (key : κ) (value : ν) (hash : UInt32) (side : End) :
    (t.attach key value hash side).Linked (side.place (t.vacant ⟨key, value, hash⟩) slots) :=
  growIndex_linked (attached_linked h _ side)

/-- An attached entry takes its slot and changes no other. -/
theorem attach_get? (h : t.Linked slots) (key : κ) (value : ν) (hash : UInt32) (side : End)
    (j : Nat) : (t.attach key value hash side).arena.get? j =
      if j = t.vacant ⟨key, value, hash⟩ then some ⟨key, value, hash⟩ else t.arena.get? j := by
  obtain ⟨index, journal, heq⟩ := growIndex_eq (t.attached ⟨key, value, hash⟩ side)
  rw [attach_eq, heq]
  exact Arena.insert_get? h.arena _ j

/-- Attaching an entry keeps the setup and the evictions. -/
theorem attach_sameSetup (t : LinkedTable κ ν) (key : κ) (value : ν) (hash : UInt32)
    (side : End) : t.SameSetup (t.attach key value hash side) := by
  obtain ⟨index, journal, heq⟩ := growIndex_eq (t.attached ⟨key, value, hash⟩ side)
  rw [attach_eq, heq]
  exact ⟨rfl, rfl, rfl, rfl⟩

/-- Detaching a slot frees it and takes it out of the list. -/
theorem detach_linked (h : t.Linked (front ++ i :: back)) (hnode : t.arena.get? i = some node) :
    (t.detach i).1 = some node ∧ (t.detach i).2.Linked (front ++ back) ∧
      ∀ j, (t.detach i).2.arena.get? j = if j = i then none else t.arena.get? j := by
  have hread := Arena.remove_get? hnode
  have heq : t.detach i = (some node, touch { t with
      arena := (t.arena.remove i).2
      index := (t.index.unlink node.hash i).2
      order := t.order.detach i }) := by
    unfold detach
    rw [hnode]
  rw [heq]
  refine ⟨rfl, ⟨Arena.remove_sound h.arena hnode, LinkedOrder.detach_strung h.order, ?_,
    fun j => ?_, ?_⟩, hread⟩
  · refine (ChainIndex.unlink_partition h.index (i := i) (by simp [hnode])).2.congr fun j => ?_
    show ((t.arena.remove i).2.get? j).map (·.hash) = _
    rw [hread j]
    split <;> rfl
  · show _ ↔ ((t.arena.remove i).2.get? j).isSome
    have hmem := h.occupied j
    have hi := (List.nodup_cons.mp (List.perm_middle.nodup_iff.mp h.order.nodup)).1
    rw [hread j]
    by_cases hj : j = i
    · subst hj
      simpa using hi
    · simpa [hj] using hmem
  · show (t.arena.remove i).2.size = _
    rw [Arena.remove_size hnode, h.size]
    simp

/-- Detaching an entry keeps the setup and the evictions. -/
theorem detach_sameSetup (t : LinkedTable κ ν) (i : Nat) : t.SameSetup (t.detach i).2 := by
  unfold detach
  split <;> exact ⟨rfl, rfl, rfl, rfl⟩

/-- Moving a slot to an end leaves its node alone. -/
theorem moveTo_linked (h : t.Linked (front ++ i :: back)) (side : End) :
    (t.moveTo i side).Linked (side.place i (front ++ back)) := by
  have hperm : (side.place i (front ++ back)).Perm (front ++ i :: back) :=
    (side.place_perm i _).trans List.perm_middle.symm
  refine ⟨h.arena, ?_, h.index, fun j => ?_, ?_⟩
  · cases side
    · exact LinkedOrder.moveToFront_strung h.order
    · exact LinkedOrder.moveToBack_strung h.order
  · rw [hperm.mem_iff]
    exact h.occupied j
  · rw [hperm.length_eq]
    exact h.size

/-- Moving an entry keeps the setup and the evictions. -/
theorem moveTo_sameSetup (t : LinkedTable κ ν) (i : Nat) (side : End) :
    t.SameSetup (t.moveTo i side) :=
  ⟨rfl, rfl, rfl, rfl⟩

/-- Changing a value leaves the structure alone. -/
theorem modifyValue_linked (h : t.Linked slots) (i : Nat) (f : ν → ν) :
    (t.modifyValue i f).Linked slots where
  arena := Arena.modify_sound h.arena ..
  order := h.order
  index := h.index.congr fun j => by
    rw [modifyValue, Arena.modify_get?]
    split
    · rename_i hj
      subst hj
      cases t.arena.get? j <;> rfl
    · rfl
  occupied j := by
    rw [h.occupied j, modifyValue, Arena.modify_get?]
    split
    · rename_i hj
      subst hj
      cases t.arena.get? j <;> rfl
    · rfl
  size := h.size

/-- Modifying a value keeps the setup and the evictions. -/
theorem modifyValue_sameSetup (t : LinkedTable κ ν) (i : Nat) (f : ν → ν) :
    t.SameSetup (t.modifyValue i f) :=
  ⟨rfl, rfl, rfl, rfl⟩

/-- Modifying the value in a slot changes no other slot. -/
theorem modifyValue_get? (hnode : t.arena.get? i = some node) (f : ν → ν) (j : Nat) :
    (t.modifyValue i f).arena.get? j =
      if j = i then some { node with value := f node.value } else t.arena.get? j := by
  rw [modifyValue, Arena.modify_get?, hnode]
  rfl

/-- A cleared table keeps its setup and its evictions. -/
theorem clear_sameSetup (t : LinkedTable κ ν) : t.SameSetup t.clear := ⟨rfl, rfl, rfl, rfl⟩

/-! ## What is in the slots -/

/-- A slot with its entry. -/
abbrev Cell (κ ν : Type) : Type := Nat × (κ × ν)

/-- The cells from front to back are the contents of the table, each under the hash of its key. -/
structure Spells (t : LinkedTable κ ν) (cells : List (Cell κ ν)) : Prop where
  linked : t.Linked (cells.map (·.1))
  hashed : t.Hashed
  entry : ∀ cell ∈ cells, t.entry? cell.1 = some cell.2

variable {cells before after : List (Cell κ ν)} {e : κ × ν}

/-- A table with the same contents spells the same cells. -/
theorem SameContents.spells (hs : t.SameContents t') (h : t.Spells cells) : t'.Spells cells where
  linked := hs.linked h.linked
  hashed := hs.hashed h.hashed
  entry cell hcell := by
    rw [ entry?, hs.arena]
    exact h.entry cell hcell

/-- A table has as many entries as cells. -/
theorem Spells.size_eq (h : t.Spells cells) : t.arena.size = cells.length := by
  rw [h.linked.size, List.length_map]

/-- The node behind a cell. -/
theorem Spells.exists_node (h : t.Spells (before ++ (i, e) :: after)) :
    ∃ node, t.arena.get? i = some node ∧ e = (node.key, node.value) := by
  obtain ⟨node, hnode, he⟩ := Option.map_eq_some_iff.mp (h.entry (i, e) (by simp))
  exact ⟨node, hnode, he.symm⟩

/-- An occupied slot is that of a cell. -/
theorem Spells.exists_cell (h : t.Spells cells) (hnode : t.arena.get? i = some node) :
    ∃ (before : List (Cell κ ν)) (after : List (Cell κ ν)),
      cells = before ++ (i, (node.key, node.value)) :: after := by
  have hoccupied : (t.arena.get? i).isSome := by rw [hnode]; rfl
  obtain ⟨⟨i, e⟩, hcell, rfl⟩ := List.mem_map.mp ((h.linked.occupied i).mpr hoccupied)
  have hentry := h.entry (i, e) hcell
  rw [ entry?, hnode, Option.map_some, Option.some.injEq] at hentry
  rw [hentry]
  exact List.append_of_mem hcell

/-- A cell of the rest stands in another slot. -/
theorem Spells.ne_of_mem (h : t.Spells (before ++ (i, e) :: after)) {cell : Cell κ ν}
    (hcell : cell ∈ before ++ after) : cell.1 ≠ i := by
  have hnodup := h.linked.order.nodup
  rw [List.map_append, List.map_cons, List.perm_middle.nodup_iff, ← List.map_append] at hnodup
  intro heq
  exact (List.nodup_cons.mp hnodup).1 (List.mem_map.mpr ⟨cell, hcell, heq⟩)

/-- A table with an empty arena, index and order spells no cells. -/
theorem empty_spells (h : t.arena = .empty) (hindex : t.index.Partition fun _ => none)
    (horder : t.order = .empty) : t.Spells [] where
  linked := empty_linked h hindex horder
  hashed i node hnode := by
    rw [h, Arena.empty_get?] at hnode
    cases hnode
  entry cell hcell := absurd hcell List.not_mem_nil

/-- Attaching an entry adds its cell at the chosen end. -/
theorem Spells.attach (h : t.Spells cells) (key : κ) (value : ν) (side : End) :
    ∃ i, (t.attach key value (t.hasher.hash key) side).Spells
      (side.place (i, (key, value)) cells) := by
  have hread := attach_get? h.linked key value (t.hasher.hash key) side
  have hsetup := attach_sameSetup t key value (t.hasher.hash key) side
  have hlinked := attach_linked h.linked key value (t.hasher.hash key) side
  refine ⟨t.vacant ⟨key, value, t.hasher.hash key⟩, ?_, fun j node hnode => ?_,
    fun cell hcell => ?_⟩
  · cases side <;> simpa [End.place] using hlinked
  · rw [KeyHasher.hash, hsetup.comparer]
    rw [hread j] at hnode
    split at hnode
    · cases hnode
      rfl
    · exact h.hashed j node hnode
  · rw [(side.place_perm _ _).mem_iff, List.mem_cons] at hcell
    rw [ entry?, hread]
    rcases hcell with rfl | hcell
    · simp
    · have hne : cell.1 ≠ t.vacant ⟨key, value, t.hasher.hash key⟩ := by
        intro heq
        exact h.linked.vacant_not_mem _ (List.mem_map.mpr ⟨cell, hcell, heq⟩)
      rw [if_neg hne]
      exact h.entry cell hcell

/-- Detaching a slot takes its cell out. -/
theorem Spells.detach (h : t.Spells (before ++ (i, e) :: after)) :
    ∃ node t', t.detach i = (some node, t') ∧ e = (node.key, node.value) ∧ t.SameSetup t' ∧
      t'.Spells (before ++ after) := by
  obtain ⟨node, hnode, he⟩ := h.exists_node
  have hslots := h.linked
  rw [List.map_append, List.map_cons] at hslots
  obtain ⟨hfst, hlinked, hread⟩ := detach_linked hslots hnode
  have hsetup := detach_sameSetup t i
  refine ⟨node, (t.detach i).2, Prod.ext hfst rfl, he, hsetup, ?_, fun j other hother => ?_,
    fun cell hcell => ?_⟩
  · rw [List.map_append]
    exact hlinked
  · rw [KeyHasher.hash, hsetup.comparer]
    rw [hread j] at hother
    split at hother
    · cases hother
    · exact h.hashed j other hother
  · rw [ entry?, hread, if_neg (h.ne_of_mem hcell)]
    refine h.entry cell ?_
    rcases List.mem_append.mp hcell with hc | hc <;> simp [hc]

/-- Moving a slot to an end moves its cell there. -/
theorem Spells.moveTo (h : t.Spells (before ++ (i, e) :: after)) (side : End) :
    (t.moveTo i side).Spells (side.place (i, e) (before ++ after)) where
  linked := by
    have hslots := h.linked
    rw [List.map_append, List.map_cons] at hslots
    have hmoved := moveTo_linked hslots side
    cases side <;> simpa [End.place] using hmoved
  hashed := h.hashed
  entry cell hcell := by
    rw [(side.place_perm _ _).mem_iff, List.mem_cons] at hcell
    refine h.entry cell ?_
    rcases hcell with rfl | hcell
    · simp
    · rcases List.mem_append.mp hcell with hc | hc <;> simp [hc]

/-- Changing the value in a slot changes its cell. -/
theorem Spells.modifyValue (h : t.Spells (before ++ (i, e) :: after)) (f : ν → ν) :
    (t.modifyValue i f).Spells (before ++ (i, (e.1, f e.2)) :: after) := by
  obtain ⟨node, hnode, rfl⟩ := h.exists_node
  have hread := modifyValue_get? hnode f
  refine ⟨?_, fun j other hother => ?_, fun cell hcell => ?_⟩
  · have hlinked := modifyValue_linked h.linked i f
    simpa using hlinked
  · rw [hread j] at hother
    split at hother
    · cases hother
      exact h.hashed i node hnode
    · exact h.hashed j other hother
  · rw [List.perm_middle.mem_iff, List.mem_cons] at hcell
    rw [ entry?, hread]
    rcases hcell with rfl | hcell
    · simp
    · rw [if_neg (h.ne_of_mem hcell)]
      refine h.entry cell ?_
      rcases List.mem_append.mp hcell with hc | hc <;> simp [hc]

/-- The node at an end can be detached whenever there is one. -/
theorem Spells.detach_end {side : End} (h : t.Spells (side.place (i, e) cells)) :
    t.slotAt side = some i ∧ ∃ node t', t.detach i = (some node, t') ∧
      e = (node.key, node.value) ∧ t.SameSetup t' ∧ t'.Spells cells := by
  constructor
  · cases side
    · exact h.linked.order.head.trans (by simp [End.place])
    · exact h.linked.order.tail.trans (by simp [End.place])
  · obtain ⟨before, after, hplace, rfl⟩ := side.exists_split (i, e) cells
    rw [hplace] at h
    exact h.detach

/-- Evicting at an end takes its cell out and counts it. -/
theorem Spells.evict {side : End} (h : t.Spells (side.place (i, e) cells)) :
    ∃ node t', t.evict side = (some node, t') ∧ e = (node.key, node.value) ∧
      { t with evictions := t.evictions + 1 }.SameSetup t' ∧ t'.Spells cells := by
  obtain ⟨hslot, node, t', hdetach, he, hsetup, hspells⟩ := h.detach_end
  refine ⟨node, { t' with
    evictions := t'.evictions + 1
    journal := t'.journal.log (.linkedEvicted i side) }, ?_, he, ?_, ?_⟩
  · unfold LinkedTable.evict
    rw [hslot]
    simp only [hdetach]
  · exact ⟨hsetup.comparer, hsetup.mode, hsetup.capacity, congrArg (· + 1) hsetup.evictions⟩
  · exact ⟨⟨hspells.linked.arena, hspells.linked.order, hspells.linked.index,
      hspells.linked.occupied, hspells.linked.size⟩, hspells.hashed, hspells.entry⟩

/-- A table without cells has no slot at either end. -/
theorem Spells.slotAt_nil (h : t.Spells []) (side : End) : t.slotAt side = none := by
  cases side
  · exact h.linked.order.head
  · exact h.linked.order.tail

/-- A cleared table spells no cells. -/
theorem clear_spells (t : LinkedTable κ ν) : t.clear.Spells [] :=
  empty_spells rfl (ChainIndex.clear_partition t.index) rfl

/-! ## Searching -/

/-- A lookup splits the cells at the key, or tells that it is absent. -/
theorem Spells.lookup (h : t.Spells cells) (hc : t.hasher.comparer.Lawful)
    (hd : EntryList.Distinct t.hasher.comparer (cells.map (·.2))) (key : κ) :
    (∃ t', t.lookup key = (none, t') ∧ t.SameContents t' ∧
      EntryList.Absent t.hasher.comparer key (cells.map (·.2))) ∨
    ∃ before i e after t', t.lookup key = (some i, t') ∧ t.SameContents t' ∧
      cells = before ++ (i, e) :: after ∧
      EntryList.Split t.hasher.comparer key (cells.map (·.2)) (before.map (·.2)) e
        (after.map (·.2)) := by
  have hsame := find_sameContents t key (t.hasher.hash key)
  have hcodes : ∀ i, (t.arena.get? i).map (·.hash) =
      ((t.arena.get? i).map (·.key)).map t.hasher.comparer.code := fun i => by
    cases hnode : t.arena.get? i with
    | none => rfl
    | some node => exact congrArg some (h.hashed i node hnode)
  have hholds : ∀ i k, (t.arena.get? i).map (·.key) = some k →
      t.holds key (t.hasher.hash key) i = (decide (t.hasher.hash k = t.hasher.hash key) &&
        t.hasher.comparer.equals k key) := fun i k hk => by
    obtain ⟨node, hnode, rfl⟩ := Option.map_eq_some_iff.mp hk
    simp only [holds, hnode, h.hashed i node hnode]
  rcases h.linked.index.find_key hc hcodes hholds with
    ⟨i, k, hfind, hk, hkey⟩ | ⟨hfind, hkeys⟩
  · obtain ⟨node, hnode, rfl⟩ := Option.map_eq_some_iff.mp hk
    obtain ⟨before, after, rfl⟩ := h.exists_cell hnode
    refine .inr ⟨before, i, (node.key, node.value), after, _, Prod.ext hfind rfl, hsame, rfl, ?_⟩
    rw [List.map_append, List.map_cons] at hd ⊢
    exact hd.split hc hkey
  · refine .inl ⟨_, Prod.ext hfind rfl, hsame, fun e he => ?_⟩
    obtain ⟨cell, hcell, rfl⟩ := List.mem_map.mp he
    obtain ⟨node, hnode, hcell'⟩ := Option.map_eq_some_iff.mp (h.entry cell hcell)
    rw [← hcell']
    exact hkeys cell.1 node.key (by rw [hnode, Option.map_some])

/-! ## Reading the entries -/

/-- Walking forward from a cell on reads it and the cells after it. -/
theorem Spells.drain_next (h : t.Spells (before ++ after)) {fuel : Nat}
    (hfuel : after.length ≤ fuel) (last : Option Nat) :
    drain t.next fuel ⟨(after.map (·.1)).head?, last, after.length⟩ = after.map (·.2) := by
  induction after generalizing before fuel with
  | nil => cases fuel <;> simp [drain, next]
  | cons cell after ih =>
      cases fuel with
      | zero => simp at hfuel
      | succ fuel =>
          have hentry := h.entry cell (by simp)
          have hafter := (h.linked.order.links (before.map (·.1)) cell.1 (after.map (·.1))
            (by simp)).1
          have hsplit : t.Spells ((before ++ [cell]) ++ after) := by simpa using h
          have hrest := ih hsplit (Nat.le_of_succ_le_succ hfuel)
          simp [drain, next, hentry, hafter, ← hrest]

/-- The entries from front to back are those of the cells. -/
theorem Spells.toList_eq (h : t.Spells cells) : t.toList = cells.map (·.2) := by
  have hwhole : t.Spells ([] ++ cells) := h
  have hdrain := hwhole.drain_next (Nat.le_refl _) t.order.tail
  rw [toList, iter, h.linked.order.head, h.size_eq]
  exact hdrain

/-- Walking backward from a cell on reads it and the cells before it, last one first. -/
theorem Spells.drain_nextBack (h : t.Spells (before ++ after)) {fuel : Nat}
    (hfuel : before.length ≤ fuel) (first : Option Nat) :
    drain t.nextBack fuel ⟨first, (before.map (·.1)).getLast?, before.length⟩ =
      (before.map (·.2)).reverse := by
  -- an induction on `before` would take cells off its front, and this iteration ends there
  induction fuel generalizing before after with
  | zero =>
      obtain rfl : before = [] := by simpa using hfuel
      simp [drain]
  | succ fuel ih =>
      rcases List.eq_nil_or_concat before with rfl | ⟨before, cell, rfl⟩
      · simp [drain, nextBack]
      · have hentry := h.entry cell (by simp)
        have hbefore := (h.linked.order.links (before.map (·.1)) cell.1 (after.map (·.1))
          (by simp)).2
        have hsplit : t.Spells (before ++ cell :: after) := by simpa using h
        have hrest := ih hsplit (by simpa using hfuel)
        simp [drain, nextBack, hentry, hbefore, ← hrest]

/-- The entries from back to front are those from front to back in reverse. -/
theorem Spells.toListBack_eq (h : t.Spells cells) : t.toListBack = (cells.map (·.2)).reverse := by
  have hwhole : t.Spells (cells ++ []) := by simpa using h
  have hdrain := hwhole.drain_nextBack (Nat.le_refl _) t.order.head
  rw [toListBack, iter, h.linked.order.tail, h.size_eq]
  exact hdrain

end BoundedTables.Table.LinkedTable
