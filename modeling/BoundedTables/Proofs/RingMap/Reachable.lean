import BoundedTables.Proofs.RingMap.Cursor
import BoundedTables.Proofs.Table.Trail

/-!
# The ring of every reachable map is intact

`Intact m` says how the slots of a ring map are occupied: only in the interval from the oldest to
the newest slot, both of which are occupied, by entries with stamps of their own, and all of them
stand in the chains of the index. The slot claimed for a new entry is then empty, so that no entry
is ever overwritten, and the holes of the interval can be counted by a subtraction.

It follows from the layout of the cells. What the layout leaves open is the stamps: `Stamped m` adds
that they are distinct and past, and every operation keeps that (`step_stamped`), whatever the
comparer. `reachable_ring_intact` is the theorem over all runs.
-/

namespace BoundedTables.RingMap

open Hashing Table

variable {κ ν : Type} {m m' : RingMap κ ν} {cells before after : List (Cell κ ν)}
  {nodes nodes' front back : List (RingNode κ ν)} {node node' : RingNode κ ν} {i p now : Nat}

/-! ## Intact rings -/

/-- The occupied slots. -/
def occupied (m : RingMap κ ν) : List Nat :=
  (List.range m.ring.size).filter fun i => (m.node? i).isSome

/-- The slots from the oldest to the newest entry, around the ring. -/
def interval (m : RingMap κ ν) : List Nat :=
  if m.size = 0 then []
  else
    (List.range ((m.tail + m.ring.size - m.head) % m.ring.size + 1)).map fun offset =>
      (m.head + offset) % m.ring.size

/-- What holds of the slots, the ends and the stamps of a ring. -/
structure Intact (m : RingMap κ ν) : Prop where
  size : m.size = m.occupied.length
  rest : m.size = 0 → m.head = 0 ∧ m.tail = 0
  ends : m.size ≠ 0 → (m.node? m.head).isSome ∧ (m.node? m.tail).isSome
  between : ∀ i ∈ m.occupied, i ∈ m.interval
  /-- Once there is room, an empty slot is claimed. -/
  claimed : ∀ reserved, m.reserveOne = (.ok (), reserved) →
    ∃ i m', reserved.claimSlot = .ok (i, m') ∧ i < m'.ring.size ∧ m'.node? i = none
  chains : ∃ chain, m.index.Chains (fun i => (m.node? i).map (·.hash)) m.occupied chain
  distinct : ∀ i j node node', m.node? i = some node → m.node? j = some node' →
    node.stamp = node'.stamp → i = j
  past : ∀ i node, m.node? i = some node → node.stamp ≤ m.clock
  /-- No subtraction on the way to the holes goes below zero. -/
  covered : m.head ≤ m.tail + m.ring.size ∧ m.size ≤ m.interval.length
  holes : m.stats.holes = m.interval.countP fun i => (m.node? i).isNone

/-- An occupied slot is one with a node. -/
theorem mem_occupied : i ∈ m.occupied ↔ (m.node? i).isSome := by
  rw [occupied, List.mem_filter, List.mem_range, and_iff_right_iff_imp]
  intro hnode
  obtain ⟨node, hnode⟩ := Option.isSome_iff_exists.mp hnode
  exact lt_size_of_node? hnode

/-- No slot is occupied twice. -/
theorem occupied_nodup (m : RingMap κ ν) : m.occupied.Nodup := List.nodup_range.filter _

/-- The occupied slots are those of the cells. -/
theorem Placed.occupied_perm (h : m.Placed cells) :
    m.occupied.Perm (cells.map fun cell => cell.1 % m.ring.size) := by
  refine (List.perm_ext_iff_of_nodup m.occupied_nodup h.slots_nodup).mpr ?_
  intro i
  rw [mem_occupied, Option.isSome_iff_exists, List.mem_map]
  constructor
  · rintro ⟨node, hnode⟩
    exact h.covered i node hnode
  · rintro ⟨cell, hcell, rfl⟩
    exact ⟨cell.2, h.node cell hcell⟩

/-! ## The interval from the oldest to the newest entry -/

/-- The distance around the ring between two slots is that of their positions. -/
theorem distance_mod {n q : Nat} (hpq : p ≤ q) (hq : q < p + n) :
    (q % n + n - p % n) % n = q - p := by
  have hp : p % n < n := Nat.mod_lt p (by omega)
  have hdistance : q % n + n - p % n ≡ q - p [MOD n] := by
    refine Nat.ModEq.add_right_cancel (Nat.mod_modEq p n) ?_
    rw [Nat.sub_add_cancel (by omega), Nat.sub_add_cancel hpq]
    exact (Nat.add_mod_right _ _).trans (Nat.mod_mod q n)
  exact Nat.mod_eq_of_modEq hdistance (by omega)

/-- Every cell lies between the first and the last one. -/
theorem Placed.bounds {first last cell : Cell κ ν} (h : m.Placed cells)
    (hfirst : cells.head? = some first) (hlast : cells.getLast? = some last)
    (hcell : cell ∈ cells) : first.1 ≤ cell.1 ∧ cell.1 ≤ last.1 := by
  constructor
  · obtain ⟨rest, rfl⟩ := List.head?_eq_some_iff.mp hfirst
    exact h.first_le cell hcell
  · obtain ⟨init, rfl⟩ := List.getLast?_eq_some_iff.mp hlast
    exact h.le_last cell hcell

/-- The interval spans the positions from the first cell to the last one. -/
theorem Laid.interval_eq {first last : Cell κ ν} (h : m.Laid cells)
    (hfirst : cells.head? = some first) (hlast : cells.getLast? = some last) :
    first.1 ≤ last.1 ∧ (m.tail + m.ring.size - m.head) % m.ring.size = last.1 - first.1 ∧
      m.interval = (List.range' first.1 (last.1 - first.1 + 1)).map (· % m.ring.size) := by
  have hmem := List.mem_of_getLast? hlast
  have hle : first.1 ≤ last.1 := (h.bounds hfirst hlast hmem).1
  have hspan : last.1 < first.1 + m.ring.size := h.close hmem (List.mem_of_mem_head? hfirst)
  have hhead : m.head = first.1 % m.ring.size := by rw [h.head, hfirst, slotOf]
  have htail : m.tail = last.1 % m.ring.size := by rw [h.tail, hlast, slotOf]
  have hdistance : (m.tail + m.ring.size - m.head) % m.ring.size = last.1 - first.1 := by
    rw [hhead, htail]
    exact distance_mod hle hspan
  have hsize : m.size ≠ 0 := by
    rw [h.size]
    exact List.length_pos_of_mem hmem |>.ne'
  refine ⟨hle, hdistance, ?_⟩
  rw [interval, if_neg hsize, hdistance, List.range'_eq_map_range, List.map_map]
  refine List.map_congr_left ?_
  intro offset _
  rw [hhead, Nat.mod_add_mod]
  rfl

/-- Without entries the interval from the oldest to the newest is empty. -/
theorem interval_of_empty (hsize : m.size = 0) : m.interval = [] := if_pos hsize

/-- A ring has a first and a last entry, or none. -/
theorem Laid.empty_or_ends (h : m.Laid cells) : (cells = [] ∧ m.size = 0) ∨
    ∃ first last, cells.head? = some first ∧ cells.getLast? = some last := by
  cases cells with
  | nil => exact .inl ⟨rfl, h.size⟩
  | cons first rest => exact .inr ⟨first, _, rfl, List.getLast?_eq_some_getLast (by simp)⟩

/-- Every cell lies in the interval. -/
theorem Laid.mem_interval (h : m.Laid cells) {cell : Cell κ ν} (hcell : cell ∈ cells) :
    cell.1 % m.ring.size ∈ m.interval := by
  rcases h.empty_or_ends with ⟨rfl, -⟩ | ⟨first, last, hfirst, hlast⟩
  · cases hcell
  · rw [(h.interval_eq hfirst hlast).2.2]
    refine List.mem_map_of_mem (List.mem_range'_1.mpr ?_)
    obtain ⟨hfirst_le, hle_last⟩ := h.bounds hfirst hlast hcell
    omega

/-- Read along the interval, the ring holds its entries in order of age. -/
theorem Laid.filterMap_interval (h : m.Laid cells) :
    m.interval.filterMap m.node? = cells.map (·.2) := by
  rcases h.empty_or_ends with ⟨rfl, hsize⟩ | ⟨first, last, hfirst, hlast⟩
  · rw [interval_of_empty hsize]
    rfl
  obtain ⟨hle, -, hinterval⟩ := h.interval_eq hfirst hlast
  have hspan : last.1 < first.1 + m.ring.size :=
    h.close (List.mem_of_getLast? hlast) (List.mem_of_mem_head? hfirst)
  rw [hinterval, List.filterMap_map]
  refine filterMap_range' (h.spaced.imp fun hab => hab.1) ?_ ?_
  · intro cell hcell
    obtain ⟨hfirst_le, hle_last⟩ := h.bounds hfirst hlast hcell
    exact ⟨hfirst_le, by omega, h.node cell hcell⟩
  · intro q hq hqc hne
    refine h.vacant hne ?_
    intro cell hcell
    obtain ⟨hfirst_le, hle_last⟩ := h.bounds hfirst hlast hcell
    omega

/-- The slots of the interval are those of the entries and the holes. -/
theorem Laid.interval_length (h : m.Laid cells) :
    m.interval.length = m.size + m.interval.countP fun i => (m.node? i).isNone := by
  have hentries : m.interval.countP (fun i => (m.node? i).isSome) = m.size := by
    rw [← List.length_filterMap_eq_countP, h.filterMap_interval, List.length_map, h.size]
  rw [List.length_eq_countP_add_countP (fun i => (m.node? i).isSome), hentries]
  congr 1
  refine List.countP_congr ?_
  intro i _
  cases m.node? i <;> simp

/-! ## Stamps -/

/-- Nodes whose stamps are distinct, none of them in the future. -/
structure Dated (now : Nat) (nodes : List (RingNode κ ν)) : Prop where
  distinct : (nodes.map (·.stamp)).Nodup
  past : ∀ node ∈ nodes, node.stamp ≤ now

/-- Distinct stamps in the past are so in every part of the nodes. -/
theorem Dated.sublist (h : Dated now nodes) (hsub : nodes'.Sublist nodes) : Dated now nodes' where
  distinct := h.distinct.sublist (hsub.map _)
  past node hnode := h.past node (hsub.subset hnode)

/-- A node that is stamped next has a stamp of its own. -/
theorem Dated.renew (h : Dated now (front ++ back)) (hstamp : node.stamp = now + 1) :
    Dated (now + 1) (front ++ node :: back) where
  distinct := by
    rw [List.map_append, List.map_cons, List.perm_middle.nodup_iff, ← List.map_append]
    refine List.nodup_cons.mpr ⟨?_, h.distinct⟩
    intro hmem
    obtain ⟨other, hother, heq⟩ := List.mem_map.mp hmem
    have := h.past other hother
    omega
  past other hother := by
    rcases List.mem_cons.mp (List.perm_middle.mem_iff.mp hother) with rfl | hother
    · exact Nat.le_of_eq hstamp
    · exact Nat.le_succ_of_le (h.past other hother)

/-- A node may change as long as its stamp stays. -/
theorem Dated.change (h : Dated now (front ++ node :: back)) (hstamp : node'.stamp = node.stamp) :
    Dated now (front ++ node' :: back) where
  distinct := by
    have hdistinct := h.distinct
    rw [List.map_append, List.map_cons] at hdistinct ⊢
    rw [hstamp]
    exact hdistinct
  past other hother := by
    rcases List.mem_cons.mp (List.perm_middle.mem_iff.mp hother) with rfl | hother
    · rw [hstamp]
      exact h.past node (by simp)
    · exact h.past other (List.perm_middle.mem_iff.mpr (List.mem_cons_of_mem _ hother))

/-- The entries of a map are laid out in its ring, with stamps of their own that are past. -/
def Stamped (m : RingMap κ ν) : Prop := ∃ cells, m.Laid cells ∧ Dated m.clock (cells.map (·.2))

/-- Reads leave the entries and the time alone. -/
theorem SameView.stamped (hs : m.SameView m') (hclock : m'.clock = m.clock) (h : m.Stamped) :
    m'.Stamped ∧ m'.clock ≤ m.clock + 1 := by
  obtain ⟨cells, h, hdated⟩ := h
  exact ⟨⟨cells, hs.laid h, hclock ▸ hdated⟩, by omega⟩

/-- An insertion leaves all entries stamped, and takes at most one step of the time. -/
theorem insert_stamped (h : m.Stamped) (key : κ) (value : ν) :
    (m.insert key value).2.Stamped ∧ (m.insert key value).2.clock ≤ m.clock + 1 := by
  have hstamped := h
  obtain ⟨cells, h, hdated⟩ := h
  rcases h.insert_cases key value with ⟨e, m', hinsert, hs, hclock⟩ |
    ⟨p, m', cells', hinsert, h', hbehind, hfirst, hnodes, hclock, -⟩ |
    ⟨before, p, node, after, previous, m', hinsert, -, hclock, rfl, h'⟩ <;> rw [hinsert]
  · exact hs.stamped hclock hstamped
  · refine ⟨⟨_, occupy_laid h' key value _ hbehind hfirst, ?_⟩, ?_⟩
    · have hkept := hdated.sublist hnodes
      rw [← hclock, ← List.append_nil (cells'.map _)] at hkept
      rw [List.map_append]
      exact hkept.renew rfl
    · exact Nat.succ_le_succ (Nat.le_of_eq hclock)
  · have hchanged := change_laid h' (f := fun node => { node with value, stamp := m'.clock + 1 })
      rfl
    refine ⟨⟨_, SameLayout.laid (m := m'.change _ _) ⟨rfl, rfl, rfl, rfl, rfl⟩ hchanged, ?_⟩, ?_⟩
    · rw [List.map_append, List.map_cons, ← hclock] at hdated
      have hrest := hdated.sublist ((List.sublist_cons_self node (after.map (·.2))).append_left _)
      rw [List.map_append, List.map_cons]
      exact hrest.renew rfl
    · exact Nat.succ_le_succ (Nat.le_of_eq hclock)

/-- A removed entry takes its stamp along. -/
theorem removeAt_stamped (h : m.Laid (before ++ (p, node) :: after))
    (hdated : Dated m.clock ((before ++ (p, node) :: after).map (·.2))) :
    ∃ m', m.removeAt (p % m.ring.size) = (some node, m') ∧ m'.Stamped ∧ m'.clock = m.clock := by
  obtain ⟨m', hremove, hlaid, hsetup, -⟩ := removeAt_laid h
  refine ⟨m', hremove, ⟨_, hlaid, ?_⟩, hsetup.clock⟩
  rw [hsetup.clock]
  exact hdated.sublist (((List.sublist_cons_self _ after).append_left before).map _)

/-- A removal leaves all entries stamped, and takes at most one step of the time. -/
theorem remove_stamped (h : m.Stamped) (key : κ) :
    (m.remove key).2.Stamped ∧ (m.remove key).2.clock ≤ m.clock + 1 := by
  have hstamped := h
  obtain ⟨cells, h, hdated⟩ := h
  unfold remove
  rcases h.lookup key with ⟨m₁, hl, hs, hclock⟩ |
    ⟨before, p, node, after, m₁, hl, -, hclock, rfl, h₁⟩ <;> rw [hl]
  · exact hs.stamped hclock hstamped
  · obtain ⟨m₂, hremove, hstamped₂, hclock₂⟩ := removeAt_stamped h₁ (hclock.symm ▸ hdated)
    dsimp only
    rw [hremove]
    exact ⟨hstamped₂, Nat.le_succ_of_le (Nat.le_of_eq (hclock₂.trans hclock))⟩

/-- Taking the oldest entry off leaves the others stamped, and takes at most one step of the time.
-/
theorem popOldest_stamped (h : m.Stamped) :
    m.popOldest.2.Stamped ∧ m.popOldest.2.clock ≤ m.clock + 1 := by
  have hstamped := h
  obtain ⟨cells, h, hdated⟩ := h
  unfold popOldest
  cases cells with
  | nil =>
      have hsize : m.size = 0 := h.size
      rw [if_pos hsize]
      exact (SameView.refl m).stamped rfl hstamped
  | cons first rest =>
      have hsize : m.size ≠ 0 := by simp [h.size]
      have hfront : m.Laid ([] ++ first :: rest) := h
      have hhead : m.head = first.1 % m.ring.size := h.head
      obtain ⟨m₁, hremove, hstamped₁, hclock₁⟩ := removeAt_stamped hfront hdated
      rw [if_neg hsize, hhead, hremove]
      exact ⟨hstamped₁, Nat.le_succ_of_le (Nat.le_of_eq hclock₁)⟩

/-- A modification leaves all entries stamped, and takes at most one step of the time. -/
theorem modify_stamped (h : m.Stamped) (key : κ) (f : ν → ν) :
    (m.modify key f).2.Stamped ∧ (m.modify key f).2.clock ≤ m.clock + 1 := by
  have hstamped := h
  obtain ⟨cells, h, hdated⟩ := h
  unfold modify
  rcases h.lookup key with ⟨m₁, hl, hs, hclock⟩ |
    ⟨before, p, node, after, m₁, hl, -, hclock, rfl, h₁⟩ <;> rw [hl]
  · exact hs.stamped hclock hstamped
  · have hchanged := change_laid h₁ (f := fun node => { node with value := f node.value }) rfl
    refine ⟨⟨_, hchanged, ?_⟩, Nat.le_succ_of_le (Nat.le_of_eq hclock)⟩
    rw [List.map_append, List.map_cons, ← hclock] at hdated
    rw [List.map_append, List.map_cons]
    exact hdated.change rfl

/-- A cleared map has no entry without a stamp, and takes at most one step of the time. -/
theorem clear_stamped (h : m.Stamped) : m.clear.Stamped ∧ m.clear.clock ≤ m.clock + 1 := by
  obtain ⟨cells, h, -⟩ := h
  exact ⟨⟨[], clear_laid h.room, ⟨List.nodup_nil, by simp⟩⟩, Nat.le_succ _⟩

/-- A lookup that requires its key takes no time. -/
theorem require_clock (m : RingMap κ ν) (key : κ) : (m.require key).2.clock = m.clock := by
  have hclock : (m.get key).2.clock = m.clock := rfl
  unfold require
  rcases hget : m.get key with ⟨_ | value, m'⟩ <;> rw [hget] at hclock <;> exact hclock

/-- Every operation keeps the stamps apart, and takes at most one unit of time. -/
theorem step_stamped (h : m.Stamped) (op : Op κ ν) :
    (m.step op).2.Stamped ∧ (m.step op).2.clock ≤ m.clock + 1 := by
  cases op with
  | insert key value => exact insert_stamped h key value
  | remove key => exact remove_stamped h key
  | modify key f => exact modify_stamped h key f
  | get key | containsKey key | timestamp key => exact (m.lookup_sameView key).stamped rfl h
  | require key => exact (m.require_sameView key).stamped (m.require_clock key) h
  | oldest | newest => exact (SameView.refl m).stamped rfl h
  | popOldest => exact popOldest_stamped h
  | clear => exact clear_stamped h

/-- Any number of operations keep the stamps apart, and take at most that much time. -/
theorem run_stamped (h : m.Stamped) (ops : List (Op κ ν)) :
    (run step m ops).2.Stamped ∧ (run step m ops).2.clock ≤ m.clock + ops.length := by
  induction ops generalizing m with
  | nil => exact ⟨h, Nat.le_refl _⟩
  | cons op ops ih =>
      obtain ⟨hnext, hclock⟩ := step_stamped h op
      obtain ⟨hfinal, htime⟩ := ih hnext
      refine ⟨hfinal, Nat.le_trans htime ?_⟩
      rw [List.length_cons]
      omega

/-! ## Reachable maps -/

/-- A slot claimed after making room is empty. -/
theorem Laid.claimed (h : m.Laid cells) (hreserve : m.reserveOne = (.ok (), m')) :
    ∃ i m'', m'.claimSlot = .ok (i, m'') ∧ i < m''.ring.size ∧ m''.node? i = none := by
  rcases h.reserveOne with ⟨e, herror⟩ | ⟨m₁, cells₁, hok, h₁, hfree, -⟩
  · rw [herror] at hreserve
    cases hreserve
  · obtain rfl : m₁ = m' := congrArg Prod.snd (hok.symm.trans hreserve)
    obtain ⟨p, m₂, cells₂, hclaim, h₂, -, hring, -, hbehind, -⟩ := claimSlot_laid h₁ hfree
    rw [← hring] at hclaim hbehind
    exact ⟨_, m₂, hclaim, Nat.mod_lt p h₂.room, h₂.vacant_behind hbehind⟩

/-- Two slots whose entries have the same stamp are one slot. -/
theorem Placed.stamps_distinct (h : m.Placed cells) (hdated : Dated now (cells.map (·.2)))
    {j : Nat} (hi : m.node? i = some node) (hj : m.node? j = some node')
    (hstamp : node.stamp = node'.stamp) : i = j := by
  obtain ⟨a, ha, rfl⟩ := h.covered i node hi
  obtain ⟨b, hb, rfl⟩ := h.covered j node' hj
  have hnodes : a.2 = node ∧ b.2 = node' :=
    ⟨Option.some.inj ((h.node a ha).symm.trans hi), Option.some.inj ((h.node b hb).symm.trans hj)⟩
  have hdistinct := hdated.distinct
  rw [List.map_map] at hdistinct
  have heq : a = b := List.inj_on_of_nodup_map hdistinct ha hb (by
    rw [Function.comp_apply, Function.comp_apply, hnodes.1, hnodes.2, hstamp])
  rw [heq]

/-- The holes are what the interval has besides entries. -/
theorem Laid.holes_eq (h : m.Laid cells) :
    m.stats.holes = m.interval.countP fun i => (m.node? i).isNone := by
  have hlength := h.interval_length
  unfold stats
  dsimp only
  split
  · rename_i hsize
    rw [interval_of_empty hsize]
    rfl
  · rename_i hsize
    have hspan : m.interval.length = (m.tail + m.ring.size - m.head) % m.ring.size + 1 := by
      rw [interval, if_neg hsize, List.length_map, List.length_range]
    dsimp only
    omega

/-- An empty ring is at rest. -/
theorem Laid.rest (h : m.Laid cells) (hsize : m.size = 0) : m.head = 0 ∧ m.tail = 0 := by
  obtain rfl : cells = [] := List.length_eq_zero_iff.mp (h.size.symm.trans hsize)
  exact ⟨h.head, h.tail⟩

/-- Both ends of a ring that holds something are occupied. -/
theorem Laid.ends_occupied (h : m.Laid cells) (hsize : m.size ≠ 0) :
    (m.node? m.head).isSome ∧ (m.node? m.tail).isSome := by
  rcases h.empty_or_ends with ⟨-, hempty⟩ | ⟨first, last, hfirst, hlast⟩
  · exact absurd hempty hsize
  · rw [h.head, h.tail, hfirst, hlast]
    simp only [slotOf, h.node first (List.mem_of_mem_head? hfirst),
      h.node last (List.mem_of_getLast? hlast), Option.isSome_some, and_self]

/-- The oldest slot is one of the ring. -/
theorem Laid.head_lt (h : m.Laid cells) : m.head < m.ring.size := by
  rw [h.head]
  cases cells.head? with
  | none => exact h.room
  | some first => exact Nat.mod_lt _ h.room

/-- No entry has a stamp of the future. -/
theorem Placed.stamp_le (h : m.Placed cells) (hdated : Dated now (cells.map (·.2)))
    (hi : m.node? i = some node) : node.stamp ≤ now := by
  obtain ⟨cell, hcell, rfl⟩ := h.covered i node hi
  obtain rfl : cell.2 = node := Option.some.inj ((h.node cell hcell).symm.trans hi)
  exact hdated.past cell.2 (List.mem_map_of_mem hcell)

/-- A map whose entries are laid out and stamped is intact. -/
theorem Stamped.intact (h : m.Stamped) : m.Intact := by
  obtain ⟨cells, h, hdated⟩ := h
  have hperm := h.occupied_perm
  have hlength := h.interval_length
  have hhead := h.head_lt
  have hread (i : Nat) : i ∈ m.occupied ↔ ((m.node? i).map (·.hash)).isSome := by
    rw [mem_occupied, Option.isSome_map]
  exact
    { size := by rw [hperm.length_eq, List.length_map, h.size]
      rest := h.rest
      ends := h.ends_occupied
      between := by
        intro i hi
        obtain ⟨cell, hcell, rfl⟩ := List.mem_map.mp (hperm.mem_iff.mp hi)
        exact h.mem_interval hcell
      claimed := fun reserved hreserve => h.claimed hreserve
      chains := h.index.exists_chains m.occupied_nodup hread
      distinct := fun i j node node' hi hj hstamp => h.stamps_distinct hdated hi hj hstamp
      past := fun i node hi => h.stamp_le hdated hi
      covered := ⟨by omega, by omega⟩
      holes := h.holes_eq }

variable {o : TableOptions} {f : Sizing.LoadFactor}

/-- A new map has no stamps, and shows the time zero. -/
theorem withComparer_stamped (hvalid : o.check = .ok f) (c : Comparer κ) :
    ∃ m : RingMap κ ν, withComparer o c = .ok m ∧ m.Stamped ∧ m.clock = 0 := by
  obtain ⟨m, hm, cells, hmodels, hideal⟩ : ∃ m : RingMap κ ν, _ := withComparer_stands hvalid c
  have hcells : cells = [] := List.map_eq_nil_iff.mp (congrArg Ideal.entries hideal).symm
  refine ⟨m, hm, ⟨cells, hmodels.laid, ?_⟩, (congrArg Ideal.clock hideal).symm⟩
  rw [hcells]
  exact ⟨List.nodup_nil, by simp⟩

/-- Whatever is done to a new map, and whatever the comparer says, its ring is intact, and no more
time passes than operations are performed. -/
theorem reachable_ring_intact (hvalid : o.check.isOk) (c : Comparer κ) :
    ∃ m : RingMap κ ν, withComparer o c = .ok m ∧ ∀ ops : List (Op κ ν),
      (run step m ops).2.Intact ∧ (run step m ops).2.clock ≤ ops.length := by
  obtain ⟨f, hvalid⟩ := exists_ok hvalid
  obtain ⟨m, hm, hstart, hzero⟩ : ∃ m : RingMap κ ν, _ := withComparer_stamped hvalid c
  refine ⟨m, hm, ?_⟩
  intro ops
  obtain ⟨hstamped, hclock⟩ := run_stamped hstart ops
  rw [hzero, Nat.zero_add] at hclock
  exact ⟨hstamped.intact, hclock⟩

/-- In a ring of three, a hole is left between the two ends where an entry was removed, and the ring
around it is intact. -/
theorem ring_intact_around_hole :
    (⟨3, .fixed, 0.75, .deterministic⟩ : TableOptions).check.isOk ∧
    ∃ m : RingMap UInt64 Nat, withComparer ⟨3, .fixed, 0.75, .deterministic⟩ .natural = .ok m ∧
      (run step m [.insert 1 10, .insert 2 20, .insert 3 30, .popOldest, .insert 4 40,
        .remove 3]).2.stats = ⟨2, 3, 1, 2, 4⟩ ∧
      (run step m [.insert 1 10, .insert 2 20, .insert 3 30, .popOldest, .insert 4 40,
        .remove 3]).2.Intact := by
  have hvalid : (⟨3, .fixed, 0.75, .deterministic⟩ : TableOptions).check.isOk := by decide +kernel
  obtain ⟨m, hm, hruns⟩ : ∃ m : RingMap UInt64 Nat, _ := reachable_ring_intact hvalid .natural
  have hstats : ((withComparer ⟨3, .fixed, 0.75, .deterministic⟩ .natural).map
      fun m : RingMap UInt64 Nat => (run step m [.insert 1 10, .insert 2 20, .insert 3 30,
        .popOldest, .insert 4 40, .remove 3]).2.stats) = .ok ⟨2, 3, 1, 2, 4⟩ := by decide +kernel
  rw [hm] at hstats
  exact ⟨hvalid, m, hm, Except.ok.inj hstats, (hruns _).1⟩

end BoundedTables.RingMap
