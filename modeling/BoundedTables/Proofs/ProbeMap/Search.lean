import BoundedTables.ProbeMap
import BoundedTables.Proofs.BloomFilter
import BoundedTables.Proofs.Hashing.Policy
import Mathlib.Data.List.Nodup

/-!
# Searching a probe table

A search is cut short by the filter, by a slot that was never used and by the bound on
displacements. `Searchable` says that none of the three hides an entry: the filter knows its hash,
the bound covers its distance from home, and every slot on the way to it was used. Writing
anything but an unused slot keeps the ways to all other entries, so it is enough to look at the
slot that is written. In a searchable table a search finds a key exactly when an entry has it
(`Searchable.find`).
-/

namespace BoundedTables.ProbeMap

open Hashing

variable {κ ν : Type} {slots : Array (Slot κ ν)} {slot : Slot κ ν} {e e' : ProbeEntry κ ν}
  {hash : UInt32} {capacity bound count i j k : Nat} {filter : BloomFilter}

/-! ## Positions -/

/-- Every probe position is a slot. -/
theorem position_lt (h : 0 < capacity) (hash : UInt32) (distance : Nat) :
    position capacity hash distance < capacity :=
  Nat.mod_lt _ h

/-- Every slot is at some distance behind the home of a hash. -/
theorem exists_position (hash : UInt32) (hi : i < capacity) :
    ∃ distance < capacity, position capacity hash distance = i := by
  have hhome : hash.toNat % capacity < capacity := Nat.mod_lt _ (by omega)
  refine ⟨(i + capacity - hash.toNat % capacity) % capacity, Nat.mod_lt _ (by omega), ?_⟩
  rw [position, Nat.add_mod_mod, ← Nat.mod_add_mod]
  have hsum : hash.toNat % capacity + (i + capacity - hash.toNat % capacity) = i + capacity := by
    omega
  rw [hsum, Nat.add_mod_right, Nat.mod_eq_of_lt hi]

/-! ## Entries and tombstones -/

/-- The entries of slots, in order. -/
def entriesOf (slots : Array (Slot κ ν)) : List (ProbeEntry κ ν) :=
  slots.toList.filterMap Slot.entry?

/-- The number of slots that lost their entries. -/
def tombstonesOf (slots : Array (Slot κ ν)) : Nat :=
  slots.toList.countP fun
    | .deleted => true
    | .empty | .occupied _ => false

/-- A slot has an entry when it is occupied by it. -/
theorem entry?_eq_some : slot.entry? = some e ↔ slot = .occupied e := by
  cases slot <;> simp [Slot.entry?]

/-- The entries of slots are those that occupy one. -/
theorem mem_entriesOf : e ∈ entriesOf slots ↔ ∃ i : Nat, slots[i]? = some (.occupied e) := by
  simp only [entriesOf, List.mem_filterMap, entry?_eq_some, exists_eq_right, Array.mem_toList_iff,
    Array.mem_iff_getElem?]

/-- Writing a slot leaves the slots in front of it and behind it alone. -/
theorem toList_write (h : slots[i]? = some slot) : ∃ front back,
    slots.toList = front ++ slot :: back ∧
      ∀ next, (slots.setIfInBounds i next).toList = front ++ next :: back := by
  obtain ⟨hi, rfl⟩ := Array.getElem?_eq_some_iff.mp h
  refine ⟨slots.toList.take i, slots.toList.drop (i + 1), ?_, fun next => ?_⟩
  · rw [← Array.getElem_toList, ← List.drop_eq_getElem_cons, List.take_append_drop]
  · rw [Array.toList_setIfInBounds, List.set_eq_take_append_cons_drop, if_pos (by simpa using hi)]

/-- Writing a slot exchanges its entry and keeps the order of the others. -/
theorem entriesOf_write (h : slots[i]? = some slot) : ∃ front back,
    entriesOf slots = front ++ slot.entry?.toList ++ back ∧
      ∀ next, entriesOf (slots.setIfInBounds i next) = front ++ next.entry?.toList ++ back := by
  obtain ⟨front, back, hlist, hwrite⟩ := toList_write h
  refine ⟨front.filterMap Slot.entry?, back.filterMap Slot.entry?, ?_, fun next => ?_⟩
  · rw [entriesOf, hlist, List.filterMap_append, List.filterMap_cons, List.append_assoc]
    cases slot <;> rfl
  · rw [entriesOf, hwrite, List.filterMap_append, List.filterMap_cons, List.append_assoc]
    cases next <;> rfl

/-- A tombstone is counted once. -/
theorem tombstonesOf_write (h : slots[i]? = some slot) (next : Slot κ ν) :
    tombstonesOf (slots.setIfInBounds i next) + tombstonesOf #[slot] =
      tombstonesOf slots + tombstonesOf #[next] := by
  obtain ⟨front, back, hlist, hwrite⟩ := toList_write h
  simp only [tombstonesOf, hlist, hwrite, List.countP_append, List.countP_cons, List.countP_nil]
  omega

/-- A slot counts for one tombstone if it is deleted, and for none otherwise. -/
theorem isTombstone_eq (h : slots[i]? = some slot) :
    tombstonesOf #[slot] = if isTombstone slots i then 1 else 0 := by
  unfold isTombstone
  rw [h]
  cases slot <;> rfl

/-! ## Paths -/

/-- A slot is reached from the home of a hash within a bound, over slots that were all used. -/
def Path (slots : Array (Slot κ ν)) (bound : Nat) (hash : UInt32) (i : Nat) : Prop :=
  ∃ distance ≤ bound, distance < slots.size ∧ position slots.size hash distance = i ∧
    ∀ j < distance, slots[position slots.size hash j]? ≠ some .empty

/-- A path within a bound is within every larger one. -/
theorem Path.mono (h : Path slots bound hash i) {bound' : Nat} (hle : bound ≤ bound') :
    Path slots bound' hash i := by
  obtain ⟨distance, hbound, hrest⟩ := h
  exact ⟨distance, Nat.le_trans hbound hle, hrest⟩

/-- A write of something else makes no slot unused that was used, and no slot a tombstone that was
none. -/
theorem write_ne {other : Slot κ ν} (h : slots[j]? ≠ some other) (hslot : slot ≠ other) (k : Nat) :
    (slots.setIfInBounds k slot)[j]? ≠ some other := by
  rw [Array.getElem?_setIfInBounds]
  split
  · split
    · simpa using hslot
    · simp
  · exact h

/-- A write that leaves no unused slot behind keeps every path. -/
theorem Path.write (h : Path slots bound hash i) (hslot : slot ≠ .empty) (k : Nat) :
    Path (slots.setIfInBounds k slot) bound hash i := by
  obtain ⟨distance, hbound, hlt, hposition, hused⟩ := h
  rw [Path, Array.size_setIfInBounds]
  exact ⟨distance, hbound, hlt, hposition, fun j hj => write_ne (hused j hj) hslot k⟩

/-! ## Free slots -/

/-- The first slot without an entry on the way of a hash. -/
structure Free (slots : Array (Slot κ ν)) (hash : UInt32) (i distance : Nat) : Prop where
  lt : distance < slots.size
  position : position slots.size hash distance = i
  vacant : (slots[i]?).bind Slot.entry? = none
  occupied : ∀ j < distance, ((slots[ProbeMap.position slots.size hash j]?).bind Slot.entry?).isSome

/-- The slot found has no entry, and all slots probed in front of it have one. -/
theorem freeFrom_some {distance start : Nat}
    (h : freeFrom slots hash count start = some (i, distance)) :
    start ≤ distance ∧ distance < start + count ∧ position slots.size hash distance = i ∧
      (slots[i]?).bind Slot.entry? = none ∧ ∀ j, start ≤ j → j < distance →
        ((slots[position slots.size hash j]?).bind Slot.entry?).isSome := by
  induction count generalizing start with
  | zero => cases h
  | succ count ih =>
      rw [freeFrom] at h
      split at h
      · rename_i hfull
        obtain ⟨hstart, hlt, hposition, hvacant, hoccupied⟩ := ih h
        refine ⟨by omega, by omega, hposition, hvacant, fun j hj hjd => ?_⟩
        rcases Nat.eq_or_lt_of_le hj with rfl | hj
        · exact hfull
        · exact hoccupied j hj hjd
      · rename_i hvacant
        cases h
        exact ⟨Nat.le_refl _, by omega, rfl, by simpa using hvacant, fun j hj hjd => by omega⟩

/-- When no slot is found, all slots probed have an entry. -/
theorem freeFrom_none {start : Nat} (h : freeFrom slots hash count start = none) (hj : start ≤ j)
    (hlt : j < start + count) :
    ((slots[position slots.size hash j]?).bind Slot.entry?).isSome := by
  induction count generalizing start with
  | zero => omega
  | succ count ih =>
      rw [freeFrom] at h
      split at h
      · rename_i hfull
        rcases Nat.eq_or_lt_of_le hj with rfl | hj
        · exact hfull
        · exact ih h hj (by omega)
      · cases h

/-- The slot found is the first one without an entry on the way of its hash. -/
theorem freeSlot_free {distance : Nat} (hpos : 0 < slots.size)
    (h : freeSlot slots hash bound = some (i, distance)) : Free slots hash i distance := by
  obtain ⟨-, hlt, hposition, hvacant, hoccupied⟩ := freeFrom_some h
  exact ⟨by omega, hposition, hvacant, fun j hj => hoccupied j (Nat.zero_le j) hj⟩

/-- Slots that do not all hold entries have a free one on the way of every hash. -/
theorem exists_freeSlot (h : (entriesOf slots).length < slots.size) (hash : UInt32) :
    ∃ i distance, freeSlot slots hash (slots.size - 1) = some (i, distance) := by
  cases hfree : freeSlot slots hash (slots.size - 1) with
  | some found => exact ⟨found.1, found.2, rfl⟩
  | none =>
      have hfull : ∀ slot ∈ slots.toList, slot.entry?.isSome := by
        intro slot hslot
        obtain ⟨i, hi, rfl⟩ := List.getElem_of_mem hslot
        rw [Array.length_toList] at hi
        obtain ⟨distance, hlt, rfl⟩ := exists_position hash hi
        have hsome := freeFrom_none hfree (Nat.zero_le distance) (by omega)
        rwa [Array.getElem?_eq_getElem hi, Option.bind_some] at hsome
      have hlength : (entriesOf slots).length = slots.size := by
        rw [entriesOf, List.filterMap_length_eq_length.mpr hfull, Array.length_toList]
      omega

/-- A free slot is one of the slots. -/
theorem Free.index_lt (h : Free slots hash i j) : i < slots.size := by
  rw [← h.position]
  exact position_lt (Nat.zero_lt_of_lt h.lt) hash j

/-- A free slot holds something that is not an entry. -/
theorem Free.exists_slot (h : Free slots hash i j) :
    ∃ slot, slots[i]? = some slot ∧ slot.entry? = none := by
  have hvacant := h.vacant
  rw [Array.getElem?_eq_getElem h.index_lt, Option.bind_some] at hvacant
  exact ⟨_, Array.getElem?_eq_getElem h.index_lt, hvacant⟩

/-- The entries after a free slot was taken. -/
theorem Free.entriesOf_take (h : Free slots hash i j) (e : ProbeEntry κ ν) :
    (entriesOf (slots.setIfInBounds i (.occupied e))).Perm (e :: entriesOf slots) := by
  obtain ⟨slot, hslot, hnone⟩ := h.exists_slot
  obtain ⟨front, back, hentries, hwrite⟩ := entriesOf_write hslot
  rw [hwrite, hentries, hnone]
  simp [Slot.entry?]

/-- Taking a free slot uses up its tombstone, if it had one. -/
theorem Free.tombstonesOf_take (h : Free slots hash i j) (e : ProbeEntry κ ν) :
    tombstonesOf (slots.setIfInBounds i (.occupied e)) =
      if isTombstone slots i then tombstonesOf slots - 1 else tombstonesOf slots := by
  obtain ⟨slot, hslot, -⟩ := h.exists_slot
  have hcount := tombstonesOf_write hslot (.occupied e)
  rw [isTombstone_eq hslot] at hcount
  have hnone : tombstonesOf #[(Slot.occupied e : Slot κ ν)] = 0 := rfl
  by_cases htomb : isTombstone slots i = true
  · rw [if_pos htomb] at hcount ⊢
    omega
  · rw [if_neg htomb] at hcount ⊢
    omega

/-- A free slot is reached within every bound that covers its distance. -/
theorem Free.path (h : Free slots hash i j) (hbound : j ≤ bound) : Path slots bound hash i := by
  refine ⟨j, hbound, h.lt, h.position, fun k hk hempty => ?_⟩
  have hsome := h.occupied k hk
  rw [hempty] at hsome
  cases hsome

/-! ## Searchable tables -/

/-- No search overlooks an entry. -/
structure Searchable (slots : Array (Slot κ ν)) (bound : Nat) (filter : BloomFilter) : Prop where
  slots_pos : 0 < slots.size
  shaped : filter.Shaped
  path : ∀ (i : Nat) (e : ProbeEntry κ ν), slots[i]? = some (.occupied e) →
    Path slots bound e.hash i
  filtered : ∀ (i : Nat) (e : ProbeEntry κ ν), slots[i]? = some (.occupied e) →
    filter.containsHash e.hash.toUInt64 = true

/-- Slots that were never used can be searched. -/
theorem Searchable.empty (hcapacity : 0 < capacity) (hshaped : filter.Shaped) (bound : Nat) :
    Searchable (emptySlots capacity : Array (Slot κ ν)) bound filter := by
  have hnone : ∀ (i : Nat) (e : ProbeEntry κ ν),
      (emptySlots capacity : Array (Slot κ ν))[i]? ≠ some (.occupied e) := fun i e h => by
    rw [emptySlots, Array.getElem?_replicate] at h
    split at h <;> cases h
  exact ⟨by rwa [emptySlots, Array.size_replicate], hshaped, fun i e h => (hnone i e h).elim,
    fun i e h => (hnone i e h).elim⟩

/-- Fresh slots have no entries. -/
theorem entriesOf_emptySlots (capacity : Nat) :
    entriesOf (emptySlots capacity : Array (Slot κ ν)) = [] := by
  rw [entriesOf, emptySlots, Array.toList_replicate]
  exact List.filterMap_replicate_of_none rfl

/-- Fresh slots have no tombstones. -/
theorem tombstonesOf_emptySlots (capacity : Nat) :
    tombstonesOf (emptySlots capacity : Array (Slot κ ν)) = 0 := by
  rw [tombstonesOf, emptySlots, Array.toList_replicate, List.countP_replicate]
  rfl

/-- After a write, an occupied slot was occupied so before or is the one written. -/
theorem getElem?_write_eq_occupied (h : (slots.setIfInBounds k slot)[i]? = some (.occupied e)) :
    (i = k ∧ slot = .occupied e) ∨ slots[i]? = some (.occupied e) := by
  rw [Array.getElem?_setIfInBounds] at h
  split at h
  · rename_i hki
    split at h
    · exact .inl ⟨hki.symm, Option.some.inj h⟩
    · cases h
  · exact .inr h

/-- Leaving a tombstone keeps a table searchable. -/
theorem Searchable.vacate (h : Searchable slots bound filter) (k : Nat) :
    Searchable (slots.setIfInBounds k .deleted) bound filter where
  slots_pos := by
    rw [Array.size_setIfInBounds]
    exact h.slots_pos
  shaped := h.shaped
  path i e he := by
    obtain ⟨-, hslot⟩ | he := getElem?_write_eq_occupied he
    · cases hslot
    · exact (h.path i e he).write (by nofun) k
  filtered i e he := by
    obtain ⟨-, hslot⟩ | he := getElem?_write_eq_occupied he
    · cases hslot
    · exact h.filtered i e he

/-- Exchanging an entry for one with the same hash keeps a table searchable. -/
theorem Searchable.replace (h : Searchable slots bound filter)
    (hk : slots[k]? = some (.occupied e)) (hhash : e'.hash = e.hash) :
    Searchable (slots.setIfInBounds k (.occupied e')) bound filter where
  slots_pos := by
    rw [Array.size_setIfInBounds]
    exact h.slots_pos
  shaped := h.shaped
  path i a ha := by
    obtain ⟨rfl, hslot⟩ | ha := getElem?_write_eq_occupied ha
    · cases hslot
      rw [hhash]
      exact (h.path i e hk).write (by nofun) i
    · exact (h.path i a ha).write (by nofun) k
  filtered i a ha := by
    obtain ⟨rfl, hslot⟩ | ha := getElem?_write_eq_occupied ha
    · cases hslot
      rw [hhash]
      exact h.filtered i e hk
    · exact h.filtered i a ha

/-- Taking a free slot keeps a table searchable when the bound and the filter take note. -/
theorem Searchable.take (h : Searchable slots bound filter) (hfree : Free slots e.hash k j) :
    Searchable (slots.setIfInBounds k (.occupied e)) (max bound j)
      (filter.insertHash e.hash.toUInt64).2 where
  slots_pos := by
    rw [Array.size_setIfInBounds]
    exact h.slots_pos
  shaped := h.shaped.insertHash _
  path i a ha := by
    obtain ⟨rfl, hslot⟩ | ha := getElem?_write_eq_occupied ha
    · cases hslot
      exact (hfree.path (Nat.le_max_right bound j)).write (by nofun) i
    · exact ((h.path i a ha).mono (Nat.le_max_left bound j)).write (by nofun) k
  filtered i a ha := by
    obtain ⟨-, hslot⟩ | ha := getElem?_write_eq_occupied ha
    · cases hslot
      exact h.shaped.containsHash_insertHash_self _
    · exact h.shaped.containsHash_insertHash (h.filtered i a ha) _

/-! ## Lookups -/

section Lookup

variable {m m' : ProbeMap κ ν} {key : κ}

/-- A slot holds a key when its entry has the hash and a key that compares equal. -/
theorem holds_iff : m.holds key hash i = true ↔ ∃ e, m.slots[i]? = some (.occupied e) ∧
    e.hash = hash ∧ m.hasher.comparer.equals e.key key = true := by
  unfold holds
  rcases m.slots[i]? with _ | _ | _ | e <;> simp [Slot.entry?]

/-- The slot found holds the key. -/
theorem probe_some {distance visited : Nat}
    (h : (m.probe key hash count distance visited).1 = some i) : m.holds key hash i = true := by
  induction count generalizing distance visited with
  | zero => cases h
  | succ count ih =>
      rw [probe] at h
      split at h
      · cases h
      · split at h
        · rename_i hholds
          cases h
          exact hholds
        · exact ih h

/-- When no slot is found, no slot on the way holds the key, up to one that was never used. -/
theorem probe_none {distance visited : Nat}
    (h : (m.probe key hash count distance visited).1 = none) (hj : distance ≤ j)
    (hlt : j < distance + count)
    (hused : ∀ k ≤ j, m.isUnused (position m.slots.size hash k) = false) :
    m.holds key hash (position m.slots.size hash j) = false := by
  induction count generalizing distance visited with
  | zero => omega
  | succ count ih =>
      rw [probe] at h
      rw [if_neg (by simp [hused distance hj])] at h
      split at h
      · cases h
      · rename_i hholds
        rcases Nat.eq_or_lt_of_le hj with rfl | hj
        · simpa using hholds
        · exact ih h hj (by omega)

/-- Lookups change the counters and the journal of a map, and neither its slots nor its comparer. -/
def SameTable (m m' : ProbeMap κ ν) : Prop :=
  ∃ hasher journal filteredLookups, hasher.comparer = m.hasher.comparer ∧
    m' = { m with hasher, journal, filteredLookups }

/-- A lookup keeps the slots. -/
theorem SameTable.slots_eq (h : m.SameTable m') : m'.slots = m.slots := by
  obtain ⟨_, _, _, _, rfl⟩ := h
  rfl

/-- A lookup keeps the count of removals. -/
theorem SameTable.removals_eq (h : m.SameTable m') : m'.removals = m.removals := by
  obtain ⟨_, _, _, _, rfl⟩ := h
  rfl

/-- Recording a lookup changes the counters and the journal only. -/
theorem sameTable_record (m : ProbeMap κ ν) (visited : Nat) :
    m.SameTable
      { m with
        hasher := (m.hasher.record visited m.journal).1
        journal := (m.hasher.record visited m.journal).2 } :=
  ⟨_, _, m.filteredLookups, KeyHasher.record_comparer m.hasher visited m.journal, rfl⟩

/-- A search changes the counters and the journal only. -/
theorem find_sameTable (m : ProbeMap κ ν) (key : κ) (hash : UInt32) :
    m.SameTable (m.find key hash).2 := by
  unfold ProbeMap.find
  split
  · exact m.sameTable_record _
  · exact ⟨m.hasher, m.journal, _, rfl, rfl⟩

/-- A probe that finds nothing overlooked nothing. -/
theorem Searchable.absent_of_probe (h : Searchable m.slots m.maxDisplacement m.filter)
    {visited : Nat}
    (hprobe : (m.probe key hash (min m.maxDisplacement (m.slots.size - 1) + 1) 0 visited).1 = none)
    (he : e ∈ m.entries) (hhash : e.hash = hash) : m.hasher.comparer.equals e.key key = false := by
  obtain ⟨i, hi⟩ := mem_entriesOf.mp he
  obtain ⟨distance, hbound, hlt, hposition, hused⟩ := h.path i e hi
  rw [hhash] at hposition hused
  -- the slots up to the entry are all used, the last one because the entry is in it
  have hunused : ∀ k ≤ distance, m.isUnused (position m.slots.size hash k) = false := by
    intro k hk
    have hne : m.slots[position m.slots.size hash k]? ≠ some .empty := by
      rcases Nat.eq_or_lt_of_le hk with rfl | hk
      · rw [hposition, hi]
        nofun
      · exact hused k hk
    unfold isUnused
    split
    · contradiction
    · rfl
  -- so the probe got there, and would have taken the entry for the key
  have hholds := probe_none hprobe (Nat.zero_le distance) (by omega) hunused
  rw [hposition] at hholds
  by_contra hequals
  rw [Bool.not_eq_false] at hequals
  rw [holds_iff.mpr ⟨e, hi, hhash, hequals⟩] at hholds
  cases hholds

/-- In a searchable table, a search finds a slot with the key, or no entry has it. -/
theorem Searchable.find (h : Searchable m.slots m.maxDisplacement m.filter) (key : κ)
    (hash : UInt32) : ∃ m', m.SameTable m' ∧
    ((m.find key hash = (none, m') ∧ ∀ e ∈ m.entries, e.hash = hash →
        m.hasher.comparer.equals e.key key = false) ∨
      ∃ i e, m.find key hash = (some i, m') ∧ m.slots[i]? = some (.occupied e) ∧
        e.hash = hash ∧ m.hasher.comparer.equals e.key key = true) := by
  unfold ProbeMap.find
  split
  · rcases hprobe : m.probe key hash (min m.maxDisplacement (m.slots.size - 1) + 1) 0 0 with
      ⟨_ | i, visited⟩
    · exact ⟨_, m.sameTable_record visited, .inl ⟨rfl, fun e he hhash =>
        h.absent_of_probe (congrArg Prod.fst hprobe) he hhash⟩⟩
    · obtain ⟨e, he, hhash, hequals⟩ := holds_iff.mp (probe_some (congrArg Prod.fst hprobe))
      exact ⟨_, m.sameTable_record visited, .inr ⟨i, e, rfl, he, hhash, hequals⟩⟩
  · rename_i hmember
    refine ⟨_, ⟨m.hasher, m.journal, _, rfl, rfl⟩, .inl ⟨rfl, fun e he hhash => ?_⟩⟩
    obtain ⟨i, hi⟩ := mem_entriesOf.mp he
    rw [← hhash] at hmember
    exact (hmember (h.filtered i e hi)).elim

end Lookup

end BoundedTables.ProbeMap
