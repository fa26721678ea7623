import BoundedTables.Proofs.ProbeMap.Search
import BoundedTables.Proofs.Sizing.LoadFactor
import BoundedTables.Proofs.Sizing.PowerOfTwo

/-!
# Probe tables under insertion, removal and rebuilds

`Sound` is what every operation keeps, whatever the comparer: the table is searchable, entries and
tombstones are counted, and the slot count is a power of two above the number of entries. A slot
without an entry is then on the way of every hash, so a rebuild finds a place for every entry
(`Sound.rebuild`), an insertion only fails when the table cannot grow (`Sound.insertNew`), and a
removal loses no entry but its own (`Sound.vacate`, `Sound.maintain`).
-/

namespace BoundedTables.ProbeMap

open Hashing Sizing

variable {κ ν : Type} {m m' m'' : ProbeMap κ ν} {e : ProbeEntry κ ν} {capacity i distance : Nat}

/-! ## Invariants -/

/-- The table is searchable and its tombstones are counted. -/
structure Tidy (m : ProbeMap κ ν) : Prop where
  searchable : Searchable m.slots m.maxDisplacement m.filter
  tombstones : tombstonesOf m.slots = m.tombstones

/-- A slot count that a map may have: a power of two, above the number of entries and not below
the initial count. -/
structure Suits (m : ProbeMap κ ν) (capacity : Nat) : Prop where
  pow : ∃ k, capacity = 2 ^ k
  room : m.live < capacity
  initial : m.minCapacity ≤ capacity

/-- What every operation keeps. -/
structure Sound (m : ProbeMap κ ν) : Prop extends Tidy m where
  live : m.entries.length = m.live
  suits : m.Suits m.slots.size
  initial : ∃ k, m.minCapacity = 2 ^ k

/-- The same entries in other slots, with another filter. Nothing else changes but the counters of
rebuilds and the journal. -/
structure Rearranged (m m' : ProbeMap κ ν) : Prop where
  frame : ∃ slots filter tombstones maxDisplacement resizes rehashes shrinks journal, m' =
    { m with slots, filter, tombstones, maxDisplacement, resizes, rehashes, shrinks, journal }
  entries : m'.entries.Perm m.entries

/-- A table is its own rearrangement. -/
theorem Rearranged.refl (m : ProbeMap κ ν) : m.Rearranged m := ⟨⟨_, _, _, _, _, _, _, _, rfl⟩, .rfl⟩

/-- Rearranging twice is rearranging. -/
theorem Rearranged.trans (h : m.Rearranged m') (h' : m'.Rearranged m'') : m.Rearranged m'' := by
  obtain ⟨⟨_, _, _, _, _, _, _, _, rfl⟩, hentries⟩ := h
  obtain ⟨⟨_, _, _, _, _, _, _, _, rfl⟩, hentries'⟩ := h'
  exact ⟨⟨_, _, _, _, _, _, _, _, rfl⟩, hentries'.trans hentries⟩

/-- Rearranging entries keeps their count. -/
theorem Rearranged.live_eq (h : m.Rearranged m') : m'.live = m.live := by
  obtain ⟨⟨_, _, _, _, _, _, _, _, rfl⟩, -⟩ := h
  rfl

/-- Rearranging entries is no removal. -/
theorem Rearranged.removals_eq (h : m.Rearranged m') : m'.removals = m.removals := by
  obtain ⟨⟨_, _, _, _, _, _, _, _, rfl⟩, -⟩ := h
  rfl

/-- Rearranging entries keeps the hasher. -/
theorem Rearranged.hasher_eq (h : m.Rearranged m') : m'.hasher = m.hasher := by
  obtain ⟨⟨_, _, _, _, _, _, _, _, rfl⟩, -⟩ := h
  rfl

/-- Rearranging entries keeps the initial slot count. -/
theorem Rearranged.minCapacity_eq (h : m.Rearranged m') : m'.minCapacity = m.minCapacity := by
  obtain ⟨⟨_, _, _, _, _, _, _, _, rfl⟩, -⟩ := h
  rfl

/-- Rearranging entries keeps the version. -/
theorem Rearranged.version_eq (h : m.Rearranged m') : m'.version = m.version := by
  obtain ⟨⟨_, _, _, _, _, _, _, _, rfl⟩, -⟩ := h
  rfl

/-- A suitable slot count is positive. -/
theorem Suits.pos (h : m.Suits capacity) : 0 < capacity := Nat.zero_lt_of_lt h.room

/-- Twice a suitable slot count is suitable. -/
theorem Suits.double (h : m.Suits capacity) : m.Suits (2 * capacity) := by
  obtain ⟨⟨k, rfl⟩, hroom, hinitial⟩ := h
  exact ⟨⟨k + 1, (Nat.pow_succ').symm⟩, by omega, by omega⟩

/-- A lookup keeps a table sound. -/
theorem Sound.same (h : m.Sound) (hs : m.SameTable m') : m'.Sound := by
  obtain ⟨_, _, _, _, rfl⟩ := hs
  exact ⟨⟨h.searchable, h.tombstones⟩, h.live, ⟨h.suits.pow, h.suits.room, h.suits.initial⟩,
    h.initial⟩

/-- A rearranged table is sound when its slots are in order and suit the map. -/
theorem Rearranged.sound (h : m.Rearranged m') (hsound : m.Sound) (htidy : m'.Tidy)
    (hsuits : m.Suits m'.slots.size) : m'.Sound where
  toTidy := htidy
  live := by rw [h.entries.length_eq, hsound.live, h.live_eq]
  suits := ⟨hsuits.pow, by rw [h.live_eq]; exact hsuits.room,
    by rw [h.minCapacity_eq]; exact hsuits.initial⟩
  initial := by rw [h.minCapacity_eq]; exact hsound.initial

/-! ## Rebuilding -/

/-- An entry that is moved finds a free slot. -/
theorem Tidy.reinsert (h : m.Tidy) (hroom : m.entries.length < m.slots.size)
    (e : ProbeEntry κ ν) : (m.reinsert e).Tidy ∧ (m.reinsert e).slots.size = m.slots.size ∧
      (m.reinsert e).entries.Perm (e :: m.entries) ∧
      ∃ slots filter tombstones maxDisplacement,
        m.reinsert e = { m with slots, filter, tombstones, maxDisplacement } := by
  obtain ⟨i, distance, hslot⟩ := exists_freeSlot hroom e.hash
  have hfree := freeSlot_free h.searchable.slots_pos hslot
  have hreinsert : m.reinsert e =
      ({ m with filter := (m.filter.insertHash e.hash.toUInt64).2 } : ProbeMap κ ν).place i
        distance e := by
    unfold ProbeMap.reinsert
    dsimp only
    rw [hslot]
  have htombstones := hfree.tombstonesOf_take e
  rw [h.tombstones] at htombstones
  rw [hreinsert]
  exact ⟨⟨h.searchable.take hfree, htombstones⟩, Array.size_setIfInBounds,
    hfree.entriesOf_take e, _, _, _, _, rfl⟩

/-- Moving entries into a table with room for all of them loses none. -/
theorem Tidy.foldl_reinsert (h : m.Tidy) (moved : List (ProbeEntry κ ν))
    (hroom : m.entries.length + moved.length ≤ m.slots.size) :
    (moved.foldl ProbeMap.reinsert m).Tidy ∧
      (moved.foldl ProbeMap.reinsert m).slots.size = m.slots.size ∧
      (moved.foldl ProbeMap.reinsert m).entries.Perm (moved ++ m.entries) ∧
      ∃ slots filter tombstones maxDisplacement, moved.foldl ProbeMap.reinsert m =
        { m with slots, filter, tombstones, maxDisplacement } := by
  induction moved generalizing m with
  | nil => exact ⟨h, rfl, .rfl, _, _, _, _, rfl⟩
  | cons e moved ih =>
      rw [List.length_cons] at hroom
      obtain ⟨htidy, hsize, hentries, slots, filter, tombstones, maxDisplacement, hframe⟩ :=
        h.reinsert (by omega) e
      obtain ⟨htidy', hsize', hentries', slots', filter', tombstones', maxDisplacement',
        hframe'⟩ := ih htidy (by rw [hentries.length_eq, List.length_cons, hsize]; omega)
      refine ⟨htidy', hsize'.trans hsize, ?_, slots', filter', tombstones', maxDisplacement',
        by rw [List.foldl_cons, hframe', hframe]⟩
      exact hentries'.trans ((hentries.append_left moved).trans List.perm_middle)

/-- The fresh table that a rebuild moves the entries into. -/
def emptied (m : ProbeMap κ ν) (capacity : Nat) : ProbeMap κ ν :=
  { m with
    slots := emptySlots capacity
    filter := filterFor capacity m.falsePositiveRate
    tombstones := 0
    maxDisplacement := 0 }

/-- A fresh table is searchable and has its tombstones counted. -/
theorem emptied_tidy (m : ProbeMap κ ν) (h : 0 < capacity) : (m.emptied capacity).Tidy :=
  ⟨Searchable.empty h (BloomFilter.build_shaped _) 0, tombstonesOf_emptySlots capacity⟩

/-- A fresh table has no entries. -/
theorem emptied_entries (m : ProbeMap κ ν) (capacity : Nat) : (m.emptied capacity).entries = [] :=
  entriesOf_emptySlots capacity

/-- A fresh table has the slots that were asked for. -/
theorem emptied_size (m : ProbeMap κ ν) (capacity : Nat) :
    (m.emptied capacity).slots.size = capacity :=
  Array.size_replicate

/-- A rebuild moves the entries, and counts and reports itself. -/
theorem rebuild_eq (m : ProbeMap κ ν) (capacity : Nat) (reason : RebuildReason) :
    ∃ resizes rehashes shrinks journal, m.rebuild capacity reason =
      { m.entries.foldl ProbeMap.reinsert (m.emptied capacity) with
        resizes, rehashes, shrinks, journal } := by
  cases reason <;> exact ⟨_, _, _, _, rfl⟩

/-- A rebuild keeps every entry. -/
theorem Sound.rebuild (h : m.Sound) (hsuits : m.Suits capacity) (reason : RebuildReason) :
    (m.rebuild capacity reason).Sound ∧ m.Rearranged (m.rebuild capacity reason) ∧
      (m.rebuild capacity reason).slots.size = capacity := by
  obtain ⟨htidy, hsize, hentries, slots, filter, tombstones, maxDisplacement, hframe⟩ :=
    (m.emptied_tidy hsuits.pos).foldl_reinsert m.entries <| by
      rw [emptied_entries, emptied_size, h.live, List.length_nil, Nat.zero_add]
      exact Nat.le_of_lt hsuits.room
  rw [emptied_entries, List.append_nil] at hentries
  rw [emptied_size] at hsize
  obtain ⟨resizes, rehashes, shrinks, journal, hrebuild⟩ := m.rebuild_eq capacity reason
  rw [hframe] at htidy hsize hentries hrebuild
  rw [hrebuild]
  have hmoved : m.Rearranged { m with
      slots, filter, tombstones, maxDisplacement, resizes, rehashes, shrinks, journal } :=
    ⟨⟨_, _, _, _, _, _, _, _, rfl⟩, hentries⟩
  exact ⟨hmoved.sound h ⟨htidy.searchable, htidy.tombstones⟩ (hsize ▸ hsuits), hmoved, hsize⟩

/-! ## Making room -/

/-- A table that cannot grow has more than half of the largest slot count. -/
theorem Sound.grow (h : m.Sound) :
    (∃ m', m.grow = .ok m' ∧ m'.Sound ∧ m.Rearranged m' ∧ m'.slots.size = 2 * m.slots.size) ∨
      m.grow = .error (.capacityExhausted m.slots.size) ∧ maxPowerOfTwo < 2 * m.slots.size := by
  unfold ProbeMap.grow grownCapacity
  split
  · exact .inl ⟨_, rfl, h.rebuild h.suits.double .grow⟩
  · exact .inr ⟨rfl, by omega⟩

/-- A table that admits a number of used slots has more slots than that. -/
theorem lt_size_of_admits {used : Nat} (hpos : 0 < m.slots.size) (h : m.admits used = true) :
    used < m.slots.size := by
  have hle : used * m.loadFactor.denominator ≤ m.slots.size * m.loadFactor.numerator :=
    of_decide_eq_true h
  have hlt : m.slots.size * m.loadFactor.numerator < m.slots.size * m.loadFactor.denominator :=
    Nat.mul_lt_mul_of_pos_left m.loadFactor.numerator_lt hpos
  exact Nat.lt_of_mul_lt_mul_right (Nat.lt_of_le_of_lt hle hlt)

/-- Making room keeps the entries and leaves a slot for one more. -/
theorem Sound.reserveOne (h : m.Sound) :
    (∃ m', m.reserveOne = .ok m' ∧ m'.Sound ∧ m.Rearranged m' ∧ m'.live + 1 < m'.slots.size ∧
        m'.slots.size ≤ 2 * m.slots.size) ∨
      m.reserveOne = .error (.capacityExhausted m.slots.size) ∧
        maxPowerOfTwo < 2 * m.slots.size := by
  have hroom := h.suits.room
  unfold ProbeMap.reserveOne
  by_cases hadmits : m.admits (m.live + 1) = true
  · have hlt := lt_size_of_admits h.suits.pos hadmits
    rw [if_neg (by simp [hadmits])]
    -- whether or not the tombstones are swept, the live entries admit one more
    split
    · obtain ⟨hsound, hmoved, hsize⟩ := h.rebuild h.suits .rehash
      refine .inl ⟨_, rfl, hsound, hmoved, ?_, by omega⟩
      rw [hmoved.live_eq, hsize]
      exact hlt
    · exact .inl ⟨m, rfl, h, .refl m, hlt, by omega⟩
  · rw [if_pos (by simp [hadmits])]
    rcases h.grow with ⟨m', hgrow, hsound, hmoved, hsize⟩ | hfull
    · refine .inl ⟨m', hgrow, hsound, hmoved, ?_, by omega⟩
      rw [hmoved.live_eq, hsize]
      omega
    · exact .inr hfull

/-- A claimed slot is free, in a table that may have grown. -/
theorem Sound.claimSlot (h : m.Sound) (hash : UInt32) : ∃ m', m'.Sound ∧ m.Rearranged m' ∧
    m.slots.size ≤ m'.slots.size ∧ m'.slots.size ≤ 2 * m.slots.size ∧
    ((∃ slot, m.claimSlot hash = (.ok slot, m') ∧
        ∀ i distance, slot = some (i, distance) → Free m'.slots hash i distance) ∨
      m.claimSlot hash = (.error (.capacityExhausted m'.slots.size), m') ∧
        maxPowerOfTwo < 2 * m'.slots.size) := by
  unfold ProbeMap.claimSlot
  split
  · rename_i found hfound
    refine ⟨m, h, .refl m, Nat.le_refl _, by omega, .inl ⟨_, rfl, fun i distance heq => ?_⟩⟩
    exact freeSlot_free h.suits.pos (hfound.trans heq)
  · split
    · rcases h.grow with ⟨m', hgrow, hsound, hmoved, hsize⟩ | ⟨hgrow, hfull⟩
      · refine ⟨m', hsound, hmoved, by omega, by omega, .inl ⟨_, by rw [hgrow], ?_⟩⟩
        exact fun i distance hfound => freeSlot_free hsound.suits.pos hfound
      · exact ⟨m, h, .refl m, Nat.le_refl _, by omega, .inr ⟨by rw [hgrow], hfull⟩⟩
    · exact ⟨m, h, .refl m, Nat.le_refl _, by omega, .inl ⟨none, rfl, nofun⟩⟩

/-- A slot can always be forced. -/
theorem Sound.forceSlot (h : m.Sound) (hash : UInt32) : ∃ i distance m',
    m.forceSlot hash = (.ok (i, distance), m') ∧ m'.Sound ∧ m.Rearranged m' ∧
      m'.slots = m.slots ∧ Free m.slots hash i distance := by
  have hroom : (entriesOf m.slots).length < m.slots.size := by
    rw [show (entriesOf m.slots).length = _ from h.live]
    exact h.suits.room
  obtain ⟨i, distance, hfound⟩ := exists_freeSlot hroom hash
  have hforced : m.Rearranged
      { m with journal := m.journal.log (.probeForced distance m.maxProbeDistance) } :=
    ⟨⟨_, _, _, _, _, _, _, _, rfl⟩, .rfl⟩
  refine ⟨i, distance, _, ?_, hforced.sound h ⟨h.searchable, h.tombstones⟩ h.suits, hforced, rfl,
    freeSlot_free h.suits.pos hfound⟩
  unfold ProbeMap.forceSlot
  rw [hfound]

/-! ## Inserting -/

/-- Filling a slot keeps the number of slots. -/
theorem occupy_size (m : ProbeMap κ ν) (i distance : Nat) (e : ProbeEntry κ ν) :
    (m.occupy i distance e).slots.size = m.slots.size :=
  Array.size_setIfInBounds

/-- A new entry joins the others in a free slot. -/
theorem Sound.occupy (h : m.Sound) (hroom : m.live + 1 < m.slots.size)
    (hfree : Free m.slots e.hash i distance) :
    (m.occupy i distance e).Sound ∧ (m.occupy i distance e).entries.Perm (e :: m.entries) := by
  have hentries : (m.occupy i distance e).entries.Perm (e :: m.entries) := hfree.entriesOf_take e
  have htombstones := hfree.tombstonesOf_take e
  rw [h.tombstones] at htombstones
  refine ⟨⟨⟨h.searchable.take hfree, htombstones⟩, ?_, ?_, h.initial⟩, hentries⟩
  · rw [hentries.length_eq, List.length_cons, h.live]
    rfl
  · rw [occupy_size]
    exact ⟨h.suits.pow, hroom, h.suits.initial⟩

/-- A new key is added, which is a new version, or the table cannot grow and keeps its entries. -/
theorem Sound.insertNew (h : m.Sound) (e : ProbeEntry κ ν) : ∃ m', m'.Sound ∧
    m'.hasher = m.hasher ∧ m'.removals = m.removals ∧ m'.minCapacity = m.minCapacity ∧
    m'.slots.size ≤ 4 * m.slots.size ∧
    ((m.insertNew e = (.ok none, m') ∧ m'.version = m.version + 1 ∧
        m'.entries.Perm (e :: m.entries)) ∨
      (m.insertNew e = (.error (.capacityExhausted m'.slots.size), m') ∧
        m'.version = m.version ∧ m'.entries.Perm m.entries ∧
        maxPowerOfTwo < 2 * m'.slots.size)) := by
  -- once room is made, the entry goes into a free slot of a table with the same entries
  have hjoin {m₁ : ProbeMap κ ν} (hsound : m₁.Sound) (hmoved : m.Rearranged m₁)
      (hroom : m₁.live + 1 < m₁.slots.size) (hsize : m₁.slots.size ≤ 4 * m.slots.size) {i distance}
      (hfree : Free m₁.slots e.hash i distance) :
      (m₁.occupy i distance e).Sound ∧ (m₁.occupy i distance e).hasher = m.hasher ∧
        (m₁.occupy i distance e).removals = m.removals ∧
        (m₁.occupy i distance e).minCapacity = m.minCapacity ∧
        (m₁.occupy i distance e).slots.size ≤ 4 * m.slots.size ∧
        (m₁.occupy i distance e).version = m.version + 1 ∧
        (m₁.occupy i distance e).entries.Perm (e :: m.entries) := by
    obtain ⟨hsound', hentries⟩ := hsound.occupy hroom hfree
    refine ⟨hsound', hmoved.hasher_eq, hmoved.removals_eq, hmoved.minCapacity_eq, ?_,
      congrArg (· + 1) hmoved.version_eq, hentries.trans (hmoved.entries.cons e)⟩
    rw [occupy_size]
    exact hsize
  unfold ProbeMap.insertNew
  rcases h.reserveOne with ⟨m₁, hreserve, hsound₁, hmoved₁, hroom₁, hsize₁⟩ | ⟨hreserve, hfull⟩
  · rw [hreserve]
    dsimp only
    obtain ⟨m₂, hsound₂, hmoved₂, hgrown₂, hsize₂, hclaim⟩ := hsound₁.claimSlot e.hash
    have hmoved := hmoved₁.trans hmoved₂
    have hroom₂ : m₂.live + 1 < m₂.slots.size := by
      rw [hmoved₂.live_eq]
      omega
    rcases hclaim with ⟨slot, hclaim, hfree⟩ | ⟨hclaim, hfull⟩
    · rw [hclaim]
      rcases slot with _ | ⟨i, distance⟩
      · -- forcing a slot writes none, so the table that is written has it free
        dsimp only
        obtain ⟨i, distance, m₃, hforce, hsound₃, hmoved₃, hslots, hfree⟩ :=
          hsound₂.forceSlot e.hash
        rw [hforce]
        rw [← hslots] at hfree hroom₂ hsize₂
        rw [← hmoved₃.live_eq] at hroom₂
        obtain ⟨hsound', hhasher, hremovals, hinitial, hsize, hversion, hentries⟩ :=
          hjoin hsound₃ (hmoved.trans hmoved₃) hroom₂ (by omega) hfree
        exact ⟨_, hsound', hhasher, hremovals, hinitial, hsize, .inl ⟨rfl, hversion, hentries⟩⟩
      · obtain ⟨hsound', hhasher, hremovals, hinitial, hsize, hversion, hentries⟩ :=
          hjoin hsound₂ hmoved hroom₂ (by omega) (hfree i distance rfl)
        exact ⟨_, hsound', hhasher, hremovals, hinitial, hsize, .inl ⟨rfl, hversion, hentries⟩⟩
    · rw [hclaim]
      exact ⟨m₂, hsound₂, hmoved.hasher_eq, hmoved.removals_eq, hmoved.minCapacity_eq, by omega,
        .inr ⟨rfl, hmoved.version_eq, hmoved.entries, hfull⟩⟩
  · rw [hreserve]
    exact ⟨m, h, rfl, rfl, rfl, by omega, .inr ⟨rfl, rfl, .rfl, hfull⟩⟩

/-! ## Changing and removing an entry -/

/-- Modifying an occupied slot writes its entry with another value. -/
theorem modifySlot_eq {slots : Array (Slot κ ν)} (h : slots[i]? = some (.occupied e))
    (f : ν → ν) :
    modifySlot slots i f = slots.setIfInBounds i (.occupied { e with value := f e.value }) := by
  have hi : i < slots.size := (Array.getElem?_eq_some_iff.mp h).1
  refine Array.ext_getElem? fun j => ?_
  rw [modifySlot, Array.getElem?_modify, Array.getElem?_setIfInBounds]
  split
  · rename_i hij
    rw [← hij, h]
    rfl
  · rfl

/-- Modifying a slot keeps the number of slots. -/
theorem modifySlot_size (slots : Array (Slot κ ν)) (i : Nat) (f : ν → ν) :
    (modifySlot slots i f).size = slots.size :=
  Array.size_modify

/-- The entry in a slot after its value was changed. -/
theorem modifySlot_getElem? {slots : Array (Slot κ ν)} (h : slots[i]? = some (.occupied e))
    (f : ν → ν) :
    (modifySlot slots i f)[i]? = some (.occupied { e with value := f e.value }) := by
  rw [modifySlot, Array.getElem?_modify, if_pos rfl, h]
  rfl

/-- The value in an occupied slot is that of its entry. -/
theorem value?_eq (h : m.slots[i]? = some (.occupied e)) : m.value? i = some e.value := by
  rw [value?, h]
  rfl

/-- Changing a value keeps the places of all entries. -/
theorem Sound.modifySlot (h : m.Sound) (hi : m.slots[i]? = some (.occupied e)) (f : ν → ν)
    (version : UInt64) :
    Sound { m with slots := ProbeMap.modifySlot m.slots i f, version } ∧
      ∃ front back, m.entries = front ++ e :: back ∧
        entriesOf (ProbeMap.modifySlot m.slots i f) =
          front ++ { e with value := f e.value } :: back := by
  obtain ⟨front, back, hentries, hwrite⟩ := entriesOf_write hi
  have htombstones := tombstonesOf_write hi (.occupied { e with value := f e.value })
  replace hwrite := hwrite (.occupied { e with value := f e.value })
  rw [modifySlot_eq hi]
  rw [Slot.entry?, Option.toList_some, List.append_assoc, List.singleton_append] at hentries hwrite
  refine ⟨⟨⟨h.searchable.replace hi rfl, ?_⟩, ?_, ?_, h.initial⟩, front, back, hentries, hwrite⟩
  · exact (Nat.add_right_cancel htombstones).trans h.tombstones
  · have hlive := h.live
    rw [ProbeMap.entries, ← entriesOf] at hlive ⊢
    rw [hwrite, ← hlive, hentries, List.length_append, List.length_append]
    rfl
  · rw [Array.size_setIfInBounds]
    exact ⟨h.suits.pow, h.suits.room, h.suits.initial⟩

/-- Vacating a slot counts one entry less. -/
theorem vacate_live (m : ProbeMap κ ν) (i : Nat) : (m.vacate i).live = m.live - 1 := rfl

/-- Vacating a slot keeps the number of slots. -/
theorem vacate_size (m : ProbeMap κ ν) (i : Nat) : (m.vacate i).slots.size = m.slots.size :=
  Array.size_setIfInBounds

/-- A removal keeps the other entries in their places. -/
theorem Sound.vacate (h : m.Sound) (hi : m.slots[i]? = some (.occupied e)) :
    (m.vacate i).Sound ∧ ∃ front back, m.entries = front ++ e :: back ∧
      (m.vacate i).entries = front ++ back := by
  obtain ⟨front, back, hentries, hwrite⟩ := entriesOf_write hi
  have htombstones := tombstonesOf_write hi .deleted
  replace hwrite := hwrite .deleted
  rw [Slot.entry?, Option.toList_some, List.append_assoc, List.singleton_append] at hentries
  rw [Slot.entry?, Option.toList_none, List.append_nil] at hwrite
  have hlive : (front ++ e :: back).length = m.live := hentries ▸ h.live
  rw [List.length_append, List.length_cons] at hlive
  have hroom := h.suits.room
  refine ⟨⟨⟨h.searchable.vacate i, ?_⟩, ?_, ?_, h.initial⟩, front, back, hentries, hwrite⟩
  · exact htombstones.trans (congrArg (· + 1) h.tombstones)
  · refine (congrArg List.length hwrite).trans ?_
    rw [List.length_append, vacate_live]
    omega
  · rw [vacate_size]
    exact ⟨h.suits.pow, by rw [vacate_live]; omega, h.suits.initial⟩

/-! ## Maintenance -/

/-- Whatever the load factor, a table that shrinks holds its entries within it: the places for
them, and one more, do not fit in a smaller power of two. -/
theorem fits_of_nextPowerOfTwo {f : LoadFactor} {live size : Nat}
    (h : nextPowerOfTwo (min (f.placesFor live) Binary64.maxWord + 1) = .ok size) :
    live * f.denominator ≤ size * f.numerator := by
  obtain ⟨hsize, hmax⟩ := nextPowerOfTwo_ok h
  obtain ⟨k, hk⟩ := ceilPowerOfTwo_eq_pow (min (f.placesFor live) Binary64.maxWord + 1)
  have hwanted := le_ceilPowerOfTwo (min (f.placesFor live) Binary64.maxWord + 1)
  rw [hsize, hk] at hmax
  rw [hk] at hwanted
  rw [hsize, hk]
  by_contra hlive
  have hplaces := f.pow_le_placesFor (Nat.le_of_not_le hlive)
  have hword : maxPowerOfTwo ≤ Binary64.maxWord := by decide
  omega

/-- A table that shrinks keeps more slots than entries. -/
theorem lt_of_nextPowerOfTwo {f : LoadFactor} {live size : Nat}
    (h : nextPowerOfTwo (min (f.placesFor live) Binary64.maxWord + 1) = .ok size) :
    live < size := by
  have hpos : 0 < size := by
    rw [(nextPowerOfTwo_ok h).1]
    exact Nat.lt_of_lt_of_le (Nat.succ_pos _) (le_ceilPowerOfTwo _)
  refine Nat.lt_of_mul_lt_mul_right ((fits_of_nextPowerOfTwo h).trans_lt ?_)
  exact Nat.mul_lt_mul_of_pos_left f.numerator_lt hpos

/-- A power of two above the number of entries is suitable, if it is raised to the initial slot
count. -/
theorem Sound.suits_max (h : m.Sound) (hpow : ∃ k, capacity = 2 ^ k) (hroom : m.live < capacity) :
    m.Suits (max capacity m.minCapacity) where
  pow := by
    rcases Nat.le_total capacity m.minCapacity with hle | hle
    · rw [Nat.max_eq_right hle]
      exact h.initial
    · rw [Nat.max_eq_left hle]
      exact hpow
  room := Nat.lt_of_lt_of_le hroom (Nat.le_max_left ..)
  initial := Nat.le_max_right ..

/-- The slot count that maintenance shrinks to is suitable. -/
theorem Sound.shrinkTarget (h : m.Sound) {target : Nat} (htarget : m.shrinkTarget? = some target) :
    m.Suits target := by
  unfold ProbeMap.shrinkTarget? at htarget
  dsimp only at htarget
  split at htarget
  · cases htarget
  · cases htarget
    split
    · rename_i size hnext
      refine h.suits_max ?_ (lt_of_nextPowerOfTwo hnext)
      rw [(nextPowerOfTwo_ok hnext).1]
      exact ceilPowerOfTwo_eq_pow _
    · exact h.suits_max h.suits.pow h.suits.room

/-- Dropping the tombstones of a sound table rearranges its entries and keeps it sound. -/
theorem Sound.dropTombstones (h : m.Sound) :
    m.dropTombstones.Sound ∧ m.Rearranged m.dropTombstones := by
  unfold ProbeMap.dropTombstones
  split
  · obtain ⟨hsound, hmoved, -⟩ := h.rebuild h.suits .rehash
    exact ⟨hsound, hmoved⟩
  · exact ⟨h, .refl m⟩

/-- Maintenance keeps every entry. -/
theorem Sound.maintain (h : m.Sound) (hm : m.maintain = some m') :
    m'.Sound ∧ m.Rearranged m' := by
  unfold ProbeMap.maintain at hm
  dsimp only at hm
  split at hm
  · obtain ⟨target, htarget, rfl⟩ := Option.map_eq_some_iff.mp hm
    split
    · obtain ⟨hsound, hmoved, -⟩ := h.rebuild (h.shrinkTarget htarget) .shrink
      exact ⟨hsound, hmoved⟩
    · exact h.dropTombstones
  · cases hm
    exact h.dropTombstones

/-! ## Empty maps -/

/-- A cleared table is sound. -/
theorem Sound.clear (h : m.Sound) : m.clear.Sound := by
  have hshaped := h.searchable.shaped.clear
  refine ⟨⟨Searchable.empty h.suits.pos hshaped 0, tombstonesOf_emptySlots _⟩, ?_, ?_, h.initial⟩
  · exact congrArg List.length (entriesOf_emptySlots m.slots.size)
  · rw [ProbeMap.clear, emptySlots, Array.size_replicate]
    exact ⟨h.suits.pow, h.suits.pos, h.suits.initial⟩

/-- A map that was just built is sound. -/
theorem build_sound (o : ProbeOptions) (f : LoadFactor) {filter : BloomFilter}
    (hasher : KeyHasher κ) (journal : Journal) (hfilter : filter.Shaped)
    (h : nextPowerOfTwo o.initialCapacity = .ok capacity) :
    (build o f capacity filter hasher journal : ProbeMap κ ν).Sound := by
  obtain ⟨k, hk⟩ := ceilPowerOfTwo_eq_pow o.initialCapacity
  have hpow : capacity = 2 ^ k := (nextPowerOfTwo_ok h).1.trans hk
  have hpos : 0 < capacity := by
    rw [hpow]
    exact Nat.two_pow_pos k
  refine ⟨⟨Searchable.empty hpos hfilter 0, tombstonesOf_emptySlots _⟩, ?_, ?_, ⟨k, hpow⟩⟩
  · exact congrArg List.length (entriesOf_emptySlots capacity)
  · rw [build, emptySlots, Array.size_replicate]
    exact ⟨⟨k, hpow⟩, hpos, Nat.le_refl _⟩

end BoundedTables.ProbeMap
