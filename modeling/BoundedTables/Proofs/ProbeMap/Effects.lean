import BoundedTables.Proofs.BloomFilter.Inserted
import BoundedTables.Proofs.ProbeMap.Longest

/-!
# What an operation does to a probe table

A rebuild moves the entries into fresh slots, and their hashes into a fresh filter (`Rebuilt`). An
insertion makes room by at most two rebuilds before it adds its entry (`Readied`), and a removal
may be followed by one (`Sound.maintain_cases`). `Effect` puts this together: it tells what each
operation leaves of a table, by its answer, and is the one place to look for what an operation can
do (`Sound.effect`).
-/

namespace BoundedTables.ProbeMap

open Hashing Sizing

variable {κ ν : Type} {m m' t : ProbeMap κ ν} {e : ProbeEntry κ ν} {hash : UInt32}
  {capacity i : Nat}

/-- A lookup keeps the count of entries. -/
theorem SameTable.live_eq (h : m.SameTable m') : m'.live = m.live := by
  obtain ⟨_, _, _, _, rfl⟩ := h
  rfl

/-- A lookup keeps the count of tombstones. -/
theorem SameTable.tombstones_eq (h : m.SameTable m') : m'.tombstones = m.tombstones := by
  obtain ⟨_, _, _, _, rfl⟩ := h
  rfl

/-- A lookup keeps the load factor. -/
theorem SameTable.loadFactor_eq (h : m.SameTable m') : m'.loadFactor = m.loadFactor := by
  obtain ⟨_, _, _, _, rfl⟩ := h
  rfl

/-- A lookup changes nothing about how many slots may be used. -/
theorem SameTable.admits_eq (h : m.SameTable m') (used : Nat) : m'.admits used = m.admits used := by
  obtain ⟨_, _, _, _, rfl⟩ := h
  rfl

/-- So many slots may be used as are within the exact product of the slots and the load factor. -/
theorem admits_iff {used : Nat} : m.admits used = true ↔
    used * m.loadFactor.denominator ≤ m.slots.size * m.loadFactor.numerator :=
  decide_eq_true_iff

/-! ## Rebuilt tables -/

/-- The masked hashes of the entries, in slot order. -/
def hashes (m : ProbeMap κ ν) : List UInt32 := m.entries.map ProbeEntry.hash

/-- A filter for a number of slots with some masked hashes in it. -/
def filterOf (capacity : Nat) (rate : Float) (hashes : List UInt32) : BloomFilter :=
  (filterFor capacity rate).insertAll (hashes.map UInt32.toUInt64)

/-- The number of rebuilds so far, for any reason. -/
def rebuilds (m : ProbeMap κ ν) : Nat := m.resizes + m.rehashes + m.shrinks

/-- The order in which hashes are added to a filter does not matter. -/
theorem filterOf_perm (capacity : Nat) (rate : Float) {hashes hashes' : List UInt32}
    (h : hashes.Perm hashes') : filterOf capacity rate hashes = filterOf capacity rate hashes' :=
  (BloomFilter.build_shaped _).insertAll_perm (h.map _)

/-- One more hash goes into the same filter. -/
theorem filterOf_concat (capacity : Nat) (rate : Float) (hashes : List UInt32) (hash : UInt32) :
    filterOf capacity rate (hashes ++ [hash]) =
      ((filterOf capacity rate hashes).insertHash hash.toUInt64).2 := by
  rw [filterOf, List.map_append, List.map_singleton, BloomFilter.insertAll_concat]
  rfl

/-- A cleared filter has no hashes in it. -/
theorem clear_filterOf (capacity : Nat) (rate : Float) (hashes : List UInt32) :
    (filterOf capacity rate hashes).clear = filterOf capacity rate [] := by
  have hshaped : (filterOf capacity rate hashes).Shaped :=
    (BloomFilter.build_shaped _).insertAll _
  obtain ⟨words, items, hframe⟩ :=
    (filterFor capacity rate).insertAll_frame (hashes.map UInt32.toUInt64)
  rw [hshaped.clear_eq, filterOf, hframe]
  rfl

/-- Rearranging entries keeps the load factor. -/
theorem Rearranged.loadFactor_eq (h : m.Rearranged m') : m'.loadFactor = m.loadFactor := by
  obtain ⟨⟨_, _, _, _, _, _, _, _, rfl⟩, -⟩ := h
  rfl

/-- Rearranging entries keeps the false positive rate. -/
theorem Rearranged.falsePositiveRate_eq (h : m.Rearranged m') :
    m'.falsePositiveRate = m.falsePositiveRate := by
  obtain ⟨⟨_, _, _, _, _, _, _, _, rfl⟩, -⟩ := h
  rfl

/-- Rearranged entries have the same masked hashes, in some order. -/
theorem Rearranged.hashes_perm (h : m.Rearranged m') : m'.hashes.Perm m.hashes := h.entries.map _

/-- The same entries in a number of slots, none of which is a tombstone, with a bound that one of
them reaches, and their hashes in a filter of their own. -/
structure Rebuilt (m : ProbeMap κ ν) (capacity : Nat) (m' : ProbeMap κ ν) : Prop
    extends Rearranged m m' where
  sound : m'.Sound
  size : m'.slots.size = capacity
  swept : m'.tombstones = 0
  filter : m'.filter = filterOf capacity m.falsePositiveRate m.hashes
  counted : m.rebuilds < m'.rebuilds
  tight : m'.longest = m'.maxDisplacement

/-- Of two rebuilds, the later one counts. -/
theorem Rebuilt.trans {capacity' : Nat} (h : m.Rebuilt capacity m')
    (h' : m'.Rebuilt capacity' t) : m.Rebuilt capacity' t where
  toRearranged := h.toRearranged.trans h'.toRearranged
  sound := h'.sound
  size := h'.size
  swept := h'.swept
  filter := by
    rw [h'.filter, h.falsePositiveRate_eq]
    exact filterOf_perm _ _ h.hashes_perm
  counted := h.counted.trans h'.counted
  tight := h'.tight

/-- A rebuilt table can be told by the hashes that it has now. -/
theorem Rebuilt.filter_eq (h : m.Rebuilt capacity m') :
    m'.filter = filterOf m'.slots.size m'.falsePositiveRate m'.hashes := by
  rw [h.filter, h.size, h.falsePositiveRate_eq]
  exact filterOf_perm _ _ h.hashes_perm.symm

/-- Moving an entry takes note of its hash, leaves no more tombstones, and counts no rebuild. -/
theorem reinsert_frame (m : ProbeMap κ ν) (e : ProbeEntry κ ν) :
    ∃ slots tombstones maxDisplacement, tombstones ≤ m.tombstones ∧ m.reinsert e = { m with
      slots, tombstones, maxDisplacement
      filter := (m.filter.insertHash e.hash.toUInt64).2 } := by
  unfold ProbeMap.reinsert
  dsimp only
  split
  · refine ⟨_, _, _, ?_, rfl⟩
    unfold noteArrival
    dsimp only
    split <;> omega
  · exact ⟨_, _, _, Nat.le_refl _, rfl⟩

/-- Reinserting entries changes the slots, the bound on the distances and the filter only, which
gains their hashes, and adds no tombstone. -/
theorem foldl_reinsert_frame (m : ProbeMap κ ν) (moving : List (ProbeEntry κ ν)) :
    ∃ slots tombstones maxDisplacement, tombstones ≤ m.tombstones ∧
      moving.foldl reinsert m = { m with
        slots, tombstones, maxDisplacement
        filter := m.filter.insertAll ((moving.map ProbeEntry.hash).map UInt32.toUInt64) } := by
  induction moving generalizing m with
  | nil => exact ⟨_, _, _, Nat.le_refl _, rfl⟩
  | cons e moving ih =>
      obtain ⟨_, _, _, hfewer, hfirst⟩ := m.reinsert_frame e
      obtain ⟨slots, tombstones, maxDisplacement, hfewer', hrest⟩ := ih (m.reinsert e)
      rw [hfirst] at hfewer' hrest
      refine ⟨slots, tombstones, maxDisplacement, hfewer'.trans hfewer, ?_⟩
      rw [List.foldl_cons, hfirst, hrest]
      rfl

/-- A rebuild leaves no tombstone, has a filter of its own, and is counted. -/
theorem rebuild_frame (m : ProbeMap κ ν) (capacity : Nat) (reason : RebuildReason) :
    ∃ slots maxDisplacement resizes rehashes shrinks journal,
      m.rebuilds < resizes + rehashes + shrinks ∧ m.rebuild capacity reason = { m with
        slots, maxDisplacement, resizes, rehashes, shrinks, journal
        tombstones := 0
        filter := filterOf capacity m.falsePositiveRate m.hashes } := by
  obtain ⟨slots, tombstones, maxDisplacement, hfewer, hframe⟩ :=
    (m.emptied capacity).foldl_reinsert_frame m.entries
  obtain rfl : tombstones = 0 := Nat.le_zero.mp hfewer
  unfold ProbeMap.rebuild
  dsimp only
  rw [← emptied, hframe]
  cases reason <;>
    exact ⟨_, _, _, _, _, _, by simp only [rebuilds, countRebuild, emptied]; omega, rfl⟩

/-- A rebuild into a suitable number of slots keeps the entries and starts the filter over. -/
theorem Sound.rebuilt (h : m.Sound) (hsuits : m.Suits capacity) (reason : RebuildReason) :
    m.Rebuilt capacity (m.rebuild capacity reason) := by
  obtain ⟨hsound, hmoved, hsize⟩ := h.rebuild hsuits reason
  have htight := h.rebuild_longest hsuits reason
  obtain ⟨_, _, _, _, _, _, hcounted, hframe⟩ := m.rebuild_frame capacity reason
  rw [hframe] at hsound hmoved hsize htight ⊢
  exact ⟨hmoved, hsound, hsize, rfl, rfl, hcounted, htight⟩

/-- A table that grows is rebuilt into twice as many slots, which are not more than the largest
power of two. -/
theorem Sound.grow_ok (h : m.Sound) (hgrow : m.grow = .ok m') :
    2 * m.slots.size ≤ maxPowerOfTwo ∧ m.Rebuilt (2 * m.slots.size) m' := by
  unfold ProbeMap.grow grownCapacity at hgrow
  split at hgrow
  · cases hgrow
    exact ⟨‹_›, h.rebuilt h.suits.double .grow⟩
  · cases hgrow

/-! ## Making room -/

/-- Making room keeps a table that admits one more slot in use. It sweeps one that only admits one
more entry, and doubles any other. -/
theorem Sound.reserveOne_ok (h : m.Sound) (hreserve : m.reserveOne = .ok m') :
    (m.admits (m.live + m.tombstones + 1) = true ∧ m' = m) ∨
      (m.admits (m.live + 1) = true ∧ m.Rebuilt m.slots.size m') ∨
      (m.admits (m.live + 1) = false ∧ 2 * m.slots.size ≤ maxPowerOfTwo ∧
        m.Rebuilt (2 * m.slots.size) m') := by
  unfold ProbeMap.reserveOne at hreserve
  split at hreserve
  · rename_i hfull
    exact .inr (.inr ⟨by simpa using hfull, h.grow_ok hreserve⟩)
  · rename_i hadmits
    split at hreserve
    · cases hreserve
      exact .inr (.inl ⟨by simpa using hadmits, h.rebuilt h.suits .rehash⟩)
    · rename_i hclean
      cases hreserve
      exact .inl ⟨by simpa using hclean, rfl⟩

/-- Claiming a slot keeps a table, or doubles one that is at least a quarter full. -/
theorem Sound.claimSlot_cases (h : m.Sound) (hash : UInt32) :
    (m.claimSlot hash).2 = m ∨ (m.slots.size ≤ 4 * m.live ∧ 2 * m.slots.size ≤ maxPowerOfTwo ∧
      m.Rebuilt (2 * m.slots.size) (m.claimSlot hash).2) := by
  unfold ProbeMap.claimSlot
  split
  · exact .inl rfl
  · split
    · rename_i hfull
      rcases hgrow : m.grow with error | m₁
      · exact .inl rfl
      · exact .inr ⟨hfull, h.grow_ok hgrow⟩
    · exact .inl rfl

/-- Forcing a slot only reports it. -/
theorem forceSlot_eq (m : ProbeMap κ ν) (hash : UInt32) :
    ∃ journal, (m.forceSlot hash).2 = { m with journal } := by
  unfold ProbeMap.forceSlot
  split <;> exact ⟨_, rfl⟩

/-- A table that was made ready for one more entry. -/
inductive Readied (m : ProbeMap κ ν) : ProbeMap κ ν → Prop where
  /-- It has room as it is. -/
  | kept (journal : Journal) (hadmits : m.admits (m.live + m.tombstones + 1) = true) :
      Readied m { m with journal }
  /-- It has room without its tombstones. -/
  | swept {t : ProbeMap κ ν} (hadmits : m.admits (m.live + 1) = true)
      (hr : m.Rebuilt m.slots.size t) : Readied m t
  /-- Its entries alone exceeded the load factor. -/
  | doubled {t : ProbeMap κ ν} (hfull : m.admits (m.live + 1) = false)
      (hmax : 2 * m.slots.size ≤ maxPowerOfTwo) (hr : m.Rebuilt (2 * m.slots.size) t) : Readied m t
  /-- It was at least a quarter full, perhaps after it had doubled, and no slot was near enough. -/
  | spread {t : ProbeMap κ ν} {capacity : Nat} (hquarter : capacity ≤ 4 * m.live)
      (hfrom : (m.admits (m.live + 1) = true ∧ capacity = m.slots.size) ∨
        (m.admits (m.live + 1) = false ∧ capacity = 2 * m.slots.size))
      (hmax : 2 * capacity ≤ maxPowerOfTwo) (hr : m.Rebuilt (2 * capacity) t) : Readied m t

/-- A table with at least as many slots admits at least as many of them in use. -/
theorem admits_mono {used used' : Nat} (h : m.admits used = true)
    (hfactor : m'.loadFactor = m.loadFactor) (hsize : m.slots.size ≤ m'.slots.size)
    (hused : used' ≤ used) : m'.admits used' = true := by
  rw [admits_iff] at h ⊢
  rw [hfactor]
  calc used' * m.loadFactor.denominator ≤ used * m.loadFactor.denominator :=
        Nat.mul_le_mul_right _ hused
    _ ≤ m.slots.size * m.loadFactor.numerator := h
    _ ≤ m'.slots.size * m.loadFactor.numerator := Nat.mul_le_mul_right _ hsize

/-- Making room and claiming a slot make a table ready. -/
theorem Sound.readied (h : m.Sound) (hreserve : m.reserveOne = .ok m') (hash : UInt32) :
    m.Readied (m'.claimSlot hash).2 := by
  obtain ⟨hadmits, rfl⟩ | ⟨hadmits, hr⟩ | ⟨hfull, hmax, hr⟩ := h.reserveOne_ok hreserve
  · obtain hkept | ⟨hquarter, hmax, hr⟩ := h.claimSlot_cases hash
    · rw [hkept]
      exact .kept _ hadmits
    · have hone : m'.admits (m'.live + 1) = true :=
        admits_mono hadmits rfl (Nat.le_refl _) (by omega)
      exact .spread hquarter (.inl ⟨hone, rfl⟩) hmax hr
  · obtain hkept | ⟨hquarter, hmax, hr'⟩ := hr.sound.claimSlot_cases hash
    · rw [hkept]
      exact .swept hadmits hr
    · rw [hr.size, hr.live_eq] at hquarter
      rw [hr.size] at hmax hr'
      exact .spread hquarter (.inl ⟨hadmits, rfl⟩) hmax (hr.trans hr')
  · obtain hkept | ⟨hquarter, hmax', hr'⟩ := hr.sound.claimSlot_cases hash
    · rw [hkept]
      exact .doubled hfull hmax hr
    · rw [hr.size, hr.live_eq] at hquarter
      rw [hr.size] at hmax' hr'
      exact .spread hquarter (.inr ⟨hfull, rfl⟩) hmax' (hr.trans hr')

/-- A report does not undo a rebuild. -/
theorem Rebuilt.report (h : m.Rebuilt capacity m') (journal : Journal) :
    m.Rebuilt capacity { m' with journal } where
  toRearranged := h.toRearranged.trans ⟨⟨_, _, _, _, _, _, _, _, rfl⟩, .rfl⟩
  sound := h.sound.same ⟨_, _, _, rfl, rfl⟩
  size := h.size
  swept := h.swept
  filter := h.filter
  counted := h.counted
  tight := h.tight

/-- Reporting something to the journal keeps a table ready for one more entry. -/
theorem Readied.report (h : m.Readied t) (journal : Journal) : m.Readied { t with journal } := by
  cases h with
  | kept _ hadmits => exact .kept journal hadmits
  | swept hadmits hr => exact .swept hadmits (hr.report journal)
  | doubled hfull hmax hr => exact .doubled hfull hmax (hr.report journal)
  | spread hquarter hfrom hmax hr => exact .spread hquarter hfrom hmax (hr.report journal)

/-- Forcing a slot keeps a table ready for one more entry. -/
theorem Readied.forceSlot (h : m.Readied t) (hash : UInt32) : m.Readied (t.forceSlot hash).2 := by
  obtain ⟨journal, hframe⟩ := t.forceSlot_eq hash
  rw [hframe]
  exact h.report journal

/-- A table that was made ready has its slots and filter as they were, or was rebuilt. -/
theorem Readied.kept_or_rebuilt (h : m.Readied t) :
    (∃ journal, t = { m with journal }) ∨ ∃ capacity, m.Rebuilt capacity t := by
  cases h with
  | kept journal => exact .inl ⟨journal, rfl⟩
  | swept _ hr | doubled _ _ hr | spread _ _ _ hr => exact .inr ⟨_, hr⟩

/-- A table that was made ready for an entry has the same entries, rearranged at most. -/
theorem Readied.rearranged (h : m.Readied t) : m.Rearranged t := by
  obtain ⟨_, rfl⟩ | ⟨_, hr⟩ := h.kept_or_rebuilt
  · exact ⟨⟨_, _, _, _, _, _, _, _, rfl⟩, .rfl⟩
  · exact hr.toRearranged

/-- A new entry fills a slot of a table that was made ready for it. A refused one leaves the table
as it was, or ready. -/
theorem Sound.insertNew_cases (h : m.Sound) (e : ProbeEntry κ ν) :
    (∃ error t, m.insertNew e = (.error error, t) ∧ (t = m ∨ m.Readied t)) ∨
      ∃ t i distance, m.insertNew e = (.ok none, t.occupy i distance e) ∧ m.Readied t ∧
        m.Fills e.hash t i distance := by
  unfold ProbeMap.insertNew
  rcases hreserve : m.reserveOne with error | m₁
  · exact .inl ⟨error, m, rfl, .inl rfl⟩
  · have hclaimed := h.readied hreserve e.hash
    dsimp only
    rcases hclaim : m₁.claimSlot e.hash with ⟨error | _ | ⟨i, distance⟩, m₂⟩ <;>
      rw [hclaim] at hclaimed
    · exact .inl ⟨error, m₂, rfl, .inr hclaimed⟩
    · have hforced := hclaimed.forceSlot e.hash
      dsimp only
      rcases hforce : m₂.forceSlot e.hash with ⟨error | ⟨i, distance⟩, m₃⟩ <;>
        rw [hforce] at hforced
      · exact .inl ⟨error, m₃, rfl, .inr hforced⟩
      · exact .inr ⟨m₃, i, distance, rfl, hforced, .forced hreserve hclaim hforce⟩
    · exact .inr ⟨m₂, i, distance, rfl, hclaimed, .claimed hreserve hclaim⟩

/-- Filling a slot adds no tombstone. -/
theorem occupy_tombstones_le (m : ProbeMap κ ν) (i distance : Nat) (e : ProbeEntry κ ν) :
    (m.occupy i distance e).tombstones ≤ m.tombstones := by
  unfold occupy place noteArrival setSlot
  dsimp only
  split <;> omega

/-! ## Maintenance -/

/-- Maintenance keeps a table of which at most a quarter are tombstones, sweeps any other, or
shrinks it. -/
theorem Sound.maintain_cases (h : m.Sound) (hm : m.maintain = some m') :
    (4 * m.tombstones ≤ m.slots.size ∧ m' = m) ∨
      (m.slots.size < 4 * m.tombstones ∧ m.Rebuilt m.slots.size m') ∨
      ∃ target < m.slots.size, m.shrinkTarget? = some target ∧ m.Rebuilt target m' := by
  have hdrop : (4 * m.tombstones ≤ m.slots.size ∧ m.dropTombstones = m) ∨
      (m.slots.size < 4 * m.tombstones ∧ m.Rebuilt m.slots.size m.dropTombstones) := by
    unfold ProbeMap.dropTombstones
    split
    · rename_i hmany
      exact .inr ⟨hmany, h.rebuilt h.suits .rehash⟩
    · exact .inl ⟨by omega, rfl⟩
  unfold ProbeMap.maintain at hm
  dsimp only at hm
  split at hm
  · obtain ⟨target, htarget, rfl⟩ := Option.map_eq_some_iff.mp hm
    split
    · rename_i hless
      exact .inr (.inr ⟨target, hless, htarget, h.rebuilt (h.shrinkTarget htarget) .shrink⟩)
    · exact hdrop.imp_right .inl
  · cases hm
    exact hdrop.imp_right .inl

/-! ## Each operation -/

/-- The same entries in the same slots, but for their values. -/
structure Settled (m m' : ProbeMap κ ν) : Prop where
  frame : ∃ slots hasher journal filteredLookups version, m' =
    { m with slots, hasher, journal, filteredLookups, version }
  size : m'.slots.size = m.slots.size
  hashes : m'.hashes = m.hashes
  longest : m'.longest = m.longest

/-- Entries that stay in their slots were not rebuilt. -/
theorem Settled.rebuilds_eq (h : m.Settled m') : m'.rebuilds = m.rebuilds := by
  obtain ⟨⟨_, _, _, _, _, rfl⟩, -⟩ := h
  rfl

/-- A lookup leaves all entries in their slots. -/
theorem SameTable.settled (h : m.SameTable m') : m.Settled m' := by
  obtain ⟨_, _, _, _, rfl⟩ := h
  exact ⟨⟨_, _, _, _, _, rfl⟩, rfl, rfl, rfl⟩

/-- Changing the value in a slot leaves all entries in their slots. -/
theorem Sound.settled_modifySlot (h : m.Sound) (hs : m'.SameTable m)
    (hi : m.slots[i]? = some (.occupied e)) (g : ν → ν) (version : UInt64) :
    m'.Settled { m with slots := ProbeMap.modifySlot m.slots i g, version } := by
  obtain ⟨-, front, back, hentries, hchanged⟩ := h.modifySlot hi g version
  obtain ⟨_, _, _, _, rfl⟩ := hs
  refine ⟨⟨_, _, _, _, _, rfl⟩, modifySlot_size .., ?_, longest_modifySlot hi g rfl⟩
  replace hentries : m'.entries = front ++ e :: back := hentries
  rw [hashes, hashes, hentries, ProbeMap.entries, ← entriesOf, hchanged]
  simp only [List.map_append, List.map_cons]

/-- Whether an operation that was answered so adds or removes entries, or might have. -/
def alters : Op κ ν → Except TableError (Reply ν) → Bool
  | .insert _ _, .ok (.value (some _)) => false
  | .insert _ _, _ | .remove _, .ok (.value (some _)) | .clear, _ => true
  | _, _ => false

/-- What an operation leaves of a table, by its answer. A lookup comes first. -/
inductive Effect (m : ProbeMap κ ν) :
    Op κ ν → Except TableError (Reply ν) → ProbeMap κ ν → Prop where
  /-- Every entry stays. -/
  | settle {op : Op κ ν} {answer : Except TableError (Reply ν)} {m' : ProbeMap κ ν}
      (halters : alters op answer = false) (hs : m.Settled m') : Effect m op answer m'
  /-- A refused insertion may have rebuilt the table. -/
  | refuse {m₁ t : ProbeMap κ ν} {key : κ} {value : ν} {error : TableError} (hs : m.SameTable m₁)
      (ht : t = m₁ ∨ m₁.Readied t) : Effect m (.insert key value) (.error error) t
  /-- A new entry fills a slot of the table that was made ready for it. -/
  | add {m₁ t : ProbeMap κ ν} {key : κ} {value : ν} {i distance : Nat} (hs : m.SameTable m₁)
      (ht : m₁.Readied t) (hfills : m₁.Fills (m.hasher.hash key) t i distance) :
      Effect m (.insert key value) (.ok (.value none))
        (t.occupy i distance ⟨key, value, m.hasher.hash key⟩)
  /-- A removal leaves a tombstone. -/
  | remove {m₁ : ProbeMap κ ν} {key : κ} {i : Nat} {e : ProbeEntry κ ν} (hs : m.SameTable m₁)
      (hi : m₁.slots[i]? = some (.occupied e))
      (hdue : (m.removals + 1) % maintenanceInterval = 0 →
        4 * (m₁.vacate i).tombstones ≤ m.slots.size) :
      Effect m (.remove key) (.ok (.value (some e.value))) (m₁.vacate i)
  /-- After a removal the table is swept or shrunk. -/
  | maintain {m₁ m' : ProbeMap κ ν} {key : κ} {i capacity : Nat} {e : ProbeEntry κ ν}
      (hs : m.SameTable m₁) (hi : m₁.slots[i]? = some (.occupied e))
      (hdue : (m.removals + 1) % maintenanceInterval = 0)
      (hsize : (capacity = m.slots.size ∧ m.slots.size < 4 * (m₁.vacate i).tombstones) ∨
        (capacity < m.slots.size ∧ (m₁.vacate i).shrinkTarget? = some capacity))
      (hr : (m₁.vacate i).Rebuilt capacity m') :
      Effect m (.remove key) (.ok (.value (some e.value))) m'
  | clear : Effect m .clear (.ok .done) m.clear

/-- An insertion has the effect that its answer tells. -/
theorem Sound.effect_insert (h : m.Sound) (key : κ) (value : ν) :
    Effect m (.insert key value) ((m.insert key value).1.map .value) (m.insert key value).2 := by
  obtain ⟨m₁, hs, h₁, hl | ⟨i, e, hl, hi⟩⟩ := h.lookup key
  · rw [insert_of_missed hl]
    obtain ⟨error, t, hnew, ht⟩ | ⟨t, i, distance, hnew, ht, hfills⟩ :=
      h₁.insertNew_cases ⟨key, value, m.hasher.hash key⟩
    · rw [hnew]
      exact .refuse hs ht
    · rw [hnew]
      exact .add hs ht hfills
  · rw [insert_of_found hl, value?_eq hi]
    exact .settle rfl (h₁.settled_modifySlot hs hi _ _)

/-- A removal that returns has the effect that its answer tells. -/
theorem Sound.effect_remove (h : m.Sound) {key : κ} {v : Option ν}
    (hremove : m.remove key = some (v, m')) : Effect m (.remove key) (.ok (.value v)) m' := by
  unfold ProbeMap.remove at hremove
  obtain ⟨m₁, hs, h₁, hl | ⟨i, e, hl, hi⟩⟩ := h.lookup key
  · rw [hl] at hremove
    cases hremove
    exact .settle rfl hs.settled
  · rw [hl] at hremove
    dsimp only at hremove
    rw [value?_eq hi] at hremove
    have hcount : (m₁.vacate i).removals = m.removals + 1 := congrArg (· + 1) hs.removals_eq
    have hsize : (m₁.vacate i).slots.size = m.slots.size := by rw [vacate_size, hs.slots_eq]
    rw [hcount] at hremove
    split at hremove
    · rename_i hdue
      obtain ⟨m₂, hmaintain, heq⟩ := Option.map_eq_some_iff.mp hremove
      cases heq
      have hcases := (h₁.vacate hi).1.maintain_cases hmaintain
      rw [hsize] at hcases
      obtain ⟨hfew, rfl⟩ | ⟨hmany, hr⟩ | ⟨target, hless, htarget, hr⟩ := hcases
      · exact .remove hs hi fun _ => hfew
      · exact .maintain hs hi hdue (.inl ⟨rfl, hmany⟩) hr
      · exact .maintain hs hi hdue (.inr ⟨hless, htarget⟩) hr
    · rename_i hdue
      cases hremove
      exact .remove hs hi (absurd · hdue)

/-- A modification has the effect that its answer tells. -/
theorem Sound.effect_modify (h : m.Sound) (key : κ) (g : ν → ν) :
    Effect m (.modify key g) (.ok (.value (m.modify key g).1)) (m.modify key g).2 := by
  unfold ProbeMap.modify
  obtain ⟨m₁, hs, h₁, hl | ⟨i, e, hl, hi⟩⟩ := h.lookup key
  · rw [hl]
    exact .settle rfl hs.settled
  · rw [hl]
    exact .settle rfl (h₁.settled_modifySlot hs hi g m₁.version)

/-- Every operation has one of the effects. -/
theorem Sound.effect (h : m.Sound) {op : Op κ ν} {answer : Except TableError (Reply ν)}
    (hperform : m.perform op = some (answer, m')) : m.Effect op answer m' := by
  cases op with
  | insert key value =>
      cases hperform
      exact h.effect_insert key value
  | remove key =>
      obtain ⟨⟨v, m₁⟩, hremove, heq⟩ := Option.map_eq_some_iff.mp hperform
      cases heq
      exact h.effect_remove hremove
  | get key =>
      cases hperform
      exact .settle rfl (m.lookup_sameTable key).settled
  | require key =>
      cases hperform
      exact .settle rfl (m.require_sameTable key).settled
  | modify key g =>
      cases hperform
      exact h.effect_modify key g
  | containsKey key =>
      cases hperform
      exact .settle rfl (m.lookup_sameTable key).settled
  | clear =>
      cases hperform
      exact .clear

end BoundedTables.ProbeMap
