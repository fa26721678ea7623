import BoundedTables.Proofs.Hashing.Lookups
import BoundedTables.Proofs.ProbeMap.Effects

/-!
# Lookups in probe maps

Every operation that takes a key makes one lookup, which the filter answers or which probes slots.
The map counts the former, and the monitor is told of the latter (`lookup_noted`). Making room for
an entry and moving entries into fresh slots probe as well, but are neither counted nor told
(`Quiet`).
-/

namespace BoundedTables.ProbeMap

open Hashing Table

variable {κ ν : Type} {m m' m'' : ProbeMap κ ν} {hash : UInt32} {op : Op κ ν} {key : κ}

/-- The key that an operation takes. -/
def Op.key? : Op κ ν → Option κ
  | .insert key _ | .remove key | .get key | .require key | .modify key _ | .containsKey key =>
      some key
  | .clear => none

/-- What monitoring has left behind in a map. -/
def watch (m : ProbeMap κ ν) : Watch := m.hasher.watch m.journal

/-- The slots that a probe for a hash may visit, from its home on. -/
def path (m : ProbeMap κ ν) (hash : UInt32) : List Nat :=
  (List.range (min m.maxDisplacement (m.slots.size - 1) + 1)).map (position m.slots.size hash)

/-- A probe for a key ends at a slot. -/
def Stops (m : ProbeMap κ ν) (key : κ) (i : Nat) : Prop :=
  m.isUnused i = true ∨ m.holds key (m.hasher.hash key) i = true

/-- Looking up a key passes the filter and visits so many slots. -/
def Walks (m : ProbeMap κ ν) (key : κ) (n : Nat) : Prop :=
  m.filter.containsHash (m.hasher.hash key).toUInt64 = true ∧
    Visits (m.Stops key) (m.path (m.hasher.hash key)) n

/-- The filter answers the lookup of a key. -/
def Filters (m : ProbeMap κ ν) (key : κ) : Prop :=
  m.filter.containsHash (m.hasher.hash key).toUInt64 = false

/-- Probe maps with their monitors. -/
def watched :
    Watched (ProbeMap κ ν) (Op κ ν) (Except TableError (Reply ν)) κ where
  step := perform
  key? := Op.key?
  watch := watch
  filtered := filteredLookups
  Walks := Walks
  Filters := Filters

/-! ## A lookup -/

/-- A probe counts the slots that it visits. -/
theorem probe_visits (m : ProbeMap κ ν) (key : κ) (count distance visited : Nat) :
    ∃ n, (m.probe key (m.hasher.hash key) count distance visited).2 = visited + n ∧
      Visits (m.Stops key)
        ((List.range' distance count).map (position m.slots.size (m.hasher.hash key))) n := by
  induction count generalizing distance visited with
  | zero => exact ⟨0, rfl, .miss (by simp)⟩
  | succ count ih =>
      rw [List.range'_succ, List.map_cons]
      unfold probe
      dsimp only
      split
      · rename_i hunused
        exact ⟨1, rfl, .here (.inl hunused) _⟩
      · rename_i hused
        split
        · rename_i hholds
          exact ⟨1, rfl, .here (.inr hholds) _⟩
        · rename_i hother
          obtain ⟨n, hn, hvisits⟩ := ih (distance + 1) (visited + 1)
          refine ⟨n + 1, by rw [hn]; omega, .further ?_ hvisits⟩
          rintro (hunused | hholds)
          · exact hused hunused
          · exact hother hholds

/-- Two maps with the same counts of lookups. -/
structure Quiet (m m' : ProbeMap κ ν) : Prop where
  watch : m'.watch = m.watch
  filtered : m'.filteredLookups = m.filteredLookups

/-- A map has the same counts of lookups as itself. -/
theorem Quiet.refl (m : ProbeMap κ ν) : m.Quiet m := ⟨rfl, rfl⟩

/-- Two steps that are no lookups are none together. -/
theorem Quiet.trans (h : m.Quiet m') (h' : m'.Quiet m'') : m.Quiet m'' :=
  ⟨h'.watch.trans h.watch, h'.filtered.trans h.filtered⟩

/-- A lookup is told to the monitor, or counted by the map, and never both. -/
theorem lookup_noted (hkey : op.key? = some key) (hquiet : (m.lookup key).2.Quiet m') :
    ∃ note, watched.Noted m op m' note := by
  unfold lookup find at hquiet
  split at hquiet
  · rename_i hpasses
    obtain ⟨n, hn, hvisits⟩ :=
      m.probe_visits key (min m.maxDisplacement (m.slots.size - 1) + 1) 0 0
    rw [Nat.zero_add] at hn
    rw [← List.range_eq_range'] at hvisits
    refine ⟨_, .walked hkey ⟨hpasses, hvisits⟩ ?_ hquiet.filtered⟩
    rw [← hn]
    exact hquiet.watch.trans (m.hasher.record_watch _ m.journal)
  · rename_i hstops
    exact ⟨_, .filtered hkey (Bool.eq_false_iff.mpr hstops) hquiet.watch hquiet.filtered⟩

/-! ## What is neither counted nor told -/

/-- A rebuild is no lookup. -/
theorem rebuild_quiet (m : ProbeMap κ ν) (capacity : Nat) (reason : RebuildReason) :
    m.Quiet (m.rebuild capacity reason) := by
  obtain ⟨slots, tombstones, maxDisplacement, -, hframe⟩ :=
    (m.emptied capacity).foldl_reinsert_frame m.entries
  unfold rebuild
  dsimp only
  rw [← emptied, hframe]
  cases reason <;> exact ⟨m.hasher.watch_log m.journal rfl, rfl⟩

/-- Growing is no lookup. -/
theorem grow_quiet (h : m.grow = .ok m') : m.Quiet m' := by
  unfold grow grownCapacity at h
  split at h <;> cases h
  exact m.rebuild_quiet _ _

/-- Reserving room for an entry is no lookup. -/
theorem reserveOne_quiet (h : m.reserveOne = .ok m') : m.Quiet m' := by
  unfold reserveOne at h
  split at h
  · exact grow_quiet h
  · split at h <;> cases h
    · exact m.rebuild_quiet _ _
    · exact .refl m

/-- Claiming a slot is no lookup. -/
theorem claimSlot_quiet (m : ProbeMap κ ν) (hash : UInt32) : m.Quiet (m.claimSlot hash).2 := by
  unfold claimSlot
  split
  · exact .refl m
  · split
    · split
      · exact .refl m
      · exact grow_quiet ‹_›
    · exact .refl m

/-- Forcing a slot is no lookup. -/
theorem forceSlot_quiet (m : ProbeMap κ ν) (hash : UInt32) : m.Quiet (m.forceSlot hash).2 := by
  unfold forceSlot
  split
  · exact .refl m
  · exact ⟨m.hasher.watch_log m.journal rfl, rfl⟩

/-- Taking in a new entry is no lookup. -/
theorem insertNew_quiet (m : ProbeMap κ ν) (e : ProbeEntry κ ν) : m.Quiet (m.insertNew e).2 := by
  unfold insertNew
  rcases hreserve : m.reserveOne with error | m₁
  · exact .refl m
  · have h₁ := reserveOne_quiet hreserve
    have h₂ := m₁.claimSlot_quiet e.hash
    dsimp only
    rcases hclaim : m₁.claimSlot e.hash with ⟨error | _ | ⟨i, distance⟩, m₂⟩ <;> rw [hclaim] at h₂
    · exact h₁.trans h₂
    · have h₃ := m₂.forceSlot_quiet e.hash
      dsimp only
      rcases hforce : m₂.forceSlot e.hash with ⟨error | ⟨i, distance⟩, m₃⟩ <;> rw [hforce] at h₃
      · exact (h₁.trans h₂).trans h₃
      · exact ((h₁.trans h₂).trans h₃).trans ⟨rfl, rfl⟩
    · exact (h₁.trans h₂).trans ⟨rfl, rfl⟩

/-- Dropping the tombstones is no lookup. -/
theorem dropTombstones_quiet (m : ProbeMap κ ν) : m.Quiet m.dropTombstones := by
  unfold dropTombstones
  split
  · exact m.rebuild_quiet _ _
  · exact .refl m

/-- Maintenance is no lookup. -/
theorem maintain_quiet (h : m.maintain = some m') : m.Quiet m' := by
  unfold maintain at h
  dsimp only at h
  split at h
  · obtain ⟨target, -, rfl⟩ := Option.map_eq_some_iff.mp h
    split
    · exact m.rebuild_quiet _ _
    · exact m.dropTombstones_quiet
  · cases h
    exact m.dropTombstones_quiet

/-! ## Operations -/

/-- An insertion makes one lookup, of its key. -/
theorem insert_quiet (m : ProbeMap κ ν) (key : κ) (value : ν) :
    (m.lookup key).2.Quiet (m.insert key value).2 := by
  rcases hl : m.lookup key with ⟨_ | i, m₁⟩
  · rw [insert_of_missed hl]
    exact m₁.insertNew_quiet _
  · rw [insert_of_found hl]
    exact ⟨rfl, rfl⟩

/-- A modification makes one lookup, of its key. -/
theorem modify_quiet (m : ProbeMap κ ν) (key : κ) (f : ν → ν) :
    (m.lookup key).2.Quiet (m.modify key f).2 := by
  unfold modify
  rcases m.lookup key with ⟨_ | i, m₁⟩ <;> exact ⟨rfl, rfl⟩

/-- A lookup that requires its key makes one lookup. -/
theorem require_quiet (m : ProbeMap κ ν) (key : κ) :
    (m.lookup key).2.Quiet (m.require key).2 := by
  have hget : (m.lookup key).2.Quiet (m.get key).2 := .refl _
  unfold require
  rcases hg : m.get key with ⟨_ | v, m'⟩ <;> rw [hg] at hget <;> exact hget

/-- A removal makes one lookup, of its key. -/
theorem remove_quiet {v : Option ν} (h : m.remove key = some (v, m')) :
    (m.lookup key).2.Quiet m' := by
  unfold remove at h
  rcases hl : m.lookup key with ⟨_ | i, m₁⟩ <;> rw [hl] at h
  · cases h
    exact .refl _
  · have hvacated : m₁.Quiet (m₁.vacate i) := ⟨rfl, rfl⟩
    dsimp only at h
    split at h
    · obtain ⟨m₂, hmaintain, heq⟩ := Option.map_eq_some_iff.mp h
      cases heq
      exact hvacated.trans (maintain_quiet hmaintain)
    · cases h
      exact hvacated

/-- Probe maps account for their lookups. -/
theorem watched_sound : (watched : Watched (ProbeMap κ ν) _ _ _).Sound fun _ => True where
  step {m op answer m'} _ hperform := by
    refine ⟨trivial, ?_⟩
    cases op with
    | insert key value =>
        cases hperform
        exact lookup_noted rfl (m.insert_quiet key value)
    | remove key =>
        obtain ⟨⟨v, m₁⟩, hremove, heq⟩ := Option.map_eq_some_iff.mp hperform
        cases heq
        exact lookup_noted rfl (remove_quiet hremove)
    | get key | containsKey key =>
        cases hperform
        exact lookup_noted rfl (.refl _)
    | require key =>
        cases hperform
        exact lookup_noted rfl (m.require_quiet key)
    | modify key f =>
        cases hperform
        exact lookup_noted rfl (m.modify_quiet key f)
    | clear =>
        cases hperform
        exact ⟨_, .none rfl rfl rfl⟩

variable {o : ProbeOptions} {f : Sizing.LoadFactor} {threshold : Nat}

/-- Whatever its comparer says, a new map accounts for all of its lookups. -/
theorem withComparer_accounts (hvalid : o.check = .ok f)
    (hthreshold : o.hashing.collisionThreshold = some threshold) (c : Comparer κ) :
    watched.Accounts threshold o.hashing.hasCallback
      (withComparer o c : Except _ (ProbeMap κ ν)) :=
  watched_sound.accounts (withComparer_eq hvalid c) trivial
    (KeyHasher.withComparer_watch hthreshold c) rfl

/-- A new map with the comparer of its policy accounts for all of its lookups. -/
theorem new_accounts [ByteHash] [ByteKey κ] [DecidableEq κ] (hvalid : o.check = .ok f)
    (hthreshold : o.hashing.collisionThreshold = some threshold) (seed : Seed) :
    watched.Accounts threshold o.hashing.hasCallback (new o seed : Except _ (ProbeMap κ ν)) :=
  watched_sound.accounts (new_eq hvalid seed) trivial
    (KeyHasher.ofPolicy_watch hthreshold seed) rfl

end BoundedTables.ProbeMap
