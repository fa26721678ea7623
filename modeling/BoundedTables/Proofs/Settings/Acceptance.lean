import BoundedTables.DequeMap
import BoundedTables.LruCache
import BoundedTables.MultiMap
import BoundedTables.RingMap
import BoundedTables.Settings.Basic
import BoundedTables.Proofs.ProbeMap.Options
import BoundedTables.Proofs.Sizing.PrimeSearch

/-!
# Accepted settings are those that construct

Checking settings and building containers from them are two paths. The check hands the probe map
the standard hashing policy in place of the configured one, and stops at the options, where a
construction goes on to round the slot count up, to build a companion filter and to search for a
prime bucket count. `Settings.check_isOk_iff_builds` closes the gap: settings are accepted exactly
when all six containers come out of their constructions.
-/

namespace BoundedTables

open Hashing Sizing Table

variable {κ ν : Type} [ByteKey κ] [DecidableEq κ] {seed : Seed}

/-- The name of a section changes the error only. -/
theorem inSection_isOk {α : Type} {name : String} {r : Except TableError α} :
    (inSection name r).isOk = r.isOk := by
  cases r <;> rfl

/-! ### What each construction accepts -/

/-- A ring map is built from exactly those options that pass their check. -/
theorem RingMap.new_isOk [ByteHash] {o : TableOptions} :
    (RingMap.new o seed : Except TableError (RingMap κ ν)).isOk = o.check.isOk :=
  isOk_bind_pure

/-- A cache is built from exactly those options that pass their check. -/
theorem LruCache.new_isOk [ByteHash] {o : TableOptions} :
    (LruCache.new o seed : Except TableError (LruCache κ ν)).isOk = o.check.isOk :=
  isOk_bind_pure

/-- A linked table is built from exactly those options that pass their check. -/
theorem Table.LinkedTable.new_isOk [ByteHash] {o : TableOptions} :
    (LinkedTable.new o seed : Except TableError (LinkedTable κ ν)).isOk = o.check.isOk :=
  isOk_bind_pure

/-- A deque map is built from exactly those options that pass their check. -/
theorem DequeMap.new_isOk [ByteHash] {o : TableOptions} :
    (DequeMap.new o seed : Except TableError (DequeMap κ ν)).isOk = o.check.isOk := by
  rw [DequeMap.new, isOk_map, LinkedTable.new_isOk]

/-- A multimap is built from exactly those options that pass their check. -/
theorem MultiMap.new_isOk [ByteHash] {o : TableOptions} :
    (MultiMap.new o seed : Except TableError (MultiMap κ ν)).isOk = o.check.isOk := by
  rw [MultiMap.new, isOk_map, LinkedTable.new_isOk]

/-- A filter is built from exactly those options that pass their check. -/
theorem BloomFilter.new_isOk {o : BloomOptions} : (BloomFilter.new o).isOk = o.check.isOk :=
  isOk_bind_pure

/-- Nothing past the check of its options refuses a probe map. -/
theorem ProbeMap.new_isOk [ByteHash] {o : ProbeOptions} :
    (ProbeMap.new o seed : Except TableError (ProbeMap κ ν)).isOk = o.check.isOk := by
  cases hcheck : o.check with
  | error e =>
      rw [new, hcheck]
      rfl
  | ok f =>
      obtain ⟨hround, hfilter⟩ := ProbeOptions.construction_ok hcheck
      simp only [new, hcheck, bind, Except.bind, hround, hfilter]
      rfl

/-- The hashing policy of a probe map is checked apart from its other options. -/
theorem ProbeSettings.options_check_isOk_iff {s : ProbeSettings} {h : HashingSettings} :
    (s.options h).check.isOk ↔ (s.options .standard).check.isOk ∧ h.policy.validate.isOk := by
  have hstandard : HashingSettings.standard.policy.validate.isOk := rfl
  rw [ProbeOptions.check_isOk_iff, ProbeOptions.check_isOk_iff]
  constructor
  · rintro ⟨hcapacity, hfactor, hrate, hdistance, hpolicy⟩
    exact ⟨⟨hcapacity, hfactor, hrate, hdistance, hstandard⟩, hpolicy⟩
  · rintro ⟨⟨hcapacity, hfactor, hrate, hdistance, -⟩, hpolicy⟩
    exact ⟨hcapacity, hfactor, hrate, hdistance, hpolicy⟩

namespace Settings

/-- Every container of a program comes out of its construction, with the configured hashing. -/
structure Builds (κ ν : Type) [ByteHash] [ByteKey κ] [DecidableEq κ] (seed : Seed)
    (s : Settings) : Prop where
  ring : (RingMap.new (s.ring.options s.hashing) seed : Except TableError (RingMap κ ν)).isOk
  deque : (DequeMap.new (s.deque.options s.hashing) seed : Except TableError (DequeMap κ ν)).isOk
  multi : (MultiMap.new (s.multi.options s.hashing) seed : Except TableError (MultiMap κ ν)).isOk
  cache : (LruCache.new (s.cache.options s.hashing) seed : Except TableError (LruCache κ ν)).isOk
  probe : (ProbeMap.new (s.probe.options s.hashing) seed : Except TableError (ProbeMap κ ν)).isOk
  bloom : (BloomFilter.new s.bloom.options).isOk

variable {s : Settings}

/-- Settings are accepted when every section is. -/
theorem check_isOk_iff : s.check.isOk ↔
    s.log.check.isOk ∧ s.hashing.check.isOk ∧
      (∀ c ∈ s.containers, (c.2.checkAs c.1 s.hashing).isOk) ∧
      s.probe.check.isOk ∧ s.bloom.check.isOk ∧ s.workload.check.isOk := by
  unfold check
  simp only [isOk_then_iff, isOk_forM_iff]

/-- The chained sections are accepted when their options are. -/
theorem containers_isOk_iff :
    (∀ c ∈ s.containers, (c.2.checkAs c.1 s.hashing).isOk) ↔
      (s.ring.options s.hashing).check.isOk ∧ (s.deque.options s.hashing).check.isOk ∧
        (s.multi.options s.hashing).check.isOk ∧ (s.cache.options s.hashing).check.isOk := by
  simp only [containers, ContainerSettings.checkAs, inSection_isOk, List.forall_mem_cons,
    List.not_mem_nil, false_implies, implies_true, and_true]

/-- Construction accepts what the checks of the options accept. -/
theorem builds_iff [ByteHash] : Builds κ ν seed s ↔
    ((s.ring.options s.hashing).check.isOk ∧ (s.deque.options s.hashing).check.isOk ∧
      (s.multi.options s.hashing).check.isOk ∧ (s.cache.options s.hashing).check.isOk) ∧
      (s.probe.options s.hashing).check.isOk ∧ s.bloom.options.check.isOk := by
  constructor
  · rintro ⟨hring, hdeque, hmulti, hcache, hprobe, hbloom⟩
    rw [RingMap.new_isOk] at hring
    rw [DequeMap.new_isOk] at hdeque
    rw [MultiMap.new_isOk] at hmulti
    rw [LruCache.new_isOk] at hcache
    rw [ProbeMap.new_isOk] at hprobe
    rw [BloomFilter.new_isOk] at hbloom
    exact ⟨⟨hring, hdeque, hmulti, hcache⟩, hprobe, hbloom⟩
  · rintro ⟨⟨hring, hdeque, hmulti, hcache⟩, hprobe, hbloom⟩
    exact
      { ring := by rwa [RingMap.new_isOk]
        deque := by rwa [DequeMap.new_isOk]
        multi := by rwa [MultiMap.new_isOk]
        cache := by rwa [LruCache.new_isOk]
        probe := by rwa [ProbeMap.new_isOk]
        bloom := by rwa [BloomFilter.new_isOk] }

/-- Whatever the keys, the values, the hash of bytes and the seed of keyed hashing, settings with a
valid log level and workload are accepted exactly when every container is constructed from them. No
construction is kept from returning by its search for a prime bucket count. -/
theorem check_isOk_iff_builds (κ ν : Type) [ByteHash] [ByteKey κ] [DecidableEq κ] (seed : Seed)
    (s : Settings) (hlog : s.log.check.isOk) (hworkload : s.workload.check.isOk) :
    (s.check.isOk ↔ Builds κ ν seed s) ∧
      ∀ (capacity : Nat) (f : LoadFactor),
        (nextPrime (min (f.placesFor capacity) (4 * maxCapacity))).isSome := by
  refine ⟨?_, bucketCount_search⟩
  have hpolicy : s.hashing.check.isOk = s.hashing.policy.validate.isOk := inSection_isOk
  have hprobe : s.probe.check.isOk = (s.probe.options .standard).check.isOk := inSection_isOk
  have hbloom : s.bloom.check.isOk = s.bloom.options.check.isOk := inSection_isOk
  rw [check_isOk_iff, builds_iff, containers_isOk_iff, hpolicy, hprobe, hbloom,
    ProbeSettings.options_check_isOk_iff (h := s.hashing)]
  constructor
  · rintro ⟨-, hhashing, hchained, hprobe, hbloom, -⟩
    exact ⟨hchained, ⟨hprobe, hhashing⟩, hbloom⟩
  · rintro ⟨hchained, ⟨hprobe, hhashing⟩, hbloom⟩
    exact ⟨hlog, hhashing, hchained, hprobe, hbloom, hworkload⟩

/-- Keyed and monitored settings are accepted, and construct. -/
theorem builds_keyed :
    let s : Settings := { Settings.standard with hashing := ⟨true, some 100⟩ }
    (s.log.check.isOk ∧ s.workload.check.isOk ∧ s.check.isOk) ∧ Builds String Nat ⟨3, 5⟩ s := by
  intro s
  have hlog : s.log.check.isOk := by decide +kernel
  have hworkload : s.workload.check.isOk := by decide +kernel
  have haccepted : s.check.isOk := by decide +kernel
  exact ⟨⟨hlog, hworkload, haccepted⟩,
    (check_isOk_iff_builds String Nat ⟨3, 5⟩ s hlog hworkload).1.mp haccepted⟩

end Settings

end BoundedTables
