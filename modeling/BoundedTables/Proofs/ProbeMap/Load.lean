import BoundedTables.Proofs.ProbeMap.Effects

/-!
# How full a probe table gets

An insertion first makes room for one more entry: it keeps the table, sweeps out its tombstones, or
doubles it once. So a new key leaves the used slots within the load factor, or else in a table that
has just doubled and has no tombstones. One doubling is always enough exactly when twice the
initial slot count holds one entry within the load factor (`reachable_load`).
-/

namespace BoundedTables.ProbeMap

open Hashing Sizing

variable {κ ν : Type} {m m' t : ProbeMap κ ν} {e : ProbeEntry κ ν} {c : Comparer κ} {hash : UInt32}
  {f : LoadFactor} {i distance capacity : Nat}

/-- The slots in use, live or lost, are within a load factor. -/
def WithinLoad (f : LoadFactor) (m : ProbeMap κ ν) : Prop :=
  (m.live + m.tombstones) * f.denominator ≤ m.slots.size * f.numerator

/-! ## Bounds on a reachable table -/

/-- The load factor of a table is the one it was given, its slot count is no larger than the
largest one, and it is within the load factor if one entry is within it after one doubling. -/
structure Loaded (f : LoadFactor) (m : ProbeMap κ ν) : Prop where
  sound : m.Sound
  loadFactor : m.loadFactor = f
  size_le : m.slots.size ≤ maxPowerOfTwo
  light : f.denominator ≤ 2 * m.minCapacity * f.numerator →
    m.live * f.denominator ≤ m.slots.size * f.numerator

/-- A table without more entries, and with at least as many slots, stays within bounds. -/
theorem Loaded.relieve (h : Loaded f m) (hsound : m'.Sound)
    (hfactor : m'.loadFactor = m.loadFactor) (hinitial : m'.minCapacity = m.minCapacity)
    (hsize : m.slots.size ≤ m'.slots.size) (hmax : m'.slots.size ≤ maxPowerOfTwo)
    (hlive : m'.live ≤ m.live) : Loaded f m' where
  sound := hsound
  loadFactor := hfactor.trans h.loadFactor
  size_le := hmax
  light hwide := by
    rw [hinitial] at hwide
    calc m'.live * f.denominator ≤ m.live * f.denominator := Nat.mul_le_mul_right _ hlive
      _ ≤ m.slots.size * f.numerator := h.light hwide
      _ ≤ m'.slots.size * f.numerator := Nat.mul_le_mul_right _ hsize

/-- A lookup keeps a table within its load. -/
theorem Loaded.same (h : Loaded f m) (hs : m.SameTable m') : Loaded f m' := by
  have hsound := h.sound.same hs
  obtain ⟨_, _, _, _, rfl⟩ := hs
  exact h.relieve hsound rfl rfl (Nat.le_refl _) h.size_le (Nat.le_refl _)

/-- A rebuild into no fewer slots keeps a table within its load. -/
theorem Loaded.rebuilt (h : Loaded f m) (hr : m.Rebuilt capacity m')
    (hsize : m.slots.size ≤ capacity) (hmax : capacity ≤ maxPowerOfTwo) : Loaded f m' :=
  h.relieve hr.sound hr.loadFactor_eq hr.minCapacity_eq (hsize.trans_eq hr.size.symm)
    (hr.size.trans_le hmax) (Nat.le_of_eq hr.live_eq)

/-! ## Each operation -/

/-- The used slots after a new entry has joined a table that was made ready for it. -/
theorem Readied.load (h : m.Readied t) (i distance : Nat) (e : ProbeEntry κ ν) :
    WithinLoad m.loadFactor (t.occupy i distance e) ∨ (m.admits (m.live + 1) = false ∧
      (t.occupy i distance e).tombstones = 0 ∧
      2 * m.slots.size ≤ (t.occupy i distance e).slots.size) := by
  have htombstones := t.occupy_tombstones_le i distance e
  have hlive : (t.occupy i distance e).live = t.live + 1 := rfl
  rw [WithinLoad, occupy_size, hlive]
  -- a table without tombstones, and with enough slots for one more entry, is within the load
  have hwithin {capacity : Nat} (hadmits : m.admits (m.live + 1) = true)
      (hr : m.Rebuilt capacity t) (hsize : m.slots.size ≤ capacity) :
      (t.live + 1 + (t.occupy i distance e).tombstones) * m.loadFactor.denominator ≤
        t.slots.size * m.loadFactor.numerator := by
    rw [hr.swept, Nat.le_zero] at htombstones
    rw [htombstones, hr.live_eq, hr.size]
    exact (admits_iff.mp hadmits).trans (Nat.mul_le_mul_right _ hsize)
  cases h with
  | kept journal hadmits =>
      refine .inl ((Nat.mul_le_mul_right _ ?_).trans (admits_iff.mp hadmits))
      dsimp only at htombstones ⊢
      omega
  | swept hadmits hr => exact .inl (hwithin hadmits hr (Nat.le_refl _))
  | doubled hfull _ hr =>
      rw [hr.swept, Nat.le_zero] at htombstones
      exact .inr ⟨hfull, htombstones, Nat.le_of_eq hr.size.symm⟩
  | spread _ hfrom _ hr =>
      obtain ⟨hadmits, rfl⟩ | ⟨hfull, rfl⟩ := hfrom
      · exact .inl (hwithin hadmits hr (by omega))
      · rw [hr.swept, Nat.le_zero] at htombstones
        exact .inr ⟨hfull, htombstones, by rw [hr.size]; omega⟩

/-- One doubling makes room for one more entry when it does so for the first one: after that, the
entries at most double with the slots. -/
theorem Loaded.light_double (h : Loaded f m)
    (hwide : f.denominator ≤ 2 * m.minCapacity * f.numerator) :
    (m.live + 1) * f.denominator ≤ 2 * m.slots.size * f.numerator := by
  rcases Nat.eq_zero_or_pos m.live with hzero | hpos
  · rw [hzero, Nat.zero_add, Nat.one_mul]
    exact hwide.trans (Nat.mul_le_mul_right _ (Nat.mul_le_mul_left 2 h.sound.suits.initial))
  · calc (m.live + 1) * f.denominator ≤ 2 * m.live * f.denominator :=
          Nat.mul_le_mul_right _ (by omega)
      _ = 2 * (m.live * f.denominator) := Nat.mul_assoc ..
      _ ≤ 2 * (m.slots.size * f.numerator) := Nat.mul_le_mul_left 2 (h.light hwide)
      _ = 2 * m.slots.size * f.numerator := (Nat.mul_assoc ..).symm

/-- Making ready for an entry keeps a table within its load. -/
theorem Loaded.readied (h : Loaded f m) (ht : m.Readied t) : Loaded f t := by
  cases ht with
  | kept journal => exact h.same ⟨_, _, _, rfl, rfl⟩
  | swept _ hr => exact h.rebuilt hr (Nat.le_refl _) h.size_le
  | doubled _ hmax hr => exact h.rebuilt hr (by omega) hmax
  | spread _ hfrom hmax hr =>
      exact h.rebuilt hr (by obtain ⟨-, rfl⟩ | ⟨-, rfl⟩ := hfrom <;> omega) hmax

/-- A new entry leaves the table within its load factor when one doubling is always enough. -/
theorem Loaded.withinLoad (h : Loaded f m) (ht : m.Readied t) (i distance : Nat)
    (e : ProbeEntry κ ν) (hwide : f.denominator ≤ 2 * m.minCapacity * f.numerator) :
    WithinLoad f (t.occupy i distance e) := by
  rcases ht.load i distance e with hwithin | ⟨-, hswept, hdoubled⟩
  · rwa [h.loadFactor] at hwithin
  · have hlive : (t.occupy i distance e).live = m.live + 1 := congrArg (· + 1) ht.rearranged.live_eq
    rw [WithinLoad, hlive, hswept]
    exact (h.light_double hwide).trans (Nat.mul_le_mul_right _ hdoubled)

/-- A slot filled after making ready for it keeps a table within its load. -/
theorem Loaded.occupy (h : Loaded f m) (ht : m.Readied t)
    (hsound : (t.occupy i distance e).Sound) : Loaded f (t.occupy i distance e) where
  sound := hsound
  loadFactor := (h.readied ht).loadFactor
  size_le := by
    rw [occupy_size]
    exact (h.readied ht).size_le
  light hwide := by
    have hinitial : (t.occupy i distance e).minCapacity = m.minCapacity :=
      ht.rearranged.minCapacity_eq
    rw [hinitial] at hwide
    exact (Nat.mul_le_mul_right _ (Nat.le_add_right _ _)).trans
      (h.withinLoad ht i distance e hwide)

/-- A size to shrink to holds the entries within the load factor, unless it is no shrinking. -/
theorem shrinkTarget?_fits {target : Nat} (htarget : m.shrinkTarget? = some target)
    (hless : target < m.slots.size) :
    m.live * m.loadFactor.denominator ≤ target * m.loadFactor.numerator := by
  unfold ProbeMap.shrinkTarget? at htarget
  dsimp only at htarget
  split at htarget
  · cases htarget
  · cases htarget
    split at hless
    · rename_i size hnext
      exact (fits_of_nextPowerOfTwo hnext).trans
        (Nat.mul_le_mul_right _ (Nat.le_max_left size m.minCapacity))
    · omega

/-- A removed entry keeps a table within its load. -/
theorem Loaded.vacate (h : Loaded f m) (hi : m.slots[i]? = some (.occupied e)) :
    Loaded f (m.vacate i) :=
  h.relieve (h.sound.vacate hi).1 rfl rfl (Nat.le_of_eq (m.vacate_size i).symm)
    ((m.vacate_size i).trans_le h.size_le) (Nat.sub_le ..)

/-- Shrinking to the target of the maintenance keeps a table within its load. -/
theorem Loaded.shrunk (h : Loaded f m) (hr : m.Rebuilt capacity m')
    (htarget : m.shrinkTarget? = some capacity) (hless : capacity < m.slots.size) :
    Loaded f m' where
  sound := hr.sound
  loadFactor := hr.loadFactor_eq.trans h.loadFactor
  size_le := by
    rw [hr.size]
    exact (Nat.le_of_lt hless).trans h.size_le
  light _ := by
    rw [hr.size, hr.live_eq, ← h.loadFactor]
    exact shrinkTarget?_fits htarget hless

/-- Every operation keeps a table within bounds. -/
theorem Loaded.perform (h : Loaded f m) {op : Op κ ν} {answer : Except TableError (Reply ν)}
    (hperform : m.perform op = some (answer, m')) : Loaded f m' := by
  have hsound := (h.sound.perform hperform).sound
  cases h.sound.effect hperform with
  | settle _ hs =>
      obtain ⟨⟨_, _, _, _, _, rfl⟩, hsize, -⟩ := hs
      exact h.relieve hsound rfl rfl (Nat.le_of_eq hsize.symm) (hsize.trans_le h.size_le)
        (Nat.le_refl _)
  | refuse hs ht =>
      obtain rfl | ht := ht
      · exact h.same hs
      · exact (h.same hs).readied ht
  | add hs ht => exact (h.same hs).occupy ht hsound
  | remove hs hi _ => exact (h.same hs).vacate hi
  | @maintain m₁ _ _ i _ _ hs hi _ hsize hr =>
      have hvacated := (h.same hs).vacate hi
      have hkept : (m₁.vacate i).slots.size = m.slots.size := by rw [vacate_size, hs.slots_eq]
      rw [← hkept] at hsize
      obtain ⟨rfl, -⟩ | ⟨hless, htarget⟩ := hsize
      · exact hvacated.rebuilt hr (Nat.le_refl _) hvacated.size_le
      · exact hvacated.shrunk hr htarget hless
  | clear =>
      have hsize : m.clear.slots.size = m.slots.size := Array.size_replicate
      exact h.relieve hsound rfl rfl (Nat.le_of_eq hsize.symm) (hsize.trans_le h.size_le)
        (Nat.zero_le _)

/-- Every run keeps a table within bounds. -/
theorem Loaded.run (h : Loaded f m) {ops : List (Op κ ν)}
    {answers : List (Except TableError (Reply ν))}
    (hrun : run? ProbeMap.perform m ops = some (answers, m')) : Loaded f m' :=
  run?_keeps (fun _ _ _ _ hs => Loaded.perform hs) h hrun

/-! ## Insertions of new keys -/

/-- An insertion of a new key leaves the used slots within the load factor, or in a table that has
just doubled. -/
theorem Loaded.insert_load (h : Loaded f m) {key : κ} {value : ν}
    (hinsert : m.insert key value = (.ok none, m')) :
    (WithinLoad f m' ∨ (m'.tombstones = 0 ∧ 2 * m.slots.size ≤ m'.slots.size)) ∧
      (f.denominator ≤ 2 * m.minCapacity * f.numerator → WithinLoad f m') := by
  obtain ⟨m₁, hs, -, hl | ⟨i, e, hl, hi⟩⟩ := h.sound.lookup key
  · rw [insert_of_missed hl] at hinsert
    have h₁ := h.same hs
    obtain ⟨_, _, hnew, -⟩ | ⟨t, i, distance, hnew, ht, -⟩ :=
      h₁.sound.insertNew_cases ⟨key, value, m.hasher.hash key⟩
    · cases hnew.symm.trans hinsert
    · cases hnew.symm.trans hinsert
      refine ⟨?_, fun hwide => ?_⟩
      · rcases ht.load i distance _ with hwithin | ⟨-, hswept, hdoubled⟩
        · rw [h₁.loadFactor] at hwithin
          exact .inl hwithin
        · rw [hs.slots_eq] at hdoubled
          exact .inr ⟨hswept, hdoubled⟩
      · rw [← hs.minCapacity_eq] at hwide
        exact h₁.withinLoad ht i distance _ hwide
  · rw [insert_of_found hl, value?_eq hi] at hinsert
    cases hinsert

/-- A table with one more entry, in twice as many slots. -/
structure Doubled (m m' : ProbeMap κ ν) : Prop where
  size : m'.slots.size = 2 * m.slots.size
  live : m'.live = m.live + 1
  removals : m'.removals = m.removals
  loadFactor : m'.loadFactor = m.loadFactor
  minCapacity : m'.minCapacity = m.minCapacity

/-- Filling a slot of a table of twice the size leaves one more entry in twice as many slots. -/
theorem Rebuilt.doubled (h : m.Rebuilt (2 * m.slots.size) t) (i distance : Nat)
    (e : ProbeEntry κ ν) : m.Doubled (t.occupy i distance e) where
  size := (t.occupy_size i distance e).trans h.size
  live := congrArg (· + 1) h.live_eq
  removals := h.removals_eq
  loadFactor := h.loadFactor_eq
  minCapacity := h.minCapacity_eq

/-- When the load factor does not admit one more entry, the table grows. -/
theorem reserveOne_full (hfull : m.admits (m.live + 1) = false) : m.reserveOne = m.grow := by
  rw [ProbeMap.reserveOne, hfull]
  rfl

/-- A table that does not admit one more entry, and is less than half full, doubles once. -/
theorem Sound.insertNew_doubles (h : m.Sound) (e : ProbeEntry κ ν)
    (hfull : m.admits (m.live + 1) = false) (hroom : 2 * m.slots.size ≤ maxPowerOfTwo)
    (hsparse : 2 * m.live < m.slots.size) :
    ∃ m', m.insertNew e = (.ok none, m') ∧ m.Doubled m' := by
  obtain ⟨t, hgrow⟩ : ∃ t, m.grow = .ok t := by
    rw [ProbeMap.grow, grownCapacity, if_pos hroom]
    exact ⟨_, rfl⟩
  have hr := (h.grow_ok hgrow).2
  have hreserve : m.reserveOne = .ok t := (reserveOne_full hfull).trans hgrow
  -- the table that has doubled is less than a quarter full, so it does not grow again
  have hquarter : ¬ t.slots.size ≤ 4 * t.live := by
    rw [hr.size, hr.live_eq]
    omega
  unfold ProbeMap.insertNew ProbeMap.claimSlot
  rw [hreserve]
  dsimp only
  rcases freeSlot t.slots e.hash t.maxProbeDistance with _ | ⟨i, distance⟩
  · dsimp only
    rw [if_neg hquarter]
    obtain ⟨i, distance, _, hforce, -⟩ := hr.sound.forceSlot e.hash
    obtain ⟨journal, hframe⟩ := t.forceSlot_eq e.hash
    rw [hforce] at hframe
    cases hframe
    dsimp only
    rw [hforce]
    have hd := hr.doubled i distance e
    exact ⟨_, rfl, hd.size, hd.live, hd.removals, hd.loadFactor, hd.minCapacity⟩
  · exact ⟨_, rfl, hr.doubled i distance e⟩

/-- A lookup in an empty table finds nothing. -/
theorem Sound.lookup_of_empty (h : m.Sound) (hempty : m.live = 0) (key : κ) :
    ∃ m', m.SameTable m' ∧ m.lookup key = (none, m') := by
  obtain ⟨m₁, hs, h₁, hl | ⟨i, e, hl, hi⟩⟩ := h.lookup key
  · exact ⟨m₁, hs, hl⟩
  · have hpos := h.counted.found key i m₁ hl
    obtain ⟨_, _, _, _, rfl⟩ := hs
    exact absurd hempty (Nat.ne_of_gt hpos)

/-- The first entry of a table exceeds a load factor that admits less than one entry in twice the
slots. -/
theorem Loaded.insert_exceeds (h : Loaded f m) (hempty : m.live = 0)
    (hroom : 2 * m.slots.size ≤ maxPowerOfTwo)
    (hnarrow : 2 * m.slots.size * f.numerator < f.denominator) (key : κ) (value : ν) :
    ∃ m', m.insert key value = (.ok none, m') ∧ ¬ WithinLoad f m' := by
  obtain ⟨m₁, hs, hl⟩ := h.sound.lookup_of_empty hempty key
  have h₁ := h.same hs
  have hempty₁ : m₁.live = 0 := hs.live_eq.trans hempty
  rw [← hs.slots_eq] at hroom hnarrow
  have hdouble := Nat.mul_assoc 2 m₁.slots.size f.numerator
  have hfull : m₁.admits (m₁.live + 1) = false := by
    rw [← Bool.not_eq_true, admits_iff, hempty₁, h₁.loadFactor, Nat.zero_add, Nat.one_mul]
    omega
  have hsparse : 2 * m₁.live < m₁.slots.size := by
    rw [hempty₁]
    exact h₁.sound.suits.pos
  rw [insert_of_missed hl]
  obtain ⟨m', hinsert, hdoubled⟩ := h₁.sound.insertNew_doubles ⟨key, value, m.hasher.hash key⟩
    hfull hroom hsparse
  refine ⟨m', hinsert, fun hwithin => ?_⟩
  rw [WithinLoad, hdoubled.live, hdoubled.size, hempty₁, Nat.zero_add] at hwithin
  have hone : f.denominator ≤ (1 + m'.tombstones) * f.denominator :=
    Nat.le_mul_of_pos_left _ (by omega)
  omega

/-! ## Reachable tables -/

variable {o : ProbeOptions}

/-- A new table is empty, and far from the largest slot count. -/
theorem withComparer_loaded (hvalid : o.check = .ok f) (hm : withComparer o c = .ok m) :
    Loaded f m ∧ m.live = 0 ∧ m.minCapacity = m.slots.size ∧ m.slots.size ≤ maxCapacity := by
  cases (withComparer_eq hvalid c).symm.trans hm
  have hsize : (initial o f (KeyHasher.withComparer o.hashing c).1
      (KeyHasher.withComparer o.hashing c).2 : ProbeMap κ ν).slots.size ≤ maxCapacity := by
    rw [initial_size]
    exact ceilPowerOfTwo_le (ProbeOptions.check_ok hvalid).1.2
  refine ⟨⟨initial_sound hvalid _ _, rfl, hsize.trans (by decide), fun _ => ?_⟩, rfl,
    (initial_size o f _ _).symm, hsize⟩
  exact (Nat.zero_mul _).trans_le (Nat.zero_le _)

/-- After an insertion of a new key, in every reachable table, the used slots are within the load
factor, or the table has just doubled and has no tombstones. They are always within the load
factor exactly when twice the initial slots hold one entry within it. -/
theorem reachable_load [Nonempty κ] [Nonempty ν] (hvalid : o.check = .ok f) (c : Comparer κ) :
    ∃ m : ProbeMap κ ν, withComparer o c = .ok m ∧
      (∀ ops answers final key value m', run? perform m ops = some (answers, final) →
        final.insert key value = (.ok none, m') →
        WithinLoad f m' ∨ (m'.tombstones = 0 ∧ 2 * final.slots.size ≤ m'.slots.size)) ∧
      ((∀ ops answers final key value m', run? perform m ops = some (answers, final) →
        final.insert key value = (.ok none, m') → WithinLoad f m') ↔
        f.denominator ≤ 2 * m.slots.size * f.numerator) := by
  obtain ⟨m, hm, -⟩ : ∃ m : ProbeMap κ ν, _ := withComparer_stands hvalid c
  obtain ⟨hstart, hempty, hinitial, hsize⟩ := withComparer_loaded hvalid hm
  refine ⟨m, hm, fun ops answers final key value m' hrun hinsert => ?_, ?_, ?_⟩
  · exact ((hstart.run hrun).insert_load hinsert).1
  · intro hwithin
    by_contra hnarrow
    obtain ⟨key⟩ := ‹Nonempty κ›
    obtain ⟨value⟩ := ‹Nonempty ν›
    have hmax : 2 * maxCapacity ≤ maxPowerOfTwo := by decide
    obtain ⟨m', hinsert, hexceeds⟩ :=
      hstart.insert_exceeds hempty (by omega) (Nat.lt_of_not_le hnarrow) key value
    exact hexceeds (hwithin [] [] m key value m' rfl hinsert)
  · intro hwide ops answers final key value m' hrun hinsert
    have hkept := (hstart.sound.run hrun).2
    rw [← hinitial, ← hkept] at hwide
    exact ((hstart.run hrun).insert_load hinsert).2 hwide

/-- Sixteen slots hold their first entry within a load factor of three quarters. -/
theorem first_within_load : ∃ f, ProbeOptions.standard.check = .ok f ∧
    ∃ m m' : ProbeMap UInt64 Nat, withComparer .standard .natural = .ok m ∧
      m.insert 1 10 = (.ok none, m') ∧ WithinLoad f m' := by
  obtain ⟨f, hvalid, hhalf⟩ := exists_ok_of_any (x := ProbeOptions.standard.check)
    (p := fun f => f.denominator ≤ 2 * f.numerator) (by decide +kernel)
  obtain ⟨m, hm, -, -, hwithin⟩ : ∃ m : ProbeMap UInt64 Nat, _ := reachable_load hvalid .natural
  obtain ⟨m₁, hm₁, hstart, -, hsize⟩ : ∃ m : ProbeMap UInt64 Nat, _ :=
    withComparer_stands hvalid .natural
  cases hm.symm.trans hm₁
  have hpos := hstart.sound.suits.pos
  have hwide : f.denominator ≤ 2 * m.slots.size * f.numerator :=
    (of_decide_eq_true hhalf).trans (Nat.mul_le_mul_right _ (by omega))
  obtain ⟨m', -, hgrown, ⟨hinsert, -⟩ | ⟨-, -, -, hfull⟩⟩ :=
    insert_stands hstart Comparer.natural_lawful 1 10
  · exact ⟨f, hvalid, m, m', hm, hinsert, hwithin hwide [] [] m 1 10 m' rfl hinsert⟩
  · have hmax : 8 * maxCapacity ≤ maxPowerOfTwo := by decide
    omega

/-- A single slot with a load factor of one tenth doubles for its first entry, which then takes
half of the slots. -/
theorem first_exceeds_load : ∃ f,
    { ProbeOptions.standard with initialCapacity := 1, loadFactor := 0.1 }.check = .ok f ∧
    ∃ m m' : ProbeMap UInt64 Nat,
      withComparer { ProbeOptions.standard with initialCapacity := 1, loadFactor := 0.1 }
        .natural = .ok m ∧
      m.insert 1 10 = (.ok none, m') ∧ ¬ WithinLoad f m' := by
  obtain ⟨f, hvalid, hnarrow⟩ := exists_ok_of_any
    (x := { ProbeOptions.standard with initialCapacity := 1, loadFactor := 0.1 }.check)
    (p := fun f => 2 * 1 * f.numerator < f.denominator) (by decide +kernel)
  obtain ⟨m, hm, -⟩ : ∃ m : ProbeMap UInt64 Nat, _ := withComparer_stands hvalid .natural
  obtain ⟨hstart, hempty, -, hsize⟩ := withComparer_loaded hvalid hm
  have hone : m.slots.size = 1 := by
    cases (withComparer_eq hvalid .natural).symm.trans hm
    exact initial_size ..
  obtain ⟨m', hinsert, hexceeds⟩ := hstart.insert_exceeds hempty (by rw [hone]; decide)
    (by rw [hone]; exact of_decide_eq_true hnarrow) 1 10
  exact ⟨f, hvalid, m, m', hm, hinsert, hexceeds⟩

end BoundedTables.ProbeMap
