import BoundedTables.Proofs.ProbeMap.Maintenance

/-!
# A key that comes and goes

One key is inserted into an empty table and removed, over and over. The table needs no more slots
for that (`Vacant.churn`). When it has at least four slots, and admits two of them in use, it is
never rebuilt either: the key goes back into the slot that it left, so there is never more than one
tombstone, and every insertion adds to the same filter (`Revisited.churn`).
-/

namespace BoundedTables.ProbeMap

open Hashing Sizing Binary64

variable {κ ν : Type} {c : Comparer κ} {m m' t : ProbeMap κ ν} {key : κ} {value : ν}
  {e : ProbeEntry κ ν} {f : LoadFactor} {capacity home count : Nat}

/-- Insert and remove a key a number of times. -/
def churn (key : κ) (value : ν) : Nat → List (Op κ ν)
  | 0 => []
  | n + 1 => .insert key value :: .remove key :: churn key value n

/-- What every insertion and removal of a key keep, up to a number of them, holds after that
many. -/
theorem run?_churn {P : Nat → ProbeMap κ ν → Prop} {limit : Nat}
    (hstep : ∀ count m, count < limit → P count m → ∃ full v next,
      m.insert key value = (.ok none, full) ∧ full.remove key = some (v, next) ∧
      P (count + 1) next)
    (n : Nat) (hlimit : count + n ≤ limit) (h : P count m) :
    ∃ answers final, run? perform m (churn key value n) = some (answers, final) ∧
      P (count + n) final := by
  induction n generalizing m count with
  | zero => exact ⟨[], m, rfl, h⟩
  | succ n ih =>
      obtain ⟨full, v, next, hinsert, hremove, hnext⟩ := hstep count m (by omega) h
      obtain ⟨answers, final, hrun, hfinal⟩ := ih (by omega) hnext
      have hfirst : m.perform (.insert key value) = some (.ok (.value none), full) := by
        rw [perform, hinsert]
        rfl
      have hsecond : full.perform (.remove key) = some (.ok (.value v), next) := by
        rw [perform, hremove]
        rfl
      refine ⟨_, final, run?_cons.mpr ⟨_, full, _, hfirst, run?_cons.mpr ⟨_, next, answers,
        hsecond, hrun, rfl⟩, rfl⟩, ?_⟩
      rwa [Nat.add_right_comm] at hfinal

/-- A list of one entry is split at it, with nothing on either side. -/
theorem split_singleton (hc : c.Lawful) (key : κ) (value : ν) :
    EntryList.Split c key [(key, value)] [] (key, value) [] :=
  ⟨rfl, hc.refl key, EntryList.absent_nil c key, EntryList.absent_nil c key⟩

/-- The only key leaves a table with the initial slots, which is never too small to maintain. -/
theorem Stands.remove_least (h : Stands c m [(key, value)]) (hc : c.Lawful)
    (hleast : m.minCapacity = m.slots.size) :
    ∃ m', m.remove key = some (some value, m') ∧ Stands c m' [] ∧
      m.Effect (.remove key) (.ok (.value (some value))) m' := by
  have hsplit := split_singleton hc key value
  rcases hremove : m.remove key with _ | ⟨v, m'⟩
  · have hgrown := ((remove_eq_none_iff rfl key).mp hremove).grown
    rw [hleast] at hgrown
    exact absurd hgrown (Nat.lt_irrefl _)
  · obtain ⟨hvalue, hnext⟩ := remove_stands h hc hremove
    rw [hsplit.value?_eq] at hvalue
    rw [hsplit.erase_eq] at hnext
    subst hvalue
    exact ⟨m', rfl, hnext, h.sound.effect_remove hremove⟩

/-! ## The number of slots -/

/-- An empty table that admits an entry is made ready for it without more slots. -/
theorem Readied.size_of_empty (ht : m.Readied t) (h : m.Sound) (hempty : m.live = 0)
    (hadmits : m.admits 1 = true) : t.slots.size = m.slots.size := by
  have hpos := h.suits.pos
  cases ht with
  | kept => rfl
  | swept _ hr => exact hr.size
  | doubled hfull =>
      rw [hempty] at hfull
      exact absurd hadmits (Bool.eq_false_iff.mp hfull)
  | spread hquarter hfrom =>
      obtain ⟨-, rfl⟩ | ⟨-, rfl⟩ := hfrom <;> omega

/-- The first entry joins a table that admits it without more slots. -/
theorem Stands.insert_lone (h : Stands c m []) (hc : c.Lawful) (hadmits : m.admits 1 = true)
    (hroom : 2 * m.slots.size ≤ maxPowerOfTwo) (key : κ) (value : ν) :
    ∃ m', m.insert key value = (.ok none, m') ∧ Stands c m' [(key, value)] ∧
      m'.slots.size = m.slots.size ∧ m'.removals = m.removals ∧
      m'.loadFactor = m.loadFactor := by
  have hstands := insert_stands h hc key value
  obtain ⟨m₁, hs, h₁, hl⟩ := h.lookup_absent hc (EntryList.absent_nil c key)
  have hempty : m₁.live = 0 := h₁.live_eq
  rw [← hs.admits_eq] at hadmits
  rw [insert_of_missed hl] at hstands ⊢
  obtain ⟨error, t, hnew, ht⟩ | ⟨t, i, distance, hnew, ht, -⟩ :=
    h₁.sound.insertNew_cases ⟨key, value, m.hasher.hash key⟩
  · have hsize : t.slots.size = m.slots.size := by
      obtain rfl | ht := ht
      · rw [hs.slots_eq]
      · rw [ht.size_of_empty h₁.sound hempty hadmits, hs.slots_eq]
    obtain ⟨m', -, -, ⟨hinsert, -⟩ | ⟨hinsert, -, -, hfull⟩⟩ := hstands <;>
      cases hnew.symm.trans hinsert
    omega
  · obtain ⟨m', hremovals, -, ⟨hinsert, hnext⟩ | ⟨hinsert, -⟩⟩ := hstands <;>
      cases hnew.symm.trans hinsert
    refine ⟨_, hnew, hnext, ?_, hremovals, ?_⟩
    · rw [occupy_size, ht.size_of_empty h₁.sound hempty hadmits, hs.slots_eq]
    · exact ht.rearranged.loadFactor_eq.trans hs.loadFactor_eq

/-- A table without entries, from which a number of entries were removed. -/
structure Vacant (c : Comparer κ) (f : LoadFactor) (capacity count : Nat) (m : ProbeMap κ ν) :
    Prop where
  stands : Stands c m []
  loadFactor : m.loadFactor = f
  size : m.slots.size = capacity
  removals : m.removals = count

/-- A key that comes and goes needs no more slots. -/
theorem Vacant.churn (h : Vacant c f capacity count m) (hc : c.Lawful)
    (hadmits : f.denominator ≤ capacity * f.numerator) (hroom : 2 * capacity ≤ maxPowerOfTwo)
    (key : κ) (value : ν) (n : Nat) (hdue : count + n ≤ 15) :
    ∃ answers final, run? perform m (churn key value n) = some (answers, final) ∧
      Vacant c f capacity (count + n) final := by
  have hinterval : maintenanceInterval = 16 := rfl
  refine run?_churn (fun count m hdue h => ?_) n hdue h
  obtain ⟨full, hinsert, hfull, hsize, hcount, hfactor⟩ :=
    h.stands.insert_lone hc (by rwa [admits_iff, h.loadFactor, h.size, Nat.one_mul])
      (by rwa [h.size]) key value
  rw [h.removals] at hcount
  have hsplit := split_singleton hc key value
  obtain ⟨next, hremove, hnext, hsize', hcount', hfactor', -⟩ :=
    hfull.remove_present hc hsplit.value?_eq (by rw [hcount, hinterval]; omega)
  rw [hsplit.erase_eq] at hnext
  exact ⟨full, some value, next, hinsert, hremove, hnext,
    (hfactor'.trans hfactor).trans h.loadFactor, (hsize'.trans hsize).trans h.size,
    hcount'.trans (congrArg (· + 1) hcount)⟩

/-- When the sixteenth removal leaves the only entry of fewer than four slots, the tombstone takes
more than a quarter of them. -/
theorem Vacant.maintained (h : Vacant c f capacity 15 m) (hc : c.Lawful)
    (hadmits : f.denominator ≤ capacity * f.numerator) (hfew : capacity < 4)
    (hleast : m.minCapacity = capacity) (key : κ) (value : ν) :
    ∃ full next, m.insert key value = (.ok none, full) ∧
      full.remove key = some (some value, next) ∧ next.removals = 16 ∧
      full.rebuilds < next.rebuilds := by
  have hmax : 8 ≤ maxPowerOfTwo := by decide
  obtain ⟨full, hinsert, hfull, hsize, hremovals, hfactor⟩ :=
    h.stands.insert_lone hc (by rwa [admits_iff, h.loadFactor, h.size, Nat.one_mul])
      (by rw [h.size]; omega) key value
  rw [h.size] at hsize
  rw [h.removals] at hremovals
  have hkept := (h.stands.sound.insert key value).minCapacity
  rw [hinsert, hleast] at hkept
  obtain ⟨next, hremove, -, heffect⟩ := hfull.remove_least hc (hkept.trans hsize.symm)
  refine ⟨full, next, hinsert, hremove, ?_⟩
  cases heffect with
  | settle halters => cases halters
  | @remove m₁ _ i _ hs hi hdue =>
      have hlost : (m₁.vacate i).tombstones = m₁.tombstones + 1 := rfl
      have hbound := hdue (by rw [hremovals]; rfl)
      omega
  | @maintain m₁ _ _ i _ _ hs hi hdue _ hr =>
      have hsame : (m₁.vacate i).rebuilds = full.rebuilds := hs.settled.rebuilds_eq
      have hcount : (m₁.vacate i).removals = full.removals + 1 :=
        congrArg (· + 1) hs.removals_eq
      rw [← hsame]
      exact ⟨by rw [hr.removals_eq, hcount, hremovals], hr.counted⟩

/-! ## The slot of the key -/

/-- An entry goes to its home slot if that is free and the table needs no room. -/
theorem insertNew_home (hadmits : m.admits (m.live + m.tombstones + 1) = true)
    (hfree : (m.slots[position m.slots.size e.hash 0]?).bind Slot.entry? = none) :
    m.insertNew e = (.ok none, m.occupy (position m.slots.size e.hash 0) 0 e) := by
  have hone : m.admits (m.live + 1) = true := admits_mono hadmits rfl (Nat.le_refl _) (by omega)
  have hreserve : m.reserveOne = .ok m := by
    rw [reserveOne, hone, hadmits]
    rfl
  have hclaim : m.claimSlot e.hash = (.ok (some (position m.slots.size e.hash 0, 0)), m) := by
    rw [claimSlot, freeSlot, freeFrom, hfree]
    rfl
  rw [insertNew, hreserve]
  dsimp only
  rw [hclaim]

/-- No other slot than one was ever used, and it is the only one that may be a tombstone. -/
structure Solitary (m : ProbeMap κ ν) (home : Nat) : Prop where
  unused : ∀ j < m.slots.size, j ≠ home → m.slots[j]? = some .empty
  tombstones : m.tombstones ≤ 1
  lost : 0 < m.tombstones → isTombstone m.slots home = true

/-- An occupied slot is the only one that was ever used. -/
theorem Solitary.occupied_eq (h : Solitary m home) {i : Nat}
    (hi : m.slots[i]? = some (.occupied e)) : i = home := by
  by_contra hne
  have hunused := h.unused i (Array.getElem?_eq_some_iff.mp hi).1 hne
  cases hi.symm.trans hunused

/-- A lookup leaves the only slot that was ever used. -/
theorem Solitary.same (h : Solitary m home) (hs : m.SameTable m') : Solitary m' home := by
  obtain ⟨_, _, _, _, rfl⟩ := hs
  exact ⟨h.unused, h.tombstones, h.lost⟩

/-- Writing the one slot leaves the others unused. -/
theorem Solitary.write (h : Solitary m home) (slot : Slot κ ν) {j : Nat}
    (hj : j < (m.slots.setIfInBounds home slot).size) (hne : j ≠ home) :
    (m.slots.setIfInBounds home slot)[j]? = some .empty := by
  rw [Array.size_setIfInBounds] at hj
  rw [Array.getElem?_setIfInBounds_ne hne.symm]
  exact h.unused j hj hne

/-- An entry takes the place of the only tombstone. -/
theorem Solitary.occupy (h : Solitary m home) (distance : Nat) (e : ProbeEntry κ ν) :
    Solitary (m.occupy home distance e) home ∧ (m.occupy home distance e).tombstones = 0 := by
  have hclean : (m.occupy home distance e).tombstones = 0 := by
    have hmost := h.tombstones
    have hlost := h.lost
    unfold ProbeMap.occupy place noteArrival setSlot
    dsimp only
    split
    · omega
    · rename_i hkept
      exact Nat.eq_zero_of_not_pos fun hpos => hkept (hlost hpos)
  exact ⟨⟨fun j hj hne => h.write _ hj hne, by omega, by omega⟩, hclean⟩

/-- A removal leaves the only tombstone. -/
theorem Solitary.vacate (h : Solitary m home) (hclean : m.tombstones = 0)
    (hi : m.slots[home]? = some (.occupied e)) : Solitary (m.vacate home) home where
  unused j hj hne := h.write _ hj hne
  tombstones := Nat.le_of_eq (congrArg (· + 1) hclean)
  lost _ := by
    have hlt := (Array.getElem?_eq_some_iff.mp hi).1
    rw [isTombstone_iff, ProbeMap.vacate, Array.getElem?_setIfInBounds_self_of_lt hlt]

/-- The key goes to its home slot, and its hash into the filter. -/
theorem Stands.insert_home (h : Stands c m []) (hc : c.Lawful) (hadmits : m.admits 2 = true)
    (hhome : Solitary m (position m.slots.size (c.code key) 0)) (value : ν) :
    ∃ m', m.insert key value = (.ok none, m') ∧ Stands c m' [(key, value)] ∧
      Solitary m' (position m.slots.size (c.code key) 0) ∧ m'.tombstones = 0 ∧
      m'.slots.size = m.slots.size ∧ m'.removals = m.removals ∧ m'.loadFactor = m.loadFactor ∧
      m'.filter = (m.filter.insertHash (c.code key).toUInt64).2 := by
  have hstands := insert_stands h hc key value
  have hhash : m.hasher.hash key = c.code key := by rw [KeyHasher.hash, h.comparer]
  obtain ⟨m₁, hs, h₁, hl⟩ := h.lookup_absent hc (EntryList.absent_nil c key)
  have hempty : m₁.live = 0 := h₁.live_eq
  have hhome₁ := hhome.same hs
  rw [← hs.slots_eq] at hhome₁
  have hfree : (m₁.slots[position m₁.slots.size (c.code key) 0]?).bind Slot.entry? = none := by
    rcases hslot : m₁.slots[position m₁.slots.size (c.code key) 0]? with _ | _ | _ | e
    · rfl
    · rfl
    · rfl
    · exact absurd hempty (Nat.ne_of_gt (h₁.sound.live_pos hslot))
  have hnew := insertNew_home (m := m₁) (e := ⟨key, value, c.code key⟩)
    (admits_mono hadmits hs.loadFactor_eq (Nat.le_of_eq (congrArg Array.size hs.slots_eq).symm)
      (by have hmost := hhome₁.tombstones; omega)) hfree
  rw [insert_of_missed hl, hhash, hnew] at hstands ⊢
  obtain ⟨m', hremovals, -, ⟨hinsert, hnext⟩ | ⟨hinsert, -⟩⟩ := hstands <;> cases hinsert
  obtain ⟨hhome', hclean⟩ := hhome₁.occupy 0 ⟨key, value, c.code key⟩
  rw [← hs.slots_eq]
  refine ⟨_, rfl, hnext, hhome', hclean, occupy_size .., hremovals, hs.loadFactor_eq, ?_⟩
  obtain ⟨_, _, _, _, rfl⟩ := hs
  rfl

/-- The removal of the key keeps the filter. No maintenance changes a table with the initial slots
for a single tombstone among four. -/
theorem Stands.remove_home (h : Stands c m [(key, value)]) (hc : c.Lawful)
    (hhome : Solitary m home) (hclean : m.tombstones = 0)
    (hleast : m.minCapacity = m.slots.size) (hfour : 4 ≤ m.slots.size) :
    ∃ m', m.remove key = some (some value, m') ∧ Stands c m' [] ∧ Solitary m' home ∧
      m'.slots.size = m.slots.size ∧ m'.removals = m.removals + 1 ∧
      m'.loadFactor = m.loadFactor ∧ m'.filter = m.filter := by
  obtain ⟨m', hremove, hnext, heffect⟩ := h.remove_least hc hleast
  refine ⟨m', hremove, hnext, ?_⟩
  cases heffect with
  | settle halters => cases halters
  | remove hs hi =>
      have hhome₁ := hhome.same hs
      obtain rfl := hhome₁.occupied_eq hi
      obtain ⟨_, _, _, _, rfl⟩ := hs
      exact ⟨hhome₁.vacate hclean hi, vacate_size .., rfl, rfl, rfl⟩
  | @maintain m₁ _ _ i capacity _ hs hi _ hsize hr =>
      obtain ⟨-, hmany⟩ | ⟨hless, htarget⟩ := hsize
      · have hone : (m₁.vacate i).tombstones = 1 :=
          congrArg (· + 1) (hs.tombstones_eq.trans hclean)
        omega
      · have hinitial := (((h.sound.same hs).vacate hi).1.shrinkTarget htarget).initial
        have hkept : (m₁.vacate i).minCapacity = m.minCapacity := hs.minCapacity_eq
        omega

/-- A vacant table with the initial slots, of which only the home slot of a key was ever used, and
with a hash in its filter for every entry that was removed. -/
structure Revisited (c : Comparer κ) (f : LoadFactor) (capacity : Nat) (key : κ) (count : Nat)
    (m : ProbeMap κ ν) : Prop extends Vacant c f capacity count m where
  least : m.minCapacity = capacity
  home : Solitary m (position capacity (c.code key) 0)
  items : m.filter.items = min count maxWord

/-- A key joins a table that it was removed from as often as it was inserted. -/
theorem Revisited.insert (h : Revisited c f capacity key count m) (hc : c.Lawful)
    (hadmits : 2 * f.denominator ≤ capacity * f.numerator) (value : ν) :
    ∃ m', m.insert key value = (.ok none, m') ∧ Stands c m' [(key, value)] ∧
      Solitary m' (position capacity (c.code key) 0) ∧ m'.tombstones = 0 ∧
      m'.slots.size = capacity ∧ m'.removals = count ∧ m'.loadFactor = f ∧
      m'.minCapacity = capacity ∧ m'.filter.items = min (count + 1) maxWord := by
  obtain ⟨m', hinsert, hnext, hhome, hclean, hsize, hremovals, hfactor, hfilter⟩ :=
    h.stands.insert_home hc (by rwa [admits_iff, h.loadFactor, h.size])
      (by rw [h.size]; exact h.home) value
  rw [h.size] at hhome
  have hkept := (h.stands.sound.insert key value).minCapacity
  rw [hinsert] at hkept
  have hitems : m'.filter.items = min (m.filter.items + 1) maxWord := by
    rw [hfilter, BloomFilter.insertHash_eq]
  refine ⟨m', hinsert, hnext, hhome, hclean, hsize.trans h.size, hremovals.trans h.removals,
    hfactor.trans h.loadFactor, hkept.trans h.least, ?_⟩
  have hcapped (word : Nat) : min (min count word + 1) word = min (count + 1) word := by omega
  rw [hitems, h.items, hcapped]

/-- A key that comes and goes adds to the filter every time, however often. -/
theorem Revisited.churn (h : Revisited c f capacity key count m) (hc : c.Lawful)
    (hadmits : 2 * f.denominator ≤ capacity * f.numerator) (hfour : 4 ≤ capacity) (value : ν)
    (n : Nat) :
    ∃ answers final, run? perform m (churn key value n) = some (answers, final) ∧
      Revisited c f capacity key (count + n) final := by
  refine run?_churn (fun count m _ h => ?_) n (Nat.le_refl _) h
  obtain ⟨full, hinsert, hfull, hhome, hclean, hsize, hremovals, hfactor, hleast, hitems⟩ :=
    h.insert hc hadmits value
  obtain ⟨next, hremove, hnext, hhome', hsize', hremovals', hfactor', hfilter⟩ :=
    hfull.remove_home hc hhome hclean (hleast.trans hsize.symm) (by omega)
  have hkept := (hfull.sound.remove hremove).minCapacity
  refine ⟨full, some value, next, hinsert, hremove, ⟨hnext, hfactor'.trans hfactor,
    hsize'.trans hsize, hremovals'.trans (congrArg (· + 1) hremovals)⟩, hkept.trans hleast,
    hhome', ?_⟩
  rw [hfilter, hitems]

/-! ## New tables -/

/-- A new table was never used. -/
theorem withComparer_revisited {o : ProbeOptions} (hvalid : o.check = .ok f)
    (hm : withComparer o c = .ok m) (key : κ) : Revisited c f m.slots.size key 0 m := by
  obtain ⟨m', hm', hstands, hremovals, -⟩ : ∃ m : ProbeMap κ ν, _ := withComparer_stands hvalid c
  cases hm.symm.trans hm'
  cases (withComparer_eq hvalid c).symm.trans hm
  refine ⟨⟨hstands, rfl, rfl, hremovals⟩, (initial_size ..).symm,
    ⟨fun j hj _ => ?_, Nat.zero_le _, nofun⟩, (Nat.zero_min _).symm⟩
  rw [initial_size] at hj
  rw [initial, build, emptySlots, Array.getElem?_replicate, if_pos hj]

/-- In two slots, the sixteenth removal of the same key rebuilds the table. -/
theorem sixteenth_removal_rebuilds :
    { ProbeOptions.standard with initialCapacity := 2 }.check.isOk ∧
    ∃ (m full next : ProbeMap UInt64 Nat) (answers : List (Except TableError (Reply Nat))),
      withComparer { ProbeOptions.standard with initialCapacity := 2 } .natural = .ok m ∧
      run? perform m (churn 1 10 15 ++ [.insert 1 10]) = some (answers, full) ∧
      full.remove 1 = some (some 10, next) ∧ next.removals = 16 ∧
      full.rebuilds < next.rebuilds := by
  obtain ⟨f, hvalid, hhalf⟩ := exists_ok_of_any
    (x := { ProbeOptions.standard with initialCapacity := 2 }.check)
    (p := fun f => f.denominator ≤ 2 * f.numerator) (by decide +kernel)
  have hadmits : f.denominator ≤ 2 * f.numerator := of_decide_eq_true hhalf
  obtain ⟨m, hm, -⟩ : ∃ m : ProbeMap UInt64 Nat, _ := withComparer_stands hvalid .natural
  obtain ⟨-, hleast, -⟩ := withComparer_ok hm
  have htwo : m.slots.size = 2 := withComparer_size hvalid hm
  have hstart := (withComparer_revisited hvalid hm 1).toVacant
  rw [htwo] at hstart hleast
  obtain ⟨_, t, hchurn, ht⟩ :=
    hstart.churn Comparer.natural_lawful hadmits (by decide) 1 10 15 (by decide)
  have hkept := (hstart.stands.sound.run hchurn).2
  obtain ⟨full, next, hinsert, hremove, hremovals, hrebuilt⟩ :=
    ht.maintained Comparer.natural_lawful hadmits (by decide) (hkept.trans hleast) 1 10
  have hlast : run? perform t [.insert 1 10] = some ([.ok (.value none)], full) := by
    rw [run?, perform, hinsert]
    rfl
  exact ⟨by rw [hvalid]; rfl, m, full, next, _, hm, run?_append hchurn hlast, hremove, hremovals,
    hrebuilt⟩

/-- Four slots admit two of them in use. -/
theorem four_slots_revisited :
    ∃ f, { ProbeOptions.standard with initialCapacity := 4 }.check = .ok f ∧
    2 * f.denominator ≤ 4 * f.numerator ∧
    ∃ m : ProbeMap UInt64 Nat,
      withComparer { ProbeOptions.standard with initialCapacity := 4 } .natural = .ok m ∧
      Revisited .natural f 4 1 0 m := by
  obtain ⟨f, hvalid, htwo⟩ := exists_ok_of_any
    (x := { ProbeOptions.standard with initialCapacity := 4 }.check)
    (p := fun f => 2 * f.denominator ≤ 4 * f.numerator) (by decide +kernel)
  obtain ⟨m, hm, -⟩ : ∃ m : ProbeMap UInt64 Nat, _ := withComparer_stands hvalid .natural
  have hfour : m.slots.size = 4 := withComparer_size hvalid hm
  have hstart := withComparer_revisited hvalid hm 1
  rw [hfour] at hstart
  exact ⟨f, hvalid, of_decide_eq_true htwo, m, hm, hstart⟩

end BoundedTables.ProbeMap
