import BoundedTables.Proofs.ProbeMap.Load

/-!
# Tables that double for every entry

A load factor may be so small that no table admits an entry within it. Every insertion of a new
key then doubles the table (`Stands.insert_doubles`), until it cannot grow and the next one is
refused (`Stands.insert_refused`). A few dozen entries take a table to the largest slot count, and
the runs here lead to such states: new keys that double the table each (`Stands.run_doubles`), and
removals that are too few for maintenance (`Stands.run_removes`).
-/

namespace BoundedTables.ProbeMap

open Hashing Sizing

variable {κ ν : Type} {c : Comparer κ} {m : ProbeMap κ ν} {s s' : List (κ × ν)} {key : κ} {v : ν}

/-- The order of the entries does not matter. -/
theorem Stands.perm_right (h : Stands c m s) (hp : s.Perm s') : Stands c m s' :=
  ⟨h.sound, h.comparer, h.hashed, h.distinct, h.perm.trans hp⟩

/-- A tiny load factor admits no entry, whatever the slot count. -/
theorem admits_none (htiny : maxPowerOfTwo * m.loadFactor.numerator < m.loadFactor.denominator)
    (hsize : m.slots.size ≤ maxPowerOfTwo) (used : Nat) : m.admits (used + 1) = false := by
  rw [← Bool.not_eq_true, admits_iff, Nat.not_le]
  calc m.slots.size * m.loadFactor.numerator
      ≤ maxPowerOfTwo * m.loadFactor.numerator := Nat.mul_le_mul_right _ hsize
    _ < m.loadFactor.denominator := htiny
    _ ≤ (used + 1) * m.loadFactor.denominator := Nat.le_mul_of_pos_left _ (Nat.succ_pos _)

/-! ## Single operations -/

/-- Looking up an absent key finds no slot. -/
theorem Stands.lookup_absent (h : Stands c m s) (hc : c.Lawful)
    (habsent : EntryList.Absent c key s) :
    ∃ m', m.SameTable m' ∧ Stands c m' s ∧ m.lookup key = (none, m') := by
  obtain ⟨m', hs, h', ⟨hl, -⟩ | ⟨i, e, -, hi, hkey⟩⟩ := h.lookup hc key
  · exact ⟨m', hs, h', hl⟩
  · exact absurd (h'.value?_of_slot hc hi hkey) (by rw [habsent.value?_eq]; nofun)

/-- Looking up a present key finds a slot with its value. -/
theorem Stands.lookup_present (h : Stands c m s) (hc : c.Lawful)
    (hvalue : EntryList.value? c key s = some v) :
    ∃ m' i e, m.SameTable m' ∧ Stands c m' s ∧ m.lookup key = (some i, m') ∧
      m'.slots[i]? = some (.occupied e) ∧ c.equals e.key key = true ∧ e.value = v := by
  obtain ⟨m', hs, h', ⟨-, habsent⟩ | ⟨i, e, hl, hi, hkey⟩⟩ := h.lookup hc key
  · exact absurd hvalue (by rw [habsent.value?_eq]; nofun)
  · exact ⟨m', i, e, hs, h', hl, hi, hkey,
      Option.some.inj ((h'.value?_of_slot hc hi hkey).symm.trans hvalue)⟩

/-- A new key doubles a table that does not admit it and is less than half full. -/
theorem Stands.insert_doubles (h : Stands c m s) (hc : c.Lawful)
    (habsent : EntryList.Absent c key s) (hfull : m.admits (m.live + 1) = false)
    (hroom : 2 * m.slots.size ≤ maxPowerOfTwo) (hsparse : 2 * m.live < m.slots.size) (value : ν) :
    ∃ m', m.insert key value = (.ok none, m') ∧ Stands c m' ((key, value) :: s) ∧
      m.Doubled m' := by
  have hstands := insert_stands h hc key value
  obtain ⟨m₁, hs, h₁, hl⟩ := h.lookup_absent hc habsent
  rw [← hs.admits_eq, ← hs.live_eq] at hfull
  rw [← hs.slots_eq] at hroom hsparse
  rw [← hs.live_eq] at hsparse
  rw [insert_of_missed hl] at hstands ⊢
  obtain ⟨m', hnew, hdoubled⟩ := h₁.sound.insertNew_doubles ⟨key, value, m.hasher.hash key⟩
    hfull hroom hsparse
  refine ⟨m', hnew, ?_, ?_⟩
  · obtain ⟨m₂, -, -, ⟨hinsert, hnext⟩ | ⟨hinsert, -⟩⟩ := hstands
    · obtain ⟨-, rfl⟩ := Prod.ext_iff.mp (hnew.symm.trans hinsert)
      rwa [Ideal.insert_of_absent habsent] at hnext
    · cases hnew.symm.trans hinsert
  · obtain ⟨_, _, _, _, rfl⟩ := hs
    exact ⟨hdoubled.size, hdoubled.live, hdoubled.removals, hdoubled.loadFactor,
      hdoubled.minCapacity⟩

/-- A new key is refused by a table that does not admit it and cannot grow. -/
theorem Stands.insert_refused (h : Stands c m s) (hc : c.Lawful)
    (habsent : EntryList.Absent c key s) (hfull : m.admits (m.live + 1) = false)
    (hmax : maxPowerOfTwo < 2 * m.slots.size) (value : ν) :
    ∃ m', m.insert key value = (.error (.capacityExhausted m.slots.size), m') := by
  obtain ⟨m₁, hs, -, hl⟩ := h.lookup_absent hc habsent
  rw [← hs.admits_eq, ← hs.live_eq] at hfull
  rw [insert_of_missed hl, insertNew, reserveOne_full hfull, grow, grownCapacity, hs.slots_eq,
    if_neg (by omega)]
  exact ⟨m₁, rfl⟩

/-- The removal of a present key, when no maintenance is due. -/
theorem Stands.remove_present (h : Stands c m s) (hc : c.Lawful)
    (hvalue : EntryList.value? c key s = some v)
    (hdue : ¬ (m.removals + 1) % maintenanceInterval = 0) :
    ∃ m', m.remove key = some (some v, m') ∧ Stands c m' (EntryList.erase c key s) ∧
      m'.slots.size = m.slots.size ∧ m'.removals = m.removals + 1 ∧
      m'.loadFactor = m.loadFactor ∧ m'.minCapacity = m.minCapacity := by
  obtain ⟨m₁, i, e, hs, h₁, hl, hi, hkey, rfl⟩ := h.lookup_present hc hvalue
  refine ⟨m₁.vacate i, ?_, h₁.vacate hc hi hkey, ?_, congrArg (· + 1) hs.removals_eq,
    hs.loadFactor_eq, hs.minCapacity_eq⟩
  · have hcount : (m₁.vacate i).removals = m.removals + 1 := congrArg (· + 1) hs.removals_eq
    rw [remove, hl]
    dsimp only
    rw [hcount, if_neg hdue, ProbeMap.value?_eq hi]
  · rw [vacate_size, hs.slots_eq]

/-! ## Runs -/

/-- Under a load factor that admits no entry, new keys double a table each. -/
theorem Stands.run_doubles (h : Stands c m s) (hc : c.Lawful)
    (htiny : maxPowerOfTwo * m.loadFactor.numerator < m.loadFactor.denominator)
    (added : List (κ × ν)) (hdistinct : EntryList.Distinct c (added ++ s))
    (hsparse : 2 * m.live + 2 ≤ m.slots.size)
    (hroom : 2 ^ added.length * m.slots.size ≤ maxPowerOfTwo) :
    ∃ answers final, run? perform m (added.map fun e => .insert e.1 e.2) = some (answers, final) ∧
      Stands c final (added ++ s) ∧ final.slots.size = 2 ^ added.length * m.slots.size ∧
      final.removals = m.removals ∧ final.loadFactor = m.loadFactor ∧
      final.minCapacity = m.minCapacity := by
  induction added generalizing m s with
  | nil => exact ⟨[], m, rfl, h, by simp, rfl, rfl, rfl⟩
  | cons e added ih =>
      rw [List.length_cons, Nat.pow_succ, Nat.mul_assoc] at hroom
      have hmoved : (e :: added ++ s).Perm (added ++ e :: s) := List.perm_middle.symm
      replace hdistinct := hdistinct.perm hc hmoved
      have habsent : EntryList.Absent c e.1 s := fun a ha => by
        have hne := (List.pairwise_cons.mp (List.pairwise_append.mp hdistinct).2.1).1 a ha
        rwa [Comparer.hasKey, EntryList.equals_comm hc]
      have hdouble : 2 * m.slots.size ≤ maxPowerOfTwo :=
        (Nat.le_mul_of_pos_left _ (Nat.two_pow_pos _)).trans hroom
      have hfull := admits_none htiny (by omega) m.live
      obtain ⟨next, hinsert, hnext, hdoubled⟩ :=
        h.insert_doubles hc habsent hfull hdouble (by omega) e.2
      have hfirst : m.perform (.insert e.1 e.2) = some (.ok (.value none), next) := by
        rw [perform, hinsert]
        rfl
      obtain ⟨answers, final, hrun, hfinal, hsize, hremovals, hfactor, hinitial⟩ :=
        ih hnext (by rwa [hdoubled.loadFactor]) hdistinct
          (by rw [hdoubled.live, hdoubled.size]; omega) (by rwa [hdoubled.size])
      refine ⟨_, final, run?_cons.mpr ⟨_, next, answers, hfirst, hrun, rfl⟩,
        hfinal.perm_right hmoved.symm, ?_, hremovals.trans hdoubled.removals,
        hfactor.trans hdoubled.loadFactor, hinitial.trans hdoubled.minCapacity⟩
      rw [hsize, hdoubled.size, List.length_cons, Nat.pow_succ, Nat.mul_assoc]

/-- Removals that are too few for maintenance keep the slots. -/
theorem Stands.run_removes (hc : c.Lawful) (gone : List (κ × ν)) (h : Stands c m (gone ++ s))
    (hremovals : m.removals + gone.length < maintenanceInterval) :
    ∃ answers final, run? perform m (gone.map fun e => .remove e.1) = some (answers, final) ∧
      Stands c final s ∧ final.slots.size = m.slots.size ∧
      final.removals = m.removals + gone.length ∧ final.loadFactor = m.loadFactor ∧
      final.minCapacity = m.minCapacity := by
  induction gone generalizing m with
  | nil => exact ⟨[], m, rfl, h, rfl, rfl, rfl, rfl⟩
  | cons e gone ih =>
      rw [List.length_cons] at hremovals
      have hdistinct : EntryList.Distinct c ([] ++ e :: (gone ++ s)) := h.distinct.perm hc h.perm
      have hsplit : EntryList.Split c e.1 (e :: (gone ++ s)) [] e (gone ++ s) :=
        hdistinct.split hc (hc.refl e.1)
      obtain ⟨next, hremove, hnext, hsize, hcount, hfactor, hinitial⟩ :=
        h.remove_present hc hsplit.value?_eq (by rw [Nat.mod_eq_of_lt (by omega)]; omega)
      replace hnext : Stands c next (gone ++ s) := hsplit.erase_eq ▸ hnext
      have hfirst : m.perform (.remove e.1) = some (.ok (.value (some e.2)), next) := by
        rw [perform, hremove]
        rfl
      obtain ⟨answers, final, hrun, hfinal, hsize', hcount', hfactor', hinitial'⟩ :=
        ih hnext (by omega)
      refine ⟨_, final, run?_cons.mpr ⟨_, next, answers, hfirst, hrun, rfl⟩, hfinal,
        hsize'.trans hsize, ?_, hfactor'.trans hfactor, hinitial'.trans hinitial⟩
      rw [hcount', hcount, List.length_cons]
      omega

/-! ## Four slots under a tiny load factor -/

/-- Options under which no table admits an entry. -/
def tinyLoad : ProbeOptions :=
  { ProbeOptions.standard with initialCapacity := 4, loadFactor := 1e-300 }

/-- Keys counted from zero, each with its number. -/
def numbered (n : Nat) : List (UInt64 × Nat) := (List.range n).map fun i => (UInt64.ofNat i, i)

/-- As many keys as there are words can be numbered with no two equal. -/
theorem numbered_distinct {n : Nat} (h : n ≤ 2 ^ 64) :
    EntryList.Distinct (Comparer.natural : Comparer UInt64) (numbered n) := by
  rw [EntryList.Distinct, numbered, List.pairwise_map]
  refine List.pairwise_lt_range.imp_of_mem fun {i j} hi hj hlt => decide_eq_false fun heq => ?_
  rw [List.mem_range] at hi hj
  have hword : i % 2 ^ 64 = j % 2 ^ 64 := congrArg UInt64.toNat heq
  omega

/-- Up to sixty keys double the four slots as many times. -/
theorem tinyLoad_run {n : Nat} (hn : n ≤ 60) : ∃ f, tinyLoad.check = .ok f ∧
    2 ^ 64 * f.numerator ≤ f.denominator ∧
    ∃ (m full : ProbeMap UInt64 Nat) (answers : List (Except TableError (Reply Nat))),
      withComparer tinyLoad .natural = .ok m ∧
      run? perform m ((numbered n).map fun e => .insert e.1 e.2) = some (answers, full) ∧
      Stands .natural full (numbered n) ∧ full.slots.size = 2 ^ (n + 2) ∧ full.removals = 0 ∧
      full.loadFactor = f ∧ full.minCapacity = 4 := by
  obtain ⟨f, hvalid, htiny⟩ := exists_ok_of_any (x := tinyLoad.check)
    (p := fun f => Nat.pow 2 64 * f.numerator ≤ f.denominator) (by decide +kernel)
  replace htiny : 2 ^ 64 * f.numerator ≤ f.denominator := of_decide_eq_true htiny
  obtain ⟨m, hm, hempty, hremovals, -⟩ : ∃ m : ProbeMap UInt64 Nat, _ :=
    withComparer_stands hvalid .natural
  obtain ⟨hstart, hlive, hinitial, -⟩ := withComparer_loaded hvalid hm
  have hfour : m.slots.size = 4 := withComparer_size hvalid hm
  have hmax : maxPowerOfTwo = 2 ^ 62 := by decide
  have hlength : (numbered n).length = n := by rw [numbered, List.length_map, List.length_range]
  have hpos := f.numerator_pos
  have hsize : 2 ^ (numbered n).length * m.slots.size = 2 ^ (n + 2) := by
    rw [hlength, hfour, Nat.pow_add]
  have hpow : 2 ^ (n + 2) ≤ 2 ^ 62 := Nat.pow_le_pow_right (by decide) (by omega)
  obtain ⟨answers, full, hrun, hfull, hgrown, hcount, hfactor, hleast⟩ :=
    hempty.run_doubles Comparer.natural_lawful (by rw [hstart.loadFactor, hmax]; omega)
      (numbered n) (by rw [List.append_nil]; exact numbered_distinct (by omega))
      (by rw [hlive, hfour]; decide) (by rw [hsize, hmax]; exact hpow)
  rw [List.append_nil] at hfull
  exact ⟨f, hvalid, htiny, m, full, answers, hm, hrun, hfull, hgrown.trans hsize,
    hcount.trans hremovals, hfactor.trans hstart.loadFactor,
    hleast.trans (hinitial.trans hfour)⟩

end BoundedTables.ProbeMap
