import BoundedTables.Proofs.ProbeMap.Churn
import Mathlib.Algebra.Order.Field.Basic
import Mathlib.Algebra.Order.Field.Rat
import Mathlib.Tactic.Linarith

/-!
# Bounds on the slots and on the tombstones

A table only doubles when its entries exceed the load factor, or when it is at least a quarter
full. So its slots are bounded by the most entries it ever had to hold, whatever the hashes
(`reachable_size`). A table is swept when a sixteenth removal finds too many tombstones. So they
take a quarter of the slots at most, and one more slot for every removal since
(`reachable_tombstones`).
-/

namespace BoundedTables.ProbeMap

open Hashing Sizing

variable {κ ν : Type} {m m' t : ProbeMap κ ν} {c : Comparer κ} {f : LoadFactor} {op : Op κ ν}
  {answer : Except TableError (Reply ν)} {initial most most' count : Nat}

/-! ## Slots -/

/-- The most entries that an insertion of an absent key has asked for, after an operation. -/
def mostAsked (m : ProbeMap κ ν) (op : Op κ ν) (answer : Except TableError (Reply ν))
    (_ : ProbeMap κ ν) (most : Nat) : Nat :=
  match op, answer with
  | .insert _ _, .ok (.value (some _)) => most
  | .insert _ _, _ => max most (m.live + 1)
  | _, _ => most

/-- The slot count that a number of entries may take: the initial one, eight for each entry, or
twice what the load factor asks for. -/
def sizeBound (f : LoadFactor) (initial most : Nat) : ℚ :=
  max initial (max (8 * most) (2 * most / (f.numerator / f.denominator)))

/-- More entries may take more slots. -/
theorem sizeBound_mono (h : most ≤ most') :
    sizeBound f initial most ≤ sizeBound f initial most' := by
  have hmost : (most : ℚ) ≤ most' := Nat.cast_le.mpr h
  unfold sizeBound
  gcongr

/-- Twice the slots that are at most a quarter too many. -/
theorem le_sizeBound_of_quarter {size : Nat} (h : size ≤ 8 * most) :
    (size : ℚ) ≤ sizeBound f initial most :=
  le_max_of_le_right (le_max_of_le_left (by exact_mod_cast h))

/-- Twice the slots that a number of entries exceeded. -/
theorem le_sizeBound_of_load {size : Nat}
    (h : size * f.numerator ≤ 2 * most * f.denominator) :
    (size : ℚ) ≤ sizeBound f initial most := by
  refine le_max_of_le_right (le_max_of_le_right ?_)
  have hnumerator : (0 : ℚ) < f.numerator := Nat.cast_pos.mpr f.numerator_pos
  have hdenominator : (0 : ℚ) < f.denominator :=
    Nat.cast_pos.mpr (f.numerator_pos.trans f.numerator_lt)
  rw [le_div_iff₀ (div_pos hnumerator hdenominator), ← mul_div_assoc,
    div_le_iff₀ hdenominator]
  exact_mod_cast h

/-- An operation that neither adds nor drops an entry asks for none. -/
theorem mostAsked_of_settled (halters : alters op answer = false) (m' : ProbeMap κ ν)
    (most : Nat) : mostAsked m op answer m' most = most := by
  unfold mostAsked
  split
  · rfl
  · rename_i hnew
    unfold alters at halters
    split at halters <;> simp_all
  · rfl

/-- A table whose slots are within the bound for the entries that were asked for. -/
structure Moderate (f : LoadFactor) (initial : Nat) (m : ProbeMap κ ν) (most : Nat) : Prop where
  loaded : Loaded f m
  size : (m.slots.size : ℚ) ≤ sizeBound f initial most

/-- Making room for an entry stays within the bound for the entries with it. -/
theorem Moderate.readied (h : Moderate f initial m most) (ht : m.Readied t) :
    (t.slots.size : ℚ) ≤ sizeBound f initial (max most (m.live + 1)) := by
  have hkept : (m.slots.size : ℚ) ≤ sizeBound f initial (max most (m.live + 1)) :=
    h.size.trans (sizeBound_mono (Nat.le_max_left ..))
  have hasked : m.live + 1 ≤ max most (m.live + 1) := Nat.le_max_right ..
  cases ht with
  | kept => exact hkept
  | swept _ hr =>
      rw [hr.size]
      exact hkept
  | doubled hfull _ hr =>
      rw [← Bool.not_eq_true, admits_iff, h.loaded.loadFactor, Nat.not_le] at hfull
      rw [hr.size]
      refine le_sizeBound_of_load ?_
      calc 2 * m.slots.size * f.numerator = 2 * (m.slots.size * f.numerator) := Nat.mul_assoc ..
        _ ≤ 2 * ((m.live + 1) * f.denominator) := Nat.mul_le_mul_left 2 (Nat.le_of_lt hfull)
        _ ≤ 2 * (max most (m.live + 1) * f.denominator) :=
          Nat.mul_le_mul_left 2 (Nat.mul_le_mul_right _ hasked)
        _ = 2 * max most (m.live + 1) * f.denominator := (Nat.mul_assoc ..).symm
  | spread hquarter _ _ hr =>
      rw [hr.size]
      exact le_sizeBound_of_quarter (by omega)

/-- Every operation stays within the bound. -/
theorem Moderate.perform (h : Moderate f initial m most)
    (hperform : m.perform op = some (answer, m')) :
    Moderate f initial m' (mostAsked m op answer m' most) := by
  refine ⟨h.loaded.perform hperform, ?_⟩
  have hready {m₁ t : ProbeMap κ ν} (hs : m.SameTable m₁) (ht : m₁.Readied t) :
      (t.slots.size : ℚ) ≤ sizeBound f initial (max most (m.live + 1)) := by
    have h₁ : Moderate f initial m₁ most := ⟨h.loaded.same hs, by rw [hs.slots_eq]; exact h.size⟩
    rw [← hs.live_eq]
    exact h₁.readied ht
  cases h.loaded.sound.effect hperform with
  | settle halters hs =>
      rw [mostAsked_of_settled halters, hs.size]
      exact h.size
  | refuse hs ht =>
      obtain rfl | ht := ht
      · rw [hs.slots_eq]
        exact h.size.trans (sizeBound_mono (Nat.le_max_left ..))
      · exact hready hs ht
  | add hs ht =>
      rw [occupy_size]
      exact hready hs ht
  | remove hs hi _ =>
      rw [vacate_size, hs.slots_eq]
      exact h.size
  | maintain _ _ _ hsize hr =>
      have hle : m'.slots.size ≤ m.slots.size := by
        rw [hr.size]
        obtain ⟨rfl, -⟩ | ⟨hless, -⟩ := hsize <;> omega
      exact (Nat.cast_le.mpr hle).trans h.size
  | clear =>
      have hsize : m.clear.slots.size = m.slots.size := Array.size_replicate
      rw [hsize]
      exact h.size

/-! ## Tombstones -/

/-- The number of removals that found their key, after an operation. -/
def removedSoFar (_ : ProbeMap κ ν) (op : Op κ ν) (answer : Except TableError (Reply ν))
    (_ : ProbeMap κ ν) (count : Nat) : Nat :=
  match op, answer with
  | .remove _, .ok (.value (some _)) => count + 1
  | _, _ => count

/-- An operation that neither adds nor drops an entry is no removal. -/
theorem removedSoFar_of_settled (halters : alters op answer = false) (m' : ProbeMap κ ν)
    (count : Nat) : removedSoFar m op answer m' count = count := by
  unfold removedSoFar
  split
  · cases halters
  · rfl

/-- A table that counts its removals, and has few tombstones for the removals since the last
maintenance. -/
structure Swept (m : ProbeMap κ ν) (count : Nat) : Prop where
  sound : m.Sound
  removals : m.removals = count
  tombstones : 4 * m.tombstones ≤ m.slots.size + 4 * (count % maintenanceInterval)

/-- A lookup leaves the tombstones and the count of removals. -/
theorem Swept.same (h : Swept m count) (hs : m.SameTable m') : Swept m' count := by
  have hsound := h.sound.same hs
  obtain ⟨_, _, _, _, rfl⟩ := hs
  exact ⟨hsound, h.removals, h.tombstones⟩

/-- A rebuilt table has no tombstones. -/
theorem Rebuilt.cleared {capacity : Nat} (hr : m.Rebuilt capacity m')
    (hcount : m.removals = count) : Swept m' count where
  sound := hr.sound
  removals := hr.removals_eq.trans hcount
  tombstones := by
    rw [hr.swept]
    omega

/-- Making ready for an entry adds no tombstone and is no removal. -/
theorem Swept.readied (h : Swept m count) (ht : m.Readied t) : Swept t count := by
  obtain ⟨_, rfl⟩ | ⟨_, hr⟩ := ht.kept_or_rebuilt
  · exact h.same ⟨_, _, _, rfl, rfl⟩
  · exact hr.cleared h.removals

/-- Every operation keeps the tombstones few. -/
theorem Swept.perform (h : Swept m count) (hperform : m.perform op = some (answer, m')) :
    Swept m' (removedSoFar m op answer m' count) := by
  have hsound := (h.sound.perform hperform).sound
  cases h.sound.effect hperform with
  | settle halters hs =>
      rw [removedSoFar_of_settled halters]
      obtain ⟨⟨_, _, _, _, _, rfl⟩, hsize, -⟩ := hs
      exact ⟨hsound, h.removals, by rw [hsize]; exact h.tombstones⟩
  | refuse hs ht =>
      obtain rfl | ht := ht
      · exact h.same hs
      · exact (h.same hs).readied ht
  | @add m₁ t _ _ i distance hs ht =>
      have ht := (h.same hs).readied ht
      refine ⟨hsound, ht.removals, ?_⟩
      rw [occupy_size]
      exact (Nat.mul_le_mul_left 4 (t.occupy_tombstones_le i distance _)).trans ht.tombstones
  | @remove m₁ _ i _ hs hi hdue =>
      have h₁ := h.same hs
      refine ⟨hsound, congrArg (· + 1) h₁.removals, ?_⟩
      have hlost : (m₁.vacate i).tombstones = m₁.tombstones + 1 := rfl
      have hfew := h₁.tombstones
      have hinterval : maintenanceInterval = 16 := rfl
      show 4 * (m₁.vacate i).tombstones ≤
        (m₁.vacate i).slots.size + 4 * ((count + 1) % maintenanceInterval)
      rw [vacate_size]
      rw [h.removals, ← hs.slots_eq] at hdue
      -- the count wraps around exactly when the table is maintained
      by_cases hwraps : (count + 1) % maintenanceInterval = 0
      · exact (hdue hwraps).trans (Nat.le_add_right ..)
      · rw [hinterval] at hfew hwraps ⊢
        omega
  | maintain hs hi _ _ hr => exact hr.cleared (congrArg (· + 1) (h.same hs).removals)
  | clear => exact ⟨hsound, h.removals, Nat.zero_le _⟩

/-! ## Reachable tables -/

variable {o : ProbeOptions}

/-- The slots of every reachable table are within the bound for the most entries that an insertion
of an absent key has asked for, whatever the hashes and the largest probe distance. -/
theorem reachable_size (hvalid : o.check = .ok f) (c : Comparer κ) :
    ∃ m : ProbeMap κ ν, withComparer o c = .ok m ∧
      ∀ ops answers final, run? perform m ops = some (answers, final) →
        (final.slots.size : ℚ) ≤
          sizeBound f m.slots.size (chronicle perform mostAsked m 0 ops) := by
  obtain ⟨m, hm, -⟩ : ∃ m : ProbeMap κ ν, _ := withComparer_stands hvalid c
  obtain ⟨hstart, -⟩ := withComparer_loaded hvalid hm
  refine ⟨m, hm, fun ops answers final hrun => ?_⟩
  have hfirst : Moderate f m.slots.size m 0 := ⟨hstart, le_max_left ..⟩
  refine (run?_keeps_chronicle (P := Moderate f m.slots.size) ?_ hfirst hrun).size
  exact fun _ _ _ _ _ ht hstep => ht.perform hstep

/-- Ten keys with the same hash, of which no more than three are near enough to home. -/
theorem size_of_equal_hashes : ∃ f,
    { ProbeOptions.standard with initialCapacity := 4, maxProbeDistance := 2 }.check = .ok f ∧
    ∃ m : ProbeMap UInt64 Nat,
      withComparer { ProbeOptions.standard with initialCapacity := 4, maxProbeDistance := 2 }
        { (Comparer.natural : Comparer UInt64) with hash := fun _ => 0 } = .ok m ∧
      ∃ answers final,
        run? perform m ((numbered 10).map fun e => .insert e.1 e.2) = some (answers, final) ∧
        (final.slots.size : ℚ) ≤ sizeBound f m.slots.size (chronicle perform mostAsked m 0
          ((numbered 10).map fun e => .insert e.1 e.2)) := by
  obtain ⟨f, hvalid, hlarge⟩ := exists_ok_of_any
    (x := { ProbeOptions.standard with initialCapacity := 4, maxProbeDistance := 2 }.check)
    (p := fun f => f.denominator ≤ 32 * f.numerator) (by decide +kernel)
  obtain ⟨m, hm, hruns⟩ : ∃ m : ProbeMap UInt64 Nat, _ := reachable_size hvalid
    { (Comparer.natural : Comparer UInt64) with hash := fun _ => 0 }
  obtain ⟨⟨answers, final⟩, hrun⟩ := Option.isSome_iff_exists.mp
    ((withComparer_loaded hvalid hm).1.run_isSome (of_decide_eq_true hlarge)
      ((numbered 10).map fun e => .insert e.1 e.2))
  exact ⟨f, hvalid, m, hm, answers, final, hrun, hruns _ _ _ hrun⟩

/-- A new table has no tombstones, and has counted no removal. -/
theorem withComparer_swept (hvalid : o.check = .ok f) (hm : withComparer o c = .ok m) :
    Swept m 0 := by
  cases (withComparer_eq hvalid c).symm.trans hm
  exact ⟨initial_sound hvalid _ _, rfl, Nat.zero_le _⟩

/-- Every run keeps the tombstones few. -/
theorem Swept.run (h : Swept m count) {ops : List (Op κ ν)}
    {answers : List (Except TableError (Reply ν))}
    (hrun : run? ProbeMap.perform m ops = some (answers, m')) :
    Swept m' (chronicle ProbeMap.perform removedSoFar m count ops) := by
  refine run?_keeps_chronicle ?_ h hrun
  exact fun _ _ _ _ _ ht hstep => ht.perform hstep

/-- In every reachable table, the tombstones in the slots are counted, and they take at most a
quarter of the slots and one more slot for every removal since the last sixteenth one. -/
theorem reachable_tombstones (hvalid : o.check.isOk) (c : Comparer κ) :
    ∃ m : ProbeMap κ ν, withComparer o c = .ok m ∧
      ∀ ops answers final, run? perform m ops = some (answers, final) →
        tombstonesOf final.slots = final.tombstones ∧
        (final.tombstones : ℚ) ≤ final.slots.size / 4 +
          (chronicle perform removedSoFar m 0 ops % 16 : ℕ) ∧
        (chronicle perform removedSoFar m 0 ops % 16 = 0 →
          (final.tombstones : ℚ) ≤ final.slots.size / 4) := by
  obtain ⟨f, hvalid⟩ := exists_ok hvalid
  obtain ⟨m, hm, -⟩ : ∃ m : ProbeMap κ ν, _ := withComparer_stands hvalid c
  refine ⟨m, hm, fun ops answers final hrun => ?_⟩
  have hfinal := (withComparer_swept hvalid hm).run hrun
  have hfew : (4 : ℚ) * final.tombstones ≤
      final.slots.size + 4 * (chronicle perform removedSoFar m 0 ops % 16 : ℕ) := by
    exact_mod_cast hfinal.tombstones
  refine ⟨hfinal.sound.tombstones, by linarith, fun hwhole => ?_⟩
  rw [hwhole, Nat.cast_zero] at hfew
  linarith

/-- In two slots, the sixteenth removal of the same key sweeps its tombstone. -/
theorem tombstones_after_maintenance :
    { ProbeOptions.standard with initialCapacity := 2 }.check.isOk ∧
    ∃ m : ProbeMap UInt64 Nat,
      withComparer { ProbeOptions.standard with initialCapacity := 2 } .natural = .ok m ∧
      ∃ answers final,
        run? perform m (churn 1 10 15 ++ [.insert 1 10] ++ [.remove 1]) = some (answers, final) ∧
        chronicle perform removedSoFar m 0 (churn 1 10 15 ++ [.insert 1 10] ++ [.remove 1]) = 16 ∧
        (final.tombstones : ℚ) ≤ final.slots.size / 4 := by
  obtain ⟨hok, m, full, next, _, hm, hfull, hremove, hremovals, -⟩ := sixteenth_removal_rebuilds
  obtain ⟨f, hvalid⟩ := exists_ok hok
  obtain ⟨m', hm', hruns⟩ : ∃ m : ProbeMap UInt64 Nat, _ := reachable_tombstones hok .natural
  cases hm.symm.trans hm'
  have hlast : run? perform full [.remove 1] = some ([.ok (.value (some 10))], next) := by
    rw [run?, perform, hremove]
    rfl
  have hrun := run?_append hfull hlast
  have hcount := ((withComparer_swept hvalid hm).run hrun).removals.symm.trans hremovals
  exact ⟨hok, m, hm, _, next, hrun, hcount, (hruns _ _ _ hrun).2.2 (by rw [hcount])⟩

end BoundedTables.ProbeMap
