import BoundedTables.Proofs.ProbeMap.Doubling
import BoundedTables.Proofs.Sizing.Overflow

/-!
# Removals that have no result

Maintenance asks for the size that holds the remaining entries within the load factor, and for one
place more. When the entries over the load factor are clamped to a word, that sum does not fit, and
the removal that the maintenance is part of has no result. This is the only way in which an
operation fails to return, and no load factor of at least a thirty-second comes to it
(`reachable_returns`).
-/

namespace BoundedTables.ProbeMap

open Hashing Sizing

variable {κ ν : Type} {m m' : ProbeMap κ ν} {c : Comparer κ} {f : LoadFactor} {key : κ}

/-- The removal of a key maintains a table for which the size to shrink to does not fit in a
word. -/
structure Overflows (f : LoadFactor) (m : ProbeMap κ ν) (key : κ) : Prop where
  found : (m.lookup key).1.isSome
  due : (m.removals + 1) % maintenanceInterval = 0
  grown : m.minCapacity < m.slots.size
  sparse : (m.live - 1) * shrinkShare.2 < m.slots.size * shrinkShare.1
  places : (2 ^ 64 - 2 ^ 10) * f.numerator ≤ (m.live - 1) * f.denominator

/-- There is no slot count to shrink to when the entries over the load factor round to `2 ^ 64` or
more. -/
theorem shrinkTarget?_eq_none_iff : m.shrinkTarget? = none ↔
    (2 ^ 64 - 2 ^ 10) * m.loadFactor.numerator ≤ m.live * m.loadFactor.denominator := by
  rw [← m.loadFactor.maxWord_le_placesFor_iff]
  unfold shrinkTarget?
  dsimp only
  split
  · rename_i hword
    exact ⟨fun _ => by omega, fun _ => rfl⟩
  · rename_i hword
    exact ⟨nofun, fun hplaces => absurd hplaces (by omega)⟩

/-- Maintenance does not return when the table is due to shrink and there is no slot count to shrink
to. -/
theorem maintain_eq_none_iff : m.maintain = none ↔ m.minCapacity < m.slots.size ∧
    m.live * shrinkShare.2 < m.slots.size * shrinkShare.1 ∧
    (2 ^ 64 - 2 ^ 10) * m.loadFactor.numerator ≤ m.live * m.loadFactor.denominator := by
  rw [← shrinkTarget?_eq_none_iff]
  unfold maintain
  dsimp only
  split
  · rename_i hsparse
    rw [Option.map_eq_none_iff]
    exact ⟨fun htarget => ⟨hsparse.1, of_decide_eq_true hsparse.2, htarget⟩, fun h => h.2.2⟩
  · rename_i hsparse
    exact ⟨nofun, fun h => absurd ⟨h.1, decide_eq_true h.2.1⟩ hsparse⟩

/-- A removal has no result exactly when its maintenance overflows. -/
theorem remove_eq_none_iff (hfactor : m.loadFactor = f) (key : κ) :
    m.remove key = none ↔ Overflows f m key := by
  have hs := m.lookup_sameTable key
  unfold ProbeMap.remove
  rcases hl : m.lookup key with ⟨_ | i, m₁⟩
  · refine ⟨nofun, fun h => absurd h.found ?_⟩
    rw [hl]
    nofun
  · rw [hl] at hs
    have hremovals : (m₁.vacate i).removals = m.removals + 1 := congrArg (· + 1) hs.removals_eq
    have hlive : (m₁.vacate i).live = m.live - 1 := congrArg (· - 1) hs.live_eq
    have hinitial : (m₁.vacate i).minCapacity = m.minCapacity := hs.minCapacity_eq
    have hfactor' : (m₁.vacate i).loadFactor = f := hs.loadFactor_eq.trans hfactor
    dsimp only
    rw [hremovals]
    split
    · rename_i hdue
      rw [Option.map_eq_none_iff, maintain_eq_none_iff, vacate_size, hs.slots_eq, hlive, hinitial,
        hfactor']
      exact ⟨fun h => ⟨by rw [hl]; rfl, hdue, h.1, h.2.1, h.2.2⟩,
        fun h => ⟨h.grown, h.sparse, h.places⟩⟩
    · rename_i hdue
      exact ⟨nofun, fun h => absurd h.due hdue⟩

/-- Only a removal whose maintenance overflows has no result. -/
theorem perform_eq_none_iff (hfactor : m.loadFactor = f) (op : Op κ ν) :
    m.perform op = none ↔ ∃ key, op = .remove key ∧ Overflows f m key := by
  cases op with
  | remove key =>
      rw [perform, Option.map_eq_none_iff, remove_eq_none_iff hfactor]
      simp
  | insert | get | require | modify | containsKey | clear => simp [perform]

/-- A removal that has a result returns the value of the key. -/
theorem remove_value {v : Option ν} (hremove : m.remove key = some (v, m')) :
    v = (m.get key).1 := by
  unfold ProbeMap.remove at hremove
  unfold ProbeMap.get
  rcases hl : m.lookup key with ⟨_ | i, m₁⟩ <;> rw [hl] at hremove
  · cases hremove
    rfl
  · dsimp only at hremove
    split at hremove
    · obtain ⟨m₂, -, heq⟩ := Option.map_eq_some_iff.mp hremove
      cases heq
      rfl
    · cases hremove
      rfl

/-- A table under a load factor of at least a thirty-second never asks for too many places: it is
at most as large as the largest slot count, and less than a tenth of it is live. -/
theorem Loaded.not_overflows (h : Loaded f m) (hfactor : f.denominator ≤ 32 * f.numerator)
    (key : κ) : ¬ Overflows f m key := by
  intro hover
  have hmax : maxPowerOfTwo = 2 ^ 62 := by decide
  have htenth : shrinkShare = (3602879701896397, 2 ^ 55) := by decide
  have hsparse := hover.sparse
  have hsize := h.size_le
  rw [hmax] at hsize
  rw [htenth] at hsparse
  have hlive : m.live - 1 < 2 ^ 7 * 3602879701896397 := by omega
  have hplaces : (2 ^ 64 - 2 ^ 10) * f.numerator ≤ (m.live - 1) * 32 * f.numerator := by
    rw [Nat.mul_assoc]
    exact hover.places.trans (Nat.mul_le_mul_left _ hfactor)
  have hwords := Nat.le_of_mul_le_mul_right hplaces f.numerator_pos
  omega

/-- Under such a load factor, every run goes through. -/
theorem Loaded.run_isSome (h : Loaded f m) (hfactor : f.denominator ≤ 32 * f.numerator)
    (ops : List (Op κ ν)) : (run? ProbeMap.perform m ops).isSome := by
  refine run?_isSome (fun t op (ht : Loaded f t) => ?_) h ops
  rcases hperform : t.perform op with _ | ⟨answer, next⟩
  · obtain ⟨key, -, hover⟩ := (perform_eq_none_iff ht.loadFactor op).mp hperform
    exact absurd hover (ht.not_overflows hfactor key)
  · exact ⟨answer, next, rfl, ht.perform hperform⟩

/-! ## Reachable tables -/

variable {o : ProbeOptions}

/-- Every operation on a reachable table returns, but for a removal whose maintenance overflows,
and a removal that returns gives the value of its key. Under a load factor of at least a
thirty-second, every run goes through. -/
theorem reachable_returns (hvalid : o.check = .ok f) (c : Comparer κ) :
    ∃ m : ProbeMap κ ν, withComparer o c = .ok m ∧
      (∀ ops answers final, run? perform m ops = some (answers, final) →
        (∀ op, final.perform op = none ↔ ∃ key, op = .remove key ∧ Overflows f final key) ∧
        ∀ key v m', final.remove key = some (v, m') → v = (final.get key).1) ∧
      (f.denominator ≤ 32 * f.numerator → ∀ ops, (run? perform m ops).isSome) := by
  obtain ⟨m, hm, -⟩ : ∃ m : ProbeMap κ ν, _ := withComparer_stands hvalid c
  obtain ⟨hstart, -⟩ := withComparer_loaded hvalid hm
  refine ⟨m, hm, fun ops answers final hrun => ⟨?_, fun key v m' => remove_value⟩, ?_⟩
  · exact perform_eq_none_iff (hstart.run hrun).loadFactor
  · exact hstart.run_isSome

/-- At three quarters, twenty keys come and go, with one maintenance among the removals. -/
theorem standard_removals_return : ProbeOptions.standard.check.isOk ∧
    ∃ m : ProbeMap UInt64 Nat, withComparer .standard .natural = .ok m ∧
      (run? perform m ((numbered 20).map (fun e => .insert e.1 e.2) ++
        (numbered 20).map fun e => .remove e.1)).isSome := by
  obtain ⟨f, hvalid, hhalf⟩ := exists_ok_of_any (x := ProbeOptions.standard.check)
    (p := fun f => f.denominator ≤ 32 * f.numerator) (by decide +kernel)
  obtain ⟨m, hm, -, hreturns⟩ : ∃ m : ProbeMap UInt64 Nat, _ := reachable_returns hvalid .natural
  exact ⟨by rw [hvalid]; rfl, m, hm, hreturns (of_decide_eq_true hhalf) _⟩

/-- Under a load factor of `1e-300`, the sixteenth of seventeen keys cannot be removed: the only
entry that would be left asks for more places than fit in a word. -/
theorem sixteenth_removal_overflows : tinyLoad.check.isOk ∧
    ∃ (m final : ProbeMap UInt64 Nat) (answers : List (Except TableError (Reply Nat))),
      withComparer tinyLoad .natural = .ok m ∧
      run? perform m ((numbered 17).map (fun e => .insert e.1 e.2) ++
        (numbered 15).map fun e => .remove e.1) = some (answers, final) ∧
      (final.get 15).1 = some 15 ∧ final.remove 15 = none := by
  have hlawful : (Comparer.natural : Comparer UInt64).Lawful := Comparer.natural_lawful
  obtain ⟨f, hvalid, htiny, m, full, _, hm, hinserts, hfull, hsize, hremovals, hfactor, hleast⟩ :=
    tinyLoad_run (n := 17) (by decide)
  -- fifteen removals leave two entries, and the next one is maintained
  obtain ⟨_, final, hremoves, hfinal, hsize', hcount, hfactor', hleast'⟩ :=
    Stands.run_removes (s := [(15, 15), (16, 16)]) hlawful (numbered 15) hfull
      (by rw [hremovals]; decide)
  have hvalue : EntryList.value? (Comparer.natural : Comparer UInt64) 15
      [(15, 15), (16, 16)] = some 15 := by decide +kernel
  obtain ⟨t, i, e, -, -, hl, -⟩ := hfinal.lookup_present hlawful hvalue
  have hone : final.live - 1 = 1 := by rw [hfinal.live_eq]; rfl
  refine ⟨by rw [hvalid]; rfl, m, final, _, hm, run?_append hinserts hremoves, ?_, ?_⟩
  · exact (get_stands hfinal hlawful 15).1.trans hvalue
  · refine (remove_eq_none_iff (hfactor'.trans hfactor) 15).mpr ?_
    refine ⟨by rw [hl]; rfl, by rw [hcount, hremovals]; decide, ?_, ?_, ?_⟩
    · rw [hleast', hleast, hsize', hsize]
      decide
    · rw [hone, hsize', hsize]
      decide
    · rw [hone]
      omega

end BoundedTables.ProbeMap
