import BoundedTables.ProbeMap
import BoundedTables.Proofs.Sizing.PowerOfTwo
import BoundedTables.Proofs.Table.Options

/-!
# Checked options of a probe map construct

Building a probe map goes on after its options were checked: the capacity is rounded up to a power
of two, and the companion filter checks options of its own. Neither refuses what comes out of
checked options (`ProbeOptions.construction_ok`).
-/

namespace BoundedTables

open Sizing

variable {o : ProbeOptions} {f : LoadFactor} {capacity : Nat} {rate : Float}

/-- Options are accepted when each of them is. -/
theorem ProbeOptions.check_isOk_iff : o.check.isOk ↔
    (checkCapacity "initial_capacity" o.initialCapacity).isOk ∧
      (checkLoadFactor o.loadFactor).isOk ∧ (checkRate o.falsePositiveRate).isOk ∧
      o.maxProbeDistance ≠ 0 ∧ o.hashing.validate.isOk := by
  unfold check
  rw [isOk_then_iff]
  cases checkLoadFactor o.loadFactor with
  | error e => simp [bind, Except.bind, Except.isOk, Except.toBool]
  | ok f =>
      rw [bind_ok, isOk_then_iff]
      by_cases hdistance : o.maxProbeDistance = 0
      · simp [hdistance, bind, Except.bind, throw, throwThe, MonadExceptOf.throw, Except.isOk,
          Except.toBool]
      · rw [if_neg hdistance, isOk_then_iff]
        simp [hdistance, pure, Except.pure, Except.isOk, Except.toBool]

/-- Checked options have a positive capacity within bounds, and a valid rate. -/
theorem ProbeOptions.check_ok (h : o.check = .ok f) :
    (0 < o.initialCapacity ∧ o.initialCapacity ≤ maxCapacity) ∧
      checkRate o.falsePositiveRate = .ok () := by
  have hok : o.check.isOk := by
    rw [h]
    rfl
  obtain ⟨hcapacity, -, hrate, -⟩ := check_isOk_iff.mp hok
  obtain ⟨⟨⟩, hcapacity⟩ := exists_ok hcapacity
  obtain ⟨⟨⟩, hrate⟩ := exists_ok hrate
  exact ⟨checkCapacity_ok hcapacity, hrate⟩

/-- The filter takes any capacity but zero, and any rate that a map takes. -/
theorem ProbeMap.filterOptions_check (hcapacity : 0 < capacity) (hrate : checkRate rate = .ok ()) :
    (filterOptions capacity rate).check = .ok () := by
  have hitems : min (2 * capacity) BloomOptions.maxExpectedItems ≠ 0 := by
    have : 0 < BloomOptions.maxExpectedItems := by decide
    omega
  simp only [BloomOptions.check, filterOptions, BloomOptions.capped, hitems, ↓reduceIte, hrate]
  rfl

/-- No step of a construction refuses checked options. -/
theorem ProbeOptions.construction_ok (h : o.check = .ok f) :
    nextPowerOfTwo o.initialCapacity = .ok (ceilPowerOfTwo o.initialCapacity) ∧
      BloomFilter.new (ProbeMap.filterOptions (ceilPowerOfTwo o.initialCapacity)
        o.falsePositiveRate) = .ok (ProbeMap.filterFor (ceilPowerOfTwo o.initialCapacity)
        o.falsePositiveRate) := by
  obtain ⟨⟨hpos, hle⟩, hrate⟩ := check_ok h
  refine ⟨nextPowerOfTwo_isOk (Nat.le_trans hle (by decide)), ?_⟩
  have hceil : 0 < ceilPowerOfTwo o.initialCapacity :=
    Nat.lt_of_lt_of_le hpos (le_ceilPowerOfTwo _)
  rw [BloomFilter.new, ProbeMap.filterOptions_check hceil hrate]
  rfl

end BoundedTables
