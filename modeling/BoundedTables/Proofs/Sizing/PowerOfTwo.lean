import BoundedTables.Sizing.PowerOfTwo
import Mathlib.Tactic.NormNum

/-!
# Slot counts are powers of two

The slot count for a number is a power of two that is not below it.
-/

namespace BoundedTables.Sizing

variable {n size : Nat}

/-- Rounding up ends at a power of two. -/
theorem ceilPowerOfTwo_eq_pow (n : Nat) : ∃ k, ceilPowerOfTwo n = 2 ^ k := by
  unfold ceilPowerOfTwo
  split
  · exact ⟨0, rfl⟩
  · exact ⟨_, rfl⟩

/-- Rounding up to a power of two does not go below the number. -/
theorem le_ceilPowerOfTwo (n : Nat) : n ≤ ceilPowerOfTwo n := by
  unfold ceilPowerOfTwo
  split
  · assumption
  · have hlog : n - 1 < 2 ^ ((n - 1).log2 + 1) := Nat.lt_log2_self
    rw [Nat.pow_eq]
    omega

/-- A power of two that is granted is the number rounded up, and no larger than the largest one. -/
theorem nextPowerOfTwo_ok (h : nextPowerOfTwo n = .ok size) :
    size = ceilPowerOfTwo n ∧ size ≤ maxPowerOfTwo := by
  unfold nextPowerOfTwo at h
  dsimp only at h
  split at h
  · cases h
    exact ⟨rfl, ‹_›⟩
  · cases h

/-- A slot count is the least power of two that is large enough. -/
theorem ceilPowerOfTwo_le {k : Nat} (h : n ≤ 2 ^ k) : ceilPowerOfTwo n ≤ 2 ^ k := by
  unfold ceilPowerOfTwo
  split
  · exact Nat.one_le_two_pow
  · have hlog : (n - 1).log2 < k := (Nat.log2_lt (by omega)).mpr (by omega)
    exact Nat.pow_le_pow_right (by norm_num) hlog

/-- Up to the largest power of two, the next one is granted. -/
theorem nextPowerOfTwo_isOk (h : n ≤ maxPowerOfTwo) :
    nextPowerOfTwo n = .ok (ceilPowerOfTwo n) :=
  if_pos (ceilPowerOfTwo_le h)

end BoundedTables.Sizing
