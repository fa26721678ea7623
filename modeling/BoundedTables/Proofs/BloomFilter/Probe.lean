import BoundedTables.BloomFilter.Probe
import Mathlib.Data.List.Range

/-!
# Probes do not stall

Successive points of a probe sequence lie an odd step apart. They wrap around at `2 ^ 64`, which is
even, so that wrapping never touches their parity (`toNat_add_mod_two`), and neither does the
reduction to an even number of bits. So on a filter with an even number of bits the positions
alternate between even and odd ones, and no probe lands where the one before it did
(`positions_alternate`).
-/

namespace BoundedTables.Probe

variable {bitCount : Nat}

/-- A sum of words has the parity of the exact sum, wrapped or not. -/
theorem toNat_add_mod_two (a b : UInt64) : (a + b).toNat % 2 = (a.toNat + b.toNat) % 2 := by
  rw [UInt64.toNat_add]
  exact Nat.mod_mod_of_dvd _ (Nat.dvd_of_mod_eq_zero (by decide))

/-- The step between probe positions is odd. -/
theorem step_odd (hash : UInt64) : (step hash).toNat % 2 = 1 := by
  rw [step, UInt64.toNat_or]
  exact Nat.or_mod_two_eq_one.mpr (.inr rfl)

/-- The next point of a sequence lies one step on, in wrapping arithmetic. -/
theorem point_succ (hash : UInt64) (i : Nat) :
    start hash + UInt64.ofNat (i + 1) * step hash =
      start hash + UInt64.ofNat i * step hash + step hash := by
  rw [UInt64.ofNat_add, UInt64.add_mul, UInt64.add_assoc]
  congr 2
  exact UInt64.one_mul _

/-- Every probe position is the place of a bit. -/
theorem position_lt (hash : UInt64) (hpos : 0 < bitCount) (i : Nat) :
    position hash bitCount i < bitCount :=
  Nat.mod_lt _ hpos

/-- A position among an even number of bits has the parity of the point it comes from. -/
theorem position_mod_two (hash : UInt64) (heven : bitCount % 2 = 0) (i : Nat) :
    position hash bitCount i % 2 = (start hash + UInt64.ofNat i * step hash).toNat % 2 :=
  Nat.mod_mod_of_dvd _ (Nat.dvd_of_mod_eq_zero heven)

/-- Among an even number of bits, the next position is of the other parity. -/
theorem position_succ_mod_two (hash : UInt64) (heven : bitCount % 2 = 0) (i : Nat) :
    position hash bitCount i % 2 ≠ position hash bitCount (i + 1) % 2 := by
  have hodd := step_odd hash
  have hsum := toNat_add_mod_two (start hash + UInt64.ofNat i * step hash) (step hash)
  rw [position_mod_two hash heven, position_mod_two hash heven, point_succ]
  omega

/-- Of every hash, a filter with an even number of bits has as many positions as it has probes, all
of them places of bits. Each differs from the one before it, as one is even and the other odd. -/
theorem positions_alternate (hash : UInt64) (hpos : 0 < bitCount) (heven : bitCount % 2 = 0)
    (hashCount : Nat) :
    (positions hash hashCount bitCount).length = hashCount ∧
      (∀ p ∈ positions hash hashCount bitCount, p < bitCount) ∧
      (positions hash hashCount bitCount).IsChain fun p q => p ≠ q ∧ p % 2 ≠ q % 2 := by
  refine ⟨by simp [positions], ?_, ?_⟩
  · intro p hp
    obtain ⟨i, -, rfl⟩ := List.mem_map.mp hp
    exact position_lt hash hpos i
  · rw [positions, List.isChain_map, List.isChain_range]
    intro i _
    have hparity := position_succ_mod_two hash heven i
    exact ⟨fun hsame => hparity (congrArg (· % 2) hsame), hparity⟩

/-- The fourth point of this hash has wrapped around, and its positions alternate all the same. -/
theorem positions_alternate_past_wrap :
    (0 < 6 ∧ 6 % 2 = 0) ∧ start 1 + 3 * step 1 < start 1 + 2 * step 1 ∧
      positions 1 7 6 = [2, 5, 2, 1, 4, 1, 4] ∧
      (positions 1 7 6).IsChain fun p q => p ≠ q ∧ p % 2 ≠ q % 2 := by
  have hpos : 0 < 6 := by decide
  have heven : 6 % 2 = 0 := by decide
  obtain ⟨-, -, hchain⟩ := positions_alternate 1 hpos heven 7
  exact ⟨⟨hpos, heven⟩, by decide, by decide, hchain⟩

end BoundedTables.Probe
