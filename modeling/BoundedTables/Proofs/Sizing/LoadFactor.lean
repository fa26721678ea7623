import BoundedTables.Sizing.LoadFactor
import Mathlib.Tactic.NormNum

/-!
# Rounding and powers of two

A quotient at or above a power of two does not round below it, and one at or below it does not
round above it, since every power of two has an exact mantissa. So the places for a number of
entries reach every power of two that is too few for them, and stay within every one that is
enough, however coarse the rounding is.
-/

namespace BoundedTables.Sizing

open Binary64

variable {n d k : Nat}

/-- Scaling by a power of two multiplies the numerator. -/
theorem scale_natCast (n d p : Nat) : scale n d (p : Int) = (n * 2 ^ p, d) := by
  unfold scale
  rw [if_neg (by omega), Int.natAbs_natCast]
  rfl

/-- Scaling by a power of one half multiplies the denominator. -/
theorem scale_neg_natCast (n d p : Nat) : scale n d (-(p : Int)) = (n, d * 2 ^ p) := by
  cases p with
  | zero => simp [scale]
  | succ p =>
      unfold scale
      rw [if_pos (by omega), Int.natAbs_neg, Int.natAbs_natCast]
      rfl

/-- Rounding to the nearest natural number never goes below the quotient rounded down. -/
theorem div_le_nearestNat (n d : Nat) : n / d ≤ nearestNat n d := by
  unfold nearestNat
  dsimp only
  split
  · exact Nat.le_refl _
  · split <;> omega

/-- A quotient at or below a natural does not round above it. -/
theorem nearestNat_le (h : n ≤ k * d) : nearestNat n d ≤ k := by
  have hquotient : n / d ≤ k := Nat.div_le_of_le_mul (by rwa [Nat.mul_comm])
  have hdivide : d * (n / d) + n % d = n := Nat.div_add_mod n d
  unfold nearestNat
  dsimp only
  rcases Nat.lt_or_eq_of_le hquotient with hlt | heq
  · split
    · exact hquotient
    · split <;> omega
  · -- nothing is left over from `k` times the denominator
    rw [heq, Nat.mul_comm] at hdivide
    rw [heq]
    split
    · exact Nat.le_refl k
    · rw [if_pos (by omega)]
      have hd : d = 0 := by omega
      rw [hd, Nat.div_zero] at heq
      rw [← heq]

/-- A quotient rounds past a natural from the tie above it on, which goes to the even one. -/
theorem lt_nearestNat_iff (hd : 0 < d) : k < nearestNat n d ↔
    (2 * k + 1) * d < 2 * n ∨ (2 * k + 1) * d = 2 * n ∧ k % 2 = 1 := by
  have hdivide : d * (n / d) + n % d = n := Nat.div_add_mod n d
  have hrest : n % d < d := Nat.mod_lt n hd
  have hexpand : (2 * k + 1) * d = 2 * (k * d) + d := by
    rw [Nat.add_mul, Nat.mul_assoc, Nat.one_mul]
  rcases Nat.lt_trichotomy (n / d) k with hlt | heq | hgt
  · -- the quotient is below `k`, and rounds to `k` at most
    have hbelow : n ≤ k * d := Nat.le_of_lt ((Nat.div_lt_iff_lt_mul hd).mp hlt)
    have hnearest := nearestNat_le hbelow
    omega
  · rw [heq, Nat.mul_comm] at hdivide
    unfold nearestNat
    dsimp only
    rw [heq]
    split
    · omega
    · split <;> omega
  · have habove : (k + 1) * d ≤ n := (Nat.le_div_iff_mul_le hd).mp hgt
    rw [Nat.succ_mul] at habove
    have hnearest := div_le_nearestNat n d
    omega

/-- The last place of a quotient lies 52 places or more below the difference of the logarithms. -/
theorem lastPlace_le (n d : Nat) : lastPlace n d ≤ (n.log2 : Int) - d.log2 - 52 := by
  unfold lastPlace
  dsimp only
  split <;> omega

/-- A mantissa that loses places to the right of the point does not vanish. -/
theorem mul_two_pow_le_of_lastPlace (hn : n ≠ 0) {p : Nat} (hp : lastPlace n d = p) :
    d * 2 ^ p ≤ n := by
  have hplace := lastPlace_le n d
  have hd : d ≤ 2 ^ (d.log2 + 1) := Nat.le_of_lt Nat.lt_log2_self
  calc d * 2 ^ p ≤ 2 ^ (d.log2 + 1) * 2 ^ p := Nat.mul_le_mul_right _ hd
    _ = 2 ^ (d.log2 + 1 + p) := (Nat.pow_add ..).symm
    _ ≤ 2 ^ n.log2 := Nat.pow_le_pow_right (by norm_num) (by omega)
    _ ≤ n := Nat.log2_self_le hn

/-- A quotient at or above a power of two does not round below it. -/
theorem pow_le_rounded (hd : 0 < d) (h : 2 ^ k * d ≤ n) :
    0 < (rounded n d).2 ∧ 2 ^ k * (rounded n d).2 ≤ (rounded n d).1 := by
  have hn : n ≠ 0 := by
    have := Nat.mul_pos (Nat.two_pow_pos k) hd
    omega
  unfold rounded
  rw [if_neg hn]
  dsimp only
  obtain ⟨p, hp | hp⟩ := Int.eq_nat_or_neg (lastPlace n d)
  · have hq := div_le_nearestNat n (d * 2 ^ p)
    rw [hp, scale_neg_natCast, scale_natCast]
    refine ⟨Nat.zero_lt_one, ?_⟩
    rw [Nat.mul_one]
    -- below the last place the mantissa need not reach `2 ^ k`, but it is not zero
    rcases Nat.lt_or_ge k p with hkp | hpk
    · have hdiv : 1 ≤ n / (d * 2 ^ p) := by
        rw [Nat.le_div_iff_mul_le (Nat.mul_pos hd (Nat.two_pow_pos p)), Nat.one_mul]
        exact mul_two_pow_le_of_lastPlace hn hp
      calc 2 ^ k ≤ 1 * 2 ^ p := by
            rw [Nat.one_mul]
            exact Nat.pow_le_pow_right (by norm_num) (Nat.le_of_lt hkp)
        _ ≤ nearestNat n (d * 2 ^ p) * 2 ^ p := Nat.mul_le_mul_right _ (hdiv.trans hq)
    · have hdiv : 2 ^ (k - p) ≤ n / (d * 2 ^ p) := by
        rw [Nat.le_div_iff_mul_le (Nat.mul_pos hd (Nat.two_pow_pos p)), Nat.mul_comm d,
          ← Nat.mul_assoc, ← Nat.pow_add, Nat.sub_add_cancel hpk]
        exact h
      calc 2 ^ k = 2 ^ (k - p) * 2 ^ p := by rw [← Nat.pow_add, Nat.sub_add_cancel hpk]
        _ ≤ nearestNat n (d * 2 ^ p) * 2 ^ p := Nat.mul_le_mul_right _ (hdiv.trans hq)
  · have hq := div_le_nearestNat (n * 2 ^ p) d
    rw [hp, Int.neg_neg, scale_natCast, scale_neg_natCast, Nat.one_mul]
    refine ⟨Nat.two_pow_pos p, Nat.le_trans ?_ hq⟩
    rw [Nat.le_div_iff_mul_le hd, Nat.mul_right_comm]
    exact Nat.mul_le_mul_right _ h

/-- A quotient at or below a power of two does not round above it. -/
theorem rounded_le_pow (hd : 0 < d) (h : n ≤ 2 ^ k * d) :
    (rounded n d).1 ≤ 2 ^ k * (rounded n d).2 := by
  unfold rounded
  split
  · exact Nat.zero_le _
  · rename_i hn
    dsimp only
    obtain ⟨p, hp | hp⟩ := Int.eq_nat_or_neg (lastPlace n d)
    · rw [hp, scale_neg_natCast, scale_natCast]
      -- the last place is not above `2 ^ k`, where no mantissa would be left
      have hpk : p ≤ k := by
        have hle : d * 2 ^ p ≤ d * 2 ^ k := by
          rw [Nat.mul_comm d (2 ^ k)]
          exact (mul_two_pow_le_of_lastPlace hn hp).trans h
        exact (Nat.pow_le_pow_iff_right (by norm_num)).mp (Nat.le_of_mul_le_mul_left hle hd)
      have hnearest : nearestNat n (d * 2 ^ p) ≤ 2 ^ (k - p) := by
        refine nearestNat_le (h.trans (Nat.le_of_eq ?_))
        rw [Nat.mul_comm d, ← Nat.mul_assoc, ← Nat.pow_add, Nat.sub_add_cancel hpk]
      calc nearestNat n (d * 2 ^ p) * 2 ^ p ≤ 2 ^ (k - p) * 2 ^ p := Nat.mul_le_mul_right _ hnearest
        _ = 2 ^ k * 1 := by rw [← Nat.pow_add, Nat.sub_add_cancel hpk, Nat.mul_one]
    · rw [hp, Int.neg_neg, scale_natCast, scale_neg_natCast, Nat.one_mul]
      refine nearestNat_le ?_
      rw [Nat.mul_right_comm]
      exact Nat.mul_le_mul_right _ h

/-- The places for a number of entries reach every power of two that is not enough for them at
the load factor. -/
theorem LoadFactor.pow_le_placesFor (f : LoadFactor) {entries : Nat}
    (h : 2 ^ k * f.numerator ≤ entries * f.denominator) : 2 ^ k ≤ f.placesFor entries := by
  obtain ⟨hpos, hle⟩ := pow_le_rounded f.numerator_pos h
  unfold LoadFactor.placesFor
  dsimp only
  rw [Nat.le_div_iff_mul_le hpos]
  omega

/-- The places for a number of entries stay within every power of two that is enough for them at
the load factor. -/
theorem LoadFactor.placesFor_le_pow (f : LoadFactor) {entries : Nat}
    (h : entries * f.denominator ≤ 2 ^ k * f.numerator) : f.placesFor entries ≤ 2 ^ k := by
  have hle := rounded_le_pow f.numerator_pos h
  unfold LoadFactor.placesFor
  dsimp only
  rcases Nat.eq_zero_or_pos (rounded (entries * f.denominator) f.numerator).2 with hzero | hpos
  · rw [hzero, Nat.div_zero]
    exact Nat.zero_le _
  · rw [← Nat.lt_succ_iff, Nat.div_lt_iff_lt_mul hpos, Nat.succ_mul]
    omega

end BoundedTables.Sizing
