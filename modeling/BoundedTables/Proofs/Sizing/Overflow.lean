import BoundedTables.Proofs.Sizing.LoadFactor
import Mathlib.Tactic.Ring

/-!
# Places that do not fit in a word

The places for a number of entries are clamped to a word, and a clamped count cannot be
incremented. A quotient of at least `2 ^ 64 - 2 ^ 10` is what reaches the clamp: between `2 ^ 63`
and `2 ^ 64` the doubles are `2 ^ 11` apart, and the tie below `2 ^ 64` goes up to it
(`maxWord_le_placesFor_iff`).
-/

namespace BoundedTables.Sizing

open Binary64

variable {n d k : Nat}

/-- The last place of a quotient of at least `2 ^ 53`. -/
theorem lastPlace_eq (hd : 0 < d) (hlow : 2 ^ (53 + k) * d ≤ n) (hhigh : n < 2 ^ (54 + k) * d) :
    lastPlace n d = (k + 1 : Nat) := by
  have hn : n ≠ 0 := by
    have : 0 < 2 ^ (53 + k) * d := Nat.mul_pos (Nat.two_pow_pos _) hd
    omega
  have hlog : 53 + k + d.log2 ≤ n.log2 := by
    rw [Nat.le_log2 hn, Nat.pow_add]
    exact (Nat.mul_le_mul_left _ (Nat.log2_self_le (Nat.ne_of_gt hd))).trans hlow
  have hlog' : n.log2 < 54 + k + (d.log2 + 1) := by
    rw [Nat.log2_lt hn, Nat.pow_add]
    exact hhigh.trans_le (Nat.mul_le_mul_left _ (Nat.le_of_lt Nat.lt_log2_self))
  have hhidden : 2 * hiddenBit = 2 ^ 53 := by decide
  unfold lastPlace
  dsimp only
  rw [hhidden]
  -- the first guess has one place too many, or is right
  obtain hguess | hguess : (n.log2 : Int) - d.log2 - 53 = (k : Int) ∨
      (n.log2 : Int) - d.log2 - 53 = ((k + 1 : Nat) : Int) := by omega
  · rw [hguess, scale_neg_natCast, if_neg]
    · rfl
    · rw [Nat.not_lt, Nat.le_div_iff_mul_le (Nat.mul_pos hd (Nat.two_pow_pos k))]
      refine (Nat.le_of_eq ?_).trans hlow
      ring
  · rw [hguess, scale_neg_natCast, if_pos]
    rw [Nat.div_lt_iff_lt_mul (Nat.mul_pos hd (Nat.two_pow_pos (k + 1)))]
    refine hhigh.trans_le (Nat.le_of_eq ?_)
    ring

/-- Below `2 ^ 64`, places past `2 ^ 63` are a multiple of `2 ^ 11`. -/
theorem LoadFactor.placesFor_eq (f : LoadFactor) {entries : Nat}
    (hlow : 2 ^ 63 * f.numerator ≤ entries * f.denominator)
    (hhigh : entries * f.denominator < 2 ^ 64 * f.numerator) :
    f.placesFor entries =
      nearestNat (entries * f.denominator) (f.numerator * 2 ^ 11) * 2 ^ 11 := by
  have hn : entries * f.denominator ≠ 0 := by
    have := f.numerator_pos
    omega
  have hplace : lastPlace (entries * f.denominator) f.numerator = ((10 + 1 : Nat) : Int) :=
    lastPlace_eq f.numerator_pos hlow hhigh
  unfold LoadFactor.placesFor rounded
  rw [if_neg hn]
  dsimp only
  rw [hplace, scale_neg_natCast, scale_natCast]
  simp only [Nat.add_sub_cancel, Nat.div_one]

/-- When the places for a number of entries are clamped to a word. -/
theorem LoadFactor.maxWord_le_placesFor_iff (f : LoadFactor) (entries : Nat) :
    maxWord ≤ f.placesFor entries ↔
      (2 ^ 64 - 2 ^ 10) * f.numerator ≤ entries * f.denominator := by
  have hpos := f.numerator_pos
  have hword : maxWord = 2 ^ 64 - 1 := by decide
  rcases Nat.lt_or_ge (entries * f.denominator) (2 ^ 63 * f.numerator) with hsmall | hlow
  · have hplaces := f.placesFor_le_pow (Nat.le_of_lt hsmall)
    omega
  · rcases Nat.lt_or_ge (entries * f.denominator) (2 ^ 64 * f.numerator) with hhigh | hlarge
    · rw [f.placesFor_eq hlow hhigh]
      -- the multiple is clamped exactly when its mantissa is past the largest odd one
      have hmantissa := lt_nearestNat_iff (n := entries * f.denominator) (k := 2 ^ 53 - 1)
        (Nat.mul_pos hpos (Nat.two_pow_pos 11))
      omega
    · have hplaces := f.pow_le_placesFor hlarge
      omega

end BoundedTables.Sizing
