import BoundedTables.Proofs.Sizing.LoadFactor
import Mathlib.Algebra.Order.Field.Power
import Mathlib.Data.Rat.Cast.Order
import Mathlib.Tactic.FieldSimp
import Mathlib.Tactic.Linarith
import Mathlib.Tactic.Ring

/-!
# Rounding quotients to 53 bits

`roundedRatio n d` is the quotient of two naturals rounded to a mantissa of 53 bits, as a rational.
The exponent of the last place is the one that leaves such a mantissa (`lastPlace_bounds`), so
rounding is monotone (`roundedRatio_mono`), commutes with doubling (`roundedRatio_double`), leaves
naturals of up to 53 bits alone (`roundedRatio_natCast`) and exceeds the quotient by at most half a
place (`roundedRatio_le`).
-/

namespace BoundedTables.Sizing

open Binary64

variable {n n' d d' k : Nat} {p q : Int}

/-! ## The nearest natural -/

/-- A larger quotient does not round to a smaller natural. -/
theorem nearestNat_mono (hd : 0 < d) (hd' : 0 < d') (h : n * d' ≤ n' * d) :
    nearestNat n d ≤ nearestNat n' d' := by
  by_contra hless
  obtain ⟨k, hk⟩ : ∃ k, nearestNat n' d' = k := ⟨_, rfl⟩
  have hpast : k < nearestNat n d := hk ▸ Nat.lt_of_not_le hless
  have hstays : ¬ k < nearestNat n' d' := hk ▸ Nat.lt_irrefl _
  rw [lt_nearestNat_iff hd] at hpast
  rw [lt_nearestNat_iff hd'] at hstays
  have hle : (2 * k + 1) * d ≤ 2 * n := by omega
  have hge : 2 * n' ≤ (2 * k + 1) * d' := by omega
  -- both quotients lie on the tie, which goes to the same side
  have hcross : 2 * n * d' ≤ 2 * n' * d := by
    rw [Nat.mul_assoc, Nat.mul_assoc]
    exact Nat.mul_le_mul_left 2 h
  have htie := Nat.mul_le_mul_right d' hle
  have htie' := Nat.mul_le_mul_right d hge
  rw [Nat.mul_right_comm (2 * k + 1) d' d] at htie'
  have hn : (2 * k + 1) * d = 2 * n := Nat.eq_of_mul_eq_mul_right hd' (by omega)
  have hn' : 2 * n' = (2 * k + 1) * d' := by
    refine Nat.eq_of_mul_eq_mul_right hd ?_
    rw [Nat.mul_right_comm (2 * k + 1) d' d]
    omega
  omega

/-- A multiple of the denominator is its own nearest natural number. -/
theorem nearestNat_mul_self (hd : 0 < d) (k : Nat) : nearestNat (k * d) d = k := by
  refine Nat.le_antisymm (nearestNat_le (Nat.le_refl _)) ?_
  have hfloor := div_le_nearestNat (k * d) d
  rwa [Nat.mul_div_cancel _ hd] at hfloor

/-- Rounding to the nearest natural adds one half at most. -/
theorem nearestNat_excess (n : Nat) (hd : 0 < d) : 2 * nearestNat n d * d ≤ 2 * n + d := by
  cases hk : nearestNat n d with
  | zero => omega
  | succ k =>
      have hpast := (lt_nearestNat_iff hd).mp (hk ▸ Nat.lt_succ_self k : k < nearestNat n d)
      have hexpand : 2 * (k + 1) * d = (2 * k + 1) * d + d := by
        rw [← Nat.succ_mul]
        rfl
      omega

/-! ## The last place -/

/-- Scaling shifts a quotient by a power of two. -/
theorem scale_ratio (hd : 0 < d) (shift : Int) : 0 < (scale n d shift).2 ∧
    ((scale n d shift).1 : ℚ) / (scale n d shift).2 = n / d * 2 ^ shift := by
  have hd' : (d : ℚ) ≠ 0 := by positivity
  obtain ⟨k, rfl | rfl⟩ := Int.eq_nat_or_neg shift
  · rw [scale_natCast]
    refine ⟨hd, ?_⟩
    push_cast
    rw [zpow_natCast]
    ring
  · rw [scale_neg_natCast]
    refine ⟨Nat.mul_pos hd (Nat.two_pow_pos k), ?_⟩
    push_cast
    rw [zpow_neg, zpow_natCast]
    field_simp

/-- The last place leaves a mantissa of 53 bits. -/
theorem lastPlace_bounds (hn : 0 < n) (hd : 0 < d) :
    (2 : ℚ) ^ (lastPlace n d + 52) ≤ n / d ∧ (n : ℚ) / d < 2 ^ (lastPlace n d + 53) := by
  have hd' : (0 : ℚ) < d := by exact_mod_cast hd
  have hlow : (2 : ℚ) ^ ((n.log2 : Int) - d.log2 - 1) ≤ n / d := by
    have hnlog : ((2 ^ n.log2 : Nat) : ℚ) ≤ n := by
      exact_mod_cast Nat.log2_self_le (Nat.ne_of_gt hn)
    have hdlog : (d : ℚ) ≤ (2 ^ (d.log2 + 1) : Nat) := by
      exact_mod_cast Nat.le_of_lt Nat.lt_log2_self
    rw [le_div_iff₀ hd']
    calc (2 : ℚ) ^ ((n.log2 : Int) - d.log2 - 1) * d
        ≤ 2 ^ ((n.log2 : Int) - d.log2 - 1) * (2 ^ (d.log2 + 1) : Nat) := by gcongr
      _ = (2 ^ n.log2 : Nat) := by
          push_cast
          rw [← zpow_natCast, ← zpow_natCast, ← zpow_add₀ (by norm_num)]
          congr 1
          push_cast
          ring
      _ ≤ n := hnlog
  have hhigh : (n : ℚ) / d < 2 ^ ((n.log2 : Int) - d.log2 + 1) := by
    have hnlog : (n : ℚ) < (2 ^ (n.log2 + 1) : Nat) := by exact_mod_cast Nat.lt_log2_self
    have hdlog : ((2 ^ d.log2 : Nat) : ℚ) ≤ d := by
      exact_mod_cast Nat.log2_self_le (Nat.ne_of_gt hd)
    rw [div_lt_iff₀ hd']
    calc (n : ℚ) < (2 ^ (n.log2 + 1) : Nat) := hnlog
      _ = 2 ^ ((n.log2 : Int) - d.log2 + 1) * (2 ^ d.log2 : Nat) := by
          push_cast
          rw [← zpow_natCast, ← zpow_natCast, ← zpow_add₀ (by norm_num)]
          congr 1
          push_cast
          ring
      _ ≤ 2 ^ ((n.log2 : Int) - d.log2 + 1) * d := by gcongr
  have hhidden : 2 * hiddenBit = 2 ^ 53 := by decide
  -- the guess is right unless the quotient reaches one more bit
  unfold lastPlace
  dsimp only
  rw [hhidden]
  generalize hguess : (n.log2 : Int) - d.log2 - 53 = guess
  obtain ⟨hpos, hratio⟩ := scale_ratio (n := n) hd (-guess)
  have hpos' : (0 : ℚ) < (scale n d (-guess)).2 := by exact_mod_cast hpos
  have hreach : (scale n d (-guess)).1 / (scale n d (-guess)).2 < 2 ^ 53 ↔
      (n : ℚ) / d < 2 ^ (guess + 53) := by
    calc (scale n d (-guess)).1 / (scale n d (-guess)).2 < 2 ^ 53
        ↔ (scale n d (-guess)).1 < 2 ^ 53 * (scale n d (-guess)).2 := Nat.div_lt_iff_lt_mul hpos
      _ ↔ ((scale n d (-guess)).1 : ℚ) < 2 ^ 53 * (scale n d (-guess)).2 := by
          exact_mod_cast Iff.rfl
      _ ↔ (n : ℚ) / d * 2 ^ (-guess) < 2 ^ 53 := by rw [← hratio, div_lt_iff₀ hpos']
      _ ↔ (n : ℚ) / d < 2 ^ (guess + 53) := by
          rw [zpow_neg, ← div_eq_mul_inv, div_lt_iff₀ (by positivity), add_comm guess,
            zpow_add₀ (by norm_num)]
          norm_cast
  split
  · rename_i hless
    refine ⟨?_, hreach.mp hless⟩
    rwa [← hguess, show (n.log2 : Int) - d.log2 - 53 + 52 = n.log2 - d.log2 - 1 by ring]
  · rename_i hmore
    rw [hreach, not_lt] at hmore
    refine ⟨?_, ?_⟩
    · rwa [show guess + 1 + 52 = guess + 53 by ring]
    · rwa [← hguess, show (n.log2 : Int) - d.log2 - 53 + 1 + 53 = n.log2 - d.log2 + 1 by ring]

/-- The bounds of a smaller quotient do not lie above those of a larger one. -/
theorem le_of_zpow_bounds {x y : ℚ} (hx : (2 : ℚ) ^ (p + 52) ≤ x) (hle : x ≤ y)
    (hy : y < 2 ^ (q + 53)) : p ≤ q := by
  have hexponent : p + 52 < q + 53 :=
    (zpow_lt_zpow_iff_right₀ (by norm_num : (1 : ℚ) < 2)).mp ((hx.trans hle).trans_lt hy)
  omega

/-! ## Rounded quotients -/

/-- A quotient of naturals rounded to 53 bits. -/
def roundedRatio (n d : Nat) : ℚ := ((rounded n d).1 : ℚ) / (rounded n d).2

/-- The mantissa of a quotient whose last place has a given exponent. -/
def mantissaAt (n d : Nat) (place : Int) : Nat :=
  nearestNat (scale n d (-place)).1 (scale n d (-place)).2

/-- A rounded quotient has a positive denominator. -/
theorem rounded_pos (n d : Nat) : 0 < (rounded n d).2 := by
  unfold rounded
  split
  · exact Nat.one_pos
  · exact (scale_ratio Nat.one_pos _).1

/-- Zero is rounded to zero. -/
theorem roundedRatio_zero (d : Nat) : roundedRatio 0 d = 0 := by
  rw [roundedRatio, rounded, if_pos rfl]
  norm_num

/-- A rounded quotient is a mantissa at its last place. -/
theorem roundedRatio_eq (hn : 0 < n) (d : Nat) :
    roundedRatio n d = mantissaAt n d (lastPlace n d) * 2 ^ lastPlace n d := by
  rw [roundedRatio, rounded, if_neg (Nat.ne_of_gt hn)]
  dsimp only
  rw [(scale_ratio Nat.one_pos _).2, mantissaAt]
  norm_num

/-- The mantissa grows with the scaled quotient. -/
theorem mantissaAt_mono (hd : 0 < d) (hd' : 0 < d')
    (h : (n : ℚ) / d * 2 ^ (-p) ≤ n' / d' * 2 ^ (-q)) : mantissaAt n d p ≤ mantissaAt n' d' q := by
  obtain ⟨hpos, hratio⟩ := scale_ratio (n := n) hd (-p)
  obtain ⟨hpos', hratio'⟩ := scale_ratio (n := n') hd' (-q)
  have hcross : ((scale n d (-p)).1 : ℚ) * (scale n' d' (-q)).2 ≤
      (scale n' d' (-q)).1 * (scale n d (-p)).2 := by
    rw [← hratio, ← hratio'] at h
    exact (div_le_div_iff₀ (by exact_mod_cast hpos) (by exact_mod_cast hpos')).mp h
  exact nearestNat_mono hpos hpos' (by exact_mod_cast hcross)

/-- A mantissa at the last place has 53 bits, or has just been carried past them. -/
theorem mantissaAt_bounds (hn : 0 < n) (hd : 0 < d) :
    2 ^ 52 ≤ mantissaAt n d (lastPlace n d) ∧ mantissaAt n d (lastPlace n d) ≤ 2 ^ 53 := by
  obtain ⟨hlow, hhigh⟩ := lastPlace_bounds hn hd
  generalize lastPlace n d = p at hlow hhigh
  have hunscale (k : Int) : (2 : ℚ) ^ (p + k) * 2 ^ (-p) = 2 ^ k := by
    rw [← zpow_add₀ (by norm_num)]
    congr 1
    ring
  have hpower (k : Nat) : mantissaAt (2 ^ k) 1 0 = 2 ^ k := by
    have hscale : scale (2 ^ k) 1 (-0) = (2 ^ k * 1, 1) := by rw [neg_zero]; rfl
    rw [mantissaAt, hscale]
    exact nearestNat_mul_self Nat.one_pos _
  rw [← hpower 52, ← hpower 53]
  refine ⟨mantissaAt_mono Nat.one_pos hd ?_, mantissaAt_mono hd Nat.one_pos ?_⟩
  · calc ((2 ^ 52 : Nat) : ℚ) / (1 : Nat) * 2 ^ (-0 : Int) = 2 ^ (p + 52) * 2 ^ (-p) := by
          rw [hunscale]
          norm_num
      _ ≤ n / d * 2 ^ (-p) := by gcongr
  · calc (n : ℚ) / d * 2 ^ (-p) ≤ 2 ^ (p + 53) * 2 ^ (-p) := by gcongr
      _ = ((2 ^ 53 : Nat) : ℚ) / (1 : Nat) * 2 ^ (-0 : Int) := by
          rw [hunscale]
          norm_num

/-- A rounded quotient is not negative. -/
theorem roundedRatio_nonneg (n d : Nat) : 0 ≤ roundedRatio n d :=
  div_nonneg (Nat.cast_nonneg _) (Nat.cast_nonneg _)

/-- A larger quotient is not rounded to a smaller one. -/
theorem roundedRatio_mono (hd : 0 < d) (h : n ≤ n') : roundedRatio n d ≤ roundedRatio n' d := by
  rcases Nat.eq_zero_or_pos n with rfl | hn
  · rw [roundedRatio_zero]
    exact roundedRatio_nonneg n' d
  · have hn' := hn.trans_le h
    have hle : (n : ℚ) / d ≤ n' / d := by gcongr
    rw [roundedRatio_eq hn, roundedRatio_eq hn']
    have hplace := le_of_zpow_bounds (lastPlace_bounds hn hd).1 hle (lastPlace_bounds hn' hd).2
    rcases hplace.eq_or_lt with heq | hlt
    · have hmantissa : mantissaAt n d (lastPlace n d) ≤ mantissaAt n' d (lastPlace n' d) := by
        rw [heq]
        exact mantissaAt_mono hd hd (by gcongr)
      rw [heq] at hmantissa ⊢
      gcongr
    · -- the mantissas lie on either side of a power of two
      calc (mantissaAt n d (lastPlace n d) : ℚ) * 2 ^ lastPlace n d
          ≤ (2 ^ 53 : Nat) * 2 ^ lastPlace n d := by
            have := (mantissaAt_bounds hn hd).2
            gcongr
        _ = (2 ^ 52 : Nat) * 2 ^ (lastPlace n d + 1) := by
            rw [zpow_add₀ (by norm_num)]
            push_cast
            ring
        _ ≤ mantissaAt n' d (lastPlace n' d) * 2 ^ lastPlace n' d := by
            have := (mantissaAt_bounds hn' hd).1
            gcongr
            · norm_num
            · exact hlt

/-- Doubling a quotient doubles what it is rounded to. -/
theorem roundedRatio_double (n : Nat) (hd : 0 < d) :
    roundedRatio (2 * n) d = 2 * roundedRatio n d := by
  rcases Nat.eq_zero_or_pos n with rfl | hn
  · rw [Nat.mul_zero, roundedRatio_zero, mul_zero]
  · have hn' : 0 < 2 * n := Nat.mul_pos Nat.two_pos hn
    have htwice : ((2 * n : Nat) : ℚ) / d = 2 * (n / d) := by
      push_cast
      ring
    have hplace : lastPlace (2 * n) d = lastPlace n d + 1 := by
      obtain ⟨hlow, hhigh⟩ := lastPlace_bounds hn hd
      obtain ⟨hlow', hhigh'⟩ := lastPlace_bounds hn' hd
      rw [htwice] at hlow' hhigh'
      refine le_antisymm (le_of_zpow_bounds hlow' (le_refl _) ?_)
        (le_of_zpow_bounds ?_ (le_refl _) hhigh')
      · rw [show lastPlace n d + 1 + 53 = 1 + (lastPlace n d + 53) by ring,
          zpow_add₀ (by norm_num), zpow_one]
        gcongr
      · rw [show lastPlace n d + 1 + 52 = 1 + (lastPlace n d + 52) by ring,
          zpow_add₀ (by norm_num), zpow_one]
        gcongr
    have hsame : ((2 * n : Nat) : ℚ) / d * 2 ^ (-(lastPlace n d + 1)) =
        n / d * 2 ^ (-lastPlace n d) := by
      rw [htwice, neg_add, zpow_add₀ (by norm_num), zpow_neg_one]
      ring
    have hmantissa : mantissaAt (2 * n) d (lastPlace n d + 1) = mantissaAt n d (lastPlace n d) :=
      Nat.le_antisymm (mantissaAt_mono hd hd hsame.le) (mantissaAt_mono hd hd hsame.ge)
    rw [roundedRatio_eq hn', roundedRatio_eq hn, hplace, hmantissa, zpow_add₀ (by norm_num),
      zpow_one]
    ring

/-- A natural of up to 53 bits is not rounded. -/
theorem roundedRatio_natCast (hd : 0 < d) (hk : k < 2 ^ 53) : roundedRatio (k * d) d = k := by
  rcases Nat.eq_zero_or_pos k with rfl | hpos
  · rw [Nat.zero_mul, roundedRatio_zero, Nat.cast_zero]
  · have hn : 0 < k * d := Nat.mul_pos hpos hd
    have hd' : (d : ℚ) ≠ 0 := by positivity
    have hquotient : ((k * d : Nat) : ℚ) / d = k := by
      push_cast
      field_simp
    have hplace : lastPlace (k * d) d ≤ 0 := by
      have hlow := (lastPlace_bounds hn hd).1
      rw [hquotient] at hlow
      refine le_of_zpow_bounds hlow (le_refl _) ?_
      exact_mod_cast hk
    obtain ⟨j, hj⟩ := Int.eq_ofNat_of_zero_le (neg_nonneg.mpr hplace)
    rw [roundedRatio_eq hn, mantissaAt, hj, scale_natCast, Nat.mul_right_comm,
      nearestNat_mul_self hd, ← neg_neg (lastPlace (k * d) d), hj]
    push_cast
    rw [mul_assoc, ← zpow_natCast, ← zpow_add₀ (by norm_num), add_neg_cancel, zpow_zero, mul_one]

/-- A rounded quotient is at most half a place above the quotient. -/
theorem roundedRatio_le (n : Nat) (hd : 0 < d) :
    roundedRatio n d * 2 ^ 53 ≤ n / d * (2 ^ 53 + 1) := by
  rcases Nat.eq_zero_or_pos n with rfl | hn
  · rw [roundedRatio_zero]
    norm_num
  · obtain ⟨hlow, -⟩ := lastPlace_bounds hn hd
    rw [roundedRatio_eq hn, mantissaAt]
    generalize lastPlace n d = p at hlow ⊢
    obtain ⟨hpos, hratio⟩ := scale_ratio (n := n) hd (-p)
    have hpos' : (0 : ℚ) < (scale n d (-p)).2 := by exact_mod_cast hpos
    have hexcess : (2 : ℚ) * nearestNat (scale n d (-p)).1 (scale n d (-p)).2 ≤
        2 * (n / d * 2 ^ (-p)) + 1 := by
      have hcross := nearestNat_excess (scale n d (-p)).1 hpos
      rw [← hratio, ← mul_div_assoc, div_add_one (ne_of_gt hpos'), le_div_iff₀ hpos']
      exact_mod_cast hcross
    have hplace : (2 : ℚ) ^ p * 2 ^ (-p) = 1 := by
      rw [← zpow_add₀ (by norm_num), add_neg_cancel, zpow_zero]
    have hhalf : (2 : ℚ) ^ p * 2 ^ 52 ≤ n / d := by
      rw [zpow_add₀ (by norm_num)] at hlow
      exact_mod_cast hlow
    generalize nearestNat (scale n d (-p)).1 (scale n d (-p)).2 = m at hexcess ⊢
    have hscaled : (2 * (m : ℚ)) * 2 ^ p ≤ 2 * (n / d) + 2 ^ p := by
      calc (2 * (m : ℚ)) * 2 ^ p ≤ (2 * (n / d * 2 ^ (-p)) + 1) * 2 ^ p := by gcongr
        _ = 2 * (n / d) * (2 ^ p * 2 ^ (-p)) + 2 ^ p := by ring
        _ = 2 * (n / d) + 2 ^ p := by rw [hplace, mul_one]
    linarith

end BoundedTables.Sizing
