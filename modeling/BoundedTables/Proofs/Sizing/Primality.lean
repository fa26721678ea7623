import BoundedTables.Sizing.Prime
import Mathlib.Data.Nat.Prime.Basic

/-!
# Trial division decides primality

The odd divisors that trial division tries are those up to the square root, and a number that is
neither prime nor even has one among them. Within words the square of a divisor may not fit; it then
stands at the largest word, which is past every other candidate and is not prime itself. So every
word is answered rightly (`isPrime_iff`).
-/

namespace BoundedTables.Sizing

open Binary64

variable {n d : Nat}

/-- What the search for a divisor finds: whether there is an odd one, from the given one on, whose
square is no larger than the candidate. A square that does not fit is past the candidate. -/
theorem noOddDivisorFrom_iff (hfits : n < maxWord) (hd : d % 2 = 1) :
    noOddDivisorFrom n d = true ↔ ∀ e, d ≤ e → e % 2 = 1 → e * e ≤ n → ¬e ∣ n := by
  fun_induction noOddDivisorFrom n d with
  | case1 d hbound hdivides =>
      have hsquare : d * d ≤ n := by omega
      refine iff_of_false Bool.false_ne_true ?_
      intro hnone
      exact hnone d (Nat.le_refl d) hd hsquare (Nat.dvd_of_mod_eq_zero hdivides)
  | case2 d hbound hdivides ih =>
      rw [ih (by omega)]
      constructor
      · intro hnone e hde hodd hsquare
        by_cases heq : e = d
        · subst heq
          exact fun hdvd => hdivides (Nat.mod_eq_zero_of_dvd hdvd)
        · exact hnone e (by omega) hodd hsquare
      · intro hnone e hde
        exact hnone e (by omega)
  | case3 d hbound =>
      refine iff_of_true rfl ?_
      intro e hde hodd hsquare
      -- the square of the first divisor would be no larger than that of this one
      have hsquares : d * d ≤ e * e := Nat.mul_le_mul hde hde
      have hself : d ≤ d * d := Nat.le_mul_self d
      omega

/-- An odd number without a small odd divisor is prime, and no other is. -/
theorem prime_iff_of_odd (hn : 2 ≤ n) (hodd : n % 2 = 1) :
    n.Prime ↔ ∀ e, 3 ≤ e → e % 2 = 1 → e * e ≤ n → ¬e ∣ n := by
  constructor
  · intro hprime e he _ hsquare hdvd
    obtain rfl : e = n := (hprime.eq_one_or_self_of_dvd e hdvd).resolve_left (by omega)
    have hself : e < e * e := Nat.lt_mul_self_iff.mpr (by omega)
    omega
  · intro hnone
    by_contra hcomposite
    have hfactor : n.minFac.Prime := Nat.minFac_prime (by omega)
    have hdvd : n.minFac ∣ n := Nat.minFac_dvd n
    have hsquare : n.minFac * n.minFac ≤ n := by
      rw [← pow_two]
      exact Nat.minFac_sq_le_self (by omega) hcomposite
    -- a divisor of an odd number is odd
    have hfactor_odd : n.minFac % 2 = 1 := by
      rcases hfactor.eq_two_or_odd with htwo | hodd'
      · rw [htwo] at hdvd
        omega
      · exact hodd'
    have hthree : 3 ≤ n.minFac := by
      have := hfactor.two_le
      omega
    exact hnone n.minFac hthree hfactor_odd hsquare hdvd

/-- The largest word is divisible by three, which is tried first. -/
theorem isPrime_maxWord : isPrime maxWord = false := by
  have hthree : noOddDivisorFrom maxWord 3 = false := by
    unfold noOddDivisorFrom
    rw [dif_pos (by decide +kernel), if_pos (by decide +kernel)]
  rw [isPrime, if_neg (by decide), if_neg (by decide), hthree]

/-- Trial division decides primality of every word. -/
theorem isPrime_iff (hfits : n ≤ maxWord) : isPrime n = true ↔ n.Prime := by
  by_cases hlargest : n = maxWord
  · subst hlargest
    rw [isPrime_maxWord]
    refine iff_of_false Bool.false_ne_true ?_
    intro hprime
    have hdvd : 3 ∣ maxWord := by decide +kernel
    have hthree := hprime.eq_one_or_self_of_dvd 3 hdvd
    revert hthree
    decide
  · have hbelow : n < maxWord := by omega
    unfold isPrime
    split
    · rename_i hsmall
      exact iff_of_false Bool.false_ne_true fun hprime => by
        have := hprime.two_le
        omega
    · split
      · rename_i hlarge heven
        rw [beq_iff_eq]
        constructor
        · rintro rfl
          exact Nat.prime_two
        · intro hprime
          rcases hprime.eq_two_or_odd with htwo | hodd
          · exact htwo
          · omega
      · rename_i hlarge hodd
        rw [noOddDivisorFrom_iff hbelow (by decide)]
        exact (prime_iff_of_odd (by omega) (by omega)).symm

end BoundedTables.Sizing
