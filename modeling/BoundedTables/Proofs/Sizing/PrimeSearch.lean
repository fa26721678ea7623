import BoundedTables.Proofs.Sizing.Primality
import BoundedTables.Proofs.Sizing.Prime
import BoundedTables.Sizing.LoadFactor
import Mathlib.NumberTheory.Bertrand

/-!
# The search for a bucket count ends

Past the end of the table of primes, a bucket count is searched for among the odd numbers. As trial
division decides primality, the search stops at the first prime (`searchPrime_least`), and by
Bertrand's postulate there is one before twice the number it starts from (`nextPrime_isSome`).
-/

namespace BoundedTables.Sizing

open Binary64

variable {n p least : Nat}

/-- A search starts at the odd number of a pair. -/
theorem or_one_eq (n : Nat) : n ||| 1 = 2 * (n / 2) + 1 := by
  have hquotient : (n ||| 1) / 2 = n / 2 := by
    rw [Nat.or_div_two]
    exact Nat.or_zero _
  have hodd : (n ||| 1) % 2 = 1 := Nat.or_mod_two_eq_one.mpr (.inr rfl)
  omega

/-- A search among the odd numbers that has an odd prime ahead of it stops at the first one. -/
theorem searchPrime_least (hp : p.Prime) (hfits : p ≤ maxWord) (hodd : p % 2 = 1)
    (hn : n % 2 = 1) (hle : n ≤ p) : ∃ q, searchPrime n = some q ∧ q.Prime ∧ q ≤ maxWord ∧
      ∀ r, r.Prime → r % 2 = 1 → n ≤ r → q ≤ r := by
  fun_induction searchPrime n with
  | case1 n hprime =>
      have hword : n ≤ maxWord := Nat.le_trans hle hfits
      exact ⟨n, rfl, (isPrime_iff hword).mp hprime, hword, fun r _ _ hr => hr⟩
  | case2 n hcomposite hlt ih =>
      rw [isPrime_iff (Nat.le_of_lt hlt)] at hcomposite
      have hne : n ≠ p := by
        rintro rfl
        exact hcomposite hp
      -- the next candidate is no further than the prime ahead, so it fits
      have hnext : min (n + 2) maxWord = n + 2 := by omega
      rw [hnext] at ih ⊢
      obtain ⟨q, hq, hqprime, hqfits, hqleast⟩ := ih (by omega) (by omega)
      refine ⟨q, hq, hqprime, hqfits, ?_⟩
      intro r hr hrodd hle
      have hrne : n ≠ r := by
        rintro rfl
        exact hcomposite hr
      exact hqleast r hr hrodd (by omega)
  | case3 n hcomposite hlt =>
      obtain rfl : n = p := by omega
      exact absurd ((isPrime_iff hfits).mpr hp) hcomposite

/-- There is a bucket count for every request below half of the largest word. -/
theorem nextPrime_isSome (h : least < 2 ^ 63) : (nextPrime least).isSome := by
  unfold nextPrime
  split
  · rfl
  · rename_i hnone
    have hstart := or_one_eq least
    have hodd : (least ||| 1) % 2 = 1 := by omega
    obtain ⟨p, hp, hle, hbound⟩ := Nat.exists_prime_lt_and_le_two_mul (least ||| 1) (by omega)
    have hfits : p ≤ maxWord := by
      have : maxWord = 2 ^ 64 - 1 := by decide
      omega
    -- the table covers the request for two, the only prime that the search would step over
    have hpast : ¬ least ≤ 3 := by simpa using List.find?_eq_none.mp hnone 3 (by decide)
    have hodd_prime : p % 2 = 1 := hp.eq_two_or_odd.resolve_left (by omega)
    obtain ⟨q, hq, -⟩ := searchPrime_least hp hfits hodd_prime hodd (Nat.le_of_lt hle)
    rw [hq]
    rfl

/-- There is no bucket count for the largest word, which is not prime. -/
theorem nextPrime_maxWord : nextPrime maxWord = none := by
  have htable : primes.find? (fun p => decide (maxWord ≤ p)) = none := by decide +kernel
  unfold nextPrime
  rw [htable]
  show searchPrime maxWord = none
  unfold searchPrime
  rw [isPrime_maxWord, if_neg nofun, dif_neg (Nat.lt_irrefl _)]

/-- A request that is clamped to a word is met in full, if it is met. -/
theorem le_of_nextPrime_clamped (h : nextPrime (min least maxWord) = some p) : least ≤ p := by
  rcases Nat.le_total least maxWord with hfits | hover
  · rw [Nat.min_eq_left hfits] at h
    exact le_of_nextPrime h
  · rw [Nat.min_eq_right hover, nextPrime_maxWord] at h
    cases h

/-- A chained container has a prime bucket count, whatever capacity and load factor it is given. -/
theorem bucketCount_search (capacity : Nat) (f : LoadFactor) :
    (nextPrime (min (f.placesFor capacity) (4 * maxCapacity))).isSome := by
  have hcap : 4 * maxCapacity < 2 ^ 63 := by decide
  exact nextPrime_isSome (by omega)

end BoundedTables.Sizing
