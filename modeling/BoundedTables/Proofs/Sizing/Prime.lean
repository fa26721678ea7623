import BoundedTables.Sizing.Prime

/-!
# Bucket counts are large enough

Whatever count is asked for, the prime that is handed out is not below it, and at least two, so that
a table always has a bucket.
-/

namespace BoundedTables.Sizing

/-- What passes the primality test is at least two. -/
theorem isPrime_ge {n : Nat} (h : isPrime n = true) : 2 ≤ n := by
  unfold isPrime at h
  split at h
  · cases h
  · omega

/-- A prime that the search finds is at least two. -/
theorem searchPrime_ge {n p : Nat} (h : searchPrime n = some p) : 2 ≤ p := by
  fun_induction searchPrime n with
  | case1 n hprime =>
      cases h
      exact isPrime_ge hprime
  | case2 n hprime hlt ih => exact ih h
  | case3 n hprime hlt => cases h

/-- The tabulated primes are at least two. -/
theorem primes_ge : ∀ p ∈ primes, 2 ≤ p := by decide

/-- A prime bucket count is at least two. -/
theorem nextPrime_ge {n p : Nat} (h : nextPrime n = some p) : 2 ≤ p := by
  unfold nextPrime at h
  split at h
  · rename_i q hfind
    cases h
    exact primes_ge p (List.mem_of_find?_eq_some hfind)
  · exact searchPrime_ge h

/-- The search finds no prime below the number it starts from. -/
theorem le_of_searchPrime {n p : Nat} (h : searchPrime n = some p) : n ≤ p := by
  fun_induction searchPrime n with
  | case1 n hprime =>
      cases h
      exact Nat.le_refl _
  | case2 n hprime hlt ih =>
      have hnext := ih h
      omega
  | case3 n hprime hlt => cases h

/-- A prime bucket count is at least the count that was asked for. -/
theorem le_of_nextPrime {least p : Nat} (h : nextPrime least = some p) : least ≤ p := by
  unfold nextPrime at h
  split at h
  · rename_i q hfind
    cases h
    have hreached := List.find?_some hfind
    exact of_decide_eq_true hreached
  · exact Nat.le_trans Nat.left_le_or (le_of_searchPrime h)

end BoundedTables.Sizing
