import BoundedTables.Proofs.Sizing.LeastPrime
import Mathlib.NumberTheory.LucasPrimality
import Mathlib.Tactic.ReduceModChar

/-!
# Which requests for a bucket count end

A search gives up one candidate after the other, and the candidate behind the largest word is the
largest word again. Followed turn by turn (`candidate`), it finds what `searchPrime` answers
(`searchPrime_eq_some_iff`), and where that answers nothing it goes on for ever. The largest prime
within a word is `2 ^ 64 - 59`, by Lucas' test and a divisor of each odd number behind it
(`le_largestPrime`), so that every request up to it ends and none past it does
(`request_ends_iff`).
-/

namespace BoundedTables.Sizing

open Binary64

variable {n p : Nat}

/-! ## Turns of the loops -/

/-- The candidate of a search after a number of turns. -/
def candidate (first : Nat) : Nat → Nat
  | 0 => first
  | turns + 1 => candidate (min (first + 2) maxWord) turns

/-- Trial division comes to a divisor that divides the candidate or whose square is past it. -/
def TrialEnds (candidate : Nat) : Prop :=
  ∃ turns, (3 + 2 * turns) ∣ candidate ∨
    candidate < min ((3 + 2 * turns) * (3 + 2 * turns)) maxWord

/-- A request gets this bucket count after finitely many turns: the first tabulated prime that
reaches it or, past the table, the first prime that the search comes to. -/
def Answers (least p : Nat) : Prop :=
  match primes.find? fun q => decide (least ≤ q) with
  | some q => p = q
  | none => ∃ turns, candidate (least ||| 1) turns = p ∧ isPrime p = true ∧
      ∀ earlier < turns, isPrime (candidate (least ||| 1) earlier) = false

/-- Trial division of any word comes to an end. -/
theorem trialEnds (hword : n ≤ maxWord) : TrialEnds n := by
  rcases Nat.lt_or_eq_of_le hword with hlt | rfl
  · refine ⟨n, .inr ?_⟩
    have hsquare : 3 + 2 * n ≤ (3 + 2 * n) * (3 + 2 * n) := Nat.le_mul_self _
    omega
  · exact ⟨0, .inl (by decide +kernel)⟩

/-- A candidate is no smaller than the number that the search starts from, and still a word. -/
theorem candidate_bounds (hn : n ≤ maxWord) (turns : Nat) :
    n ≤ candidate n turns ∧ candidate n turns ≤ maxWord := by
  induction turns generalizing n with
  | zero => exact ⟨Nat.le_refl n, hn⟩
  | succ turns ih =>
      obtain ⟨hle, hfits⟩ := ih (Nat.min_le_right (n + 2) maxWord)
      exact ⟨by simp only [candidate]; omega, hfits⟩

/-- The search stays at the largest word once it is there. -/
theorem candidate_maxWord (turns : Nat) : candidate maxWord turns = maxWord := by
  obtain ⟨hle, hfits⟩ := candidate_bounds (Nat.le_refl maxWord) turns
  exact Nat.le_antisymm hfits hle

/-- What a search answers is the first prime among its candidates. -/
theorem searchPrime_eq_some_iff : searchPrime n = some p ↔
    ∃ turns, candidate n turns = p ∧ isPrime p = true ∧
      ∀ earlier < turns, isPrime (candidate n earlier) = false := by
  fun_induction searchPrime n with
  | case1 n hprime =>
      constructor
      · rintro ⟨⟩
        exact ⟨0, rfl, hprime, fun _ h => absurd h (Nat.not_lt_zero _)⟩
      · rintro ⟨turns, rfl, -, hearlier⟩
        cases turns with
        | zero => rfl
        | succ turns =>
            have hcomposite := hearlier 0 (Nat.succ_pos turns)
            exact absurd (hcomposite.symm.trans hprime) Bool.false_ne_true
  | case2 n hcomposite hlt ih =>
      rw [Bool.not_eq_true] at hcomposite
      rw [ih]
      constructor
      · rintro ⟨turns, rfl, hprime, hearlier⟩
        refine ⟨turns + 1, rfl, hprime, ?_⟩
        rintro (_ | earlier) h
        · exact hcomposite
        · exact hearlier earlier (Nat.lt_of_succ_lt_succ h)
      · rintro ⟨turns, rfl, hprime, hearlier⟩
        cases turns with
        | zero => exact absurd (hcomposite.symm.trans hprime) Bool.false_ne_true
        | succ turns =>
            exact ⟨turns, rfl, hprime, fun earlier h => hearlier (earlier + 1) (by omega)⟩
  | case3 n hcomposite hge =>
      refine iff_of_false (Option.some_ne_none p).symm ?_
      rintro ⟨turns, rfl, hprime, -⟩
      cases turns with
      | zero => exact hcomposite hprime
      | succ turns =>
          have hstuck : min (n + 2) maxWord = maxWord := by omega
          rw [candidate, hstuck, candidate_maxWord, isPrime_maxWord] at hprime
          cases hprime

/-- A request gets a bucket count after finitely many turns exactly if it gets one. -/
theorem answers_iff : Answers n p ↔ nextPrime n = some p := by
  unfold Answers nextPrime
  cases primes.find? fun q => decide (n ≤ q) with
  | some q => exact ⟨fun h => congrArg some h.symm, fun h => (Option.some.inj h).symm⟩
  | none => exact searchPrime_eq_some_iff.symm

/-! ## The largest prime within a word -/

/-- The largest prime within a word. -/
def largestPrime : Nat := 18446744073709551557

/-- Lucas' test, from the prime factors of the number below. -/
theorem prime_of_powers (a : ZMod p) (factors : List Nat) (hprimes : ∀ q ∈ factors, q.Prime)
    (hproduct : factors.prod = p - 1) (hwhole : a ^ (p - 1) = 1)
    (hparts : ∀ q ∈ factors, a ^ ((p - 1) / q) ≠ 1) : p.Prime := by
  refine lucas_primality p a hwhole ?_
  intro q hq hdvd
  rw [← hproduct] at hdvd
  obtain ⟨r, hr, hqr⟩ := (Prime.dvd_prod_iff hq.prime).mp hdvd
  obtain rfl : q = r := (Nat.prime_dvd_prime_iff_eq hq (hprimes r hr)).mp hqr
  exact hparts q hr

/-- The largest prime within a word is a prime. -/
theorem largestPrime_prime : largestPrime.Prime := by
  have hfactor : Nat.Prime 5594472617641 := by
    refine prime_of_powers 13 [2, 2, 2, 3, 5, 1427, 2131, 15331] ?_ ?_ ?_ ?_
    · norm_num
    · norm_num
    · norm_num
      reduce_mod_char
    · norm_num
      reduce_mod_char
      decide
  unfold largestPrime
  refine prime_of_powers 2 [2, 2, 11, 137, 547, 5594472617641] ?_ ?_ ?_ ?_
  · have hsmall : ∀ q ∈ [2, 2, 11, 137, 547], Nat.Prime q := by norm_num
    simpa [hfactor] using hsmall
  · norm_num
  · norm_num
    reduce_mod_char
  · norm_num
    reduce_mod_char
    decide

/-- An odd number past the largest prime has one of these divisors. -/
theorem exists_divisor (hpast : largestPrime < n) (hn : n ≤ maxWord) (hodd : n % 2 = 1) :
    ∃ d ∈ [3, 5, 7, 11, 13, 17, 19, 29, 31, 41, 53, 827, 11071, 139646831], n % d = 0 := by
  have htable : ∀ i < 29, ∃ d ∈ [3, 5, 7, 11, 13, 17, 19, 29, 31, 41, 53, 827, 11071, 139646831],
      (largestPrime + 2 + 2 * i) % d = 0 := by decide +kernel
  obtain ⟨i, hi, rfl⟩ : ∃ i < 29, n = largestPrime + 2 + 2 * i := by
    have hlargest : largestPrime = 18446744073709551557 := rfl
    have hword : maxWord = 18446744073709551615 := by decide
    exact ⟨(n - largestPrime - 2) / 2, by omega, by omega⟩
  exact htable i hi

/-- No prime within a word exceeds it. -/
theorem le_largestPrime (hp : p.Prime) (hfits : p ≤ maxWord) : p ≤ largestPrime := by
  by_contra hpast
  rw [Nat.not_le] at hpast
  have hlarge : 139646831 < largestPrime := by decide
  have hodd : p % 2 = 1 := hp.eq_two_or_odd.resolve_left (by omega)
  obtain ⟨d, hd, hmod⟩ := exists_divisor hpast hfits hodd
  have hbounds : ∀ d ∈ [3, 5, 7, 11, 13, 17, 19, 29, 31, 41, 53, 827, 11071, 139646831],
      1 < d ∧ d ≤ 139646831 := by decide
  obtain ⟨hone, hsmall⟩ := hbounds d hd
  rcases hp.eq_one_or_self_of_dvd d (Nat.dvd_of_mod_eq_zero hmod) with rfl | rfl <;> omega

/-! ## Requests -/

/-- No candidate of a search past the largest prime is prime. -/
theorem candidate_composite (hpast : largestPrime < n) (hn : n ≤ maxWord) (turns : Nat) :
    isPrime (candidate n turns) = false := by
  obtain ⟨hle, hfits⟩ := candidate_bounds hn turns
  rw [Bool.eq_false_iff, ne_eq, isPrime_iff hfits]
  intro hprime
  have := le_largestPrime hprime hfits
  omega

/-- The answer to a request is a prime and a word. -/
theorem prime_of_nextPrime (hn : n ≤ maxWord) (h : nextPrime n = some p) :
    p.Prime ∧ p ≤ maxWord := by
  have hanswer := answers_iff.mpr h
  unfold Answers at hanswer
  split at hanswer
  · rename_i q hfind
    subst hanswer
    have hbound : ∀ r ∈ primes, r ≤ maxWord := by decide
    have hmem := List.mem_of_find?_eq_some hfind
    exact ⟨primes_prime p hmem, hbound p hmem⟩
  · obtain ⟨turns, rfl, hprime, -⟩ := hanswer
    have hstart : n ||| 1 ≤ maxWord := by
      have := or_one_eq n
      have hword : maxWord = 2 ^ 64 - 1 := by decide
      omega
    have hfits := (candidate_bounds hstart turns).2
    exact ⟨(isPrime_iff hfits).mp hprime, hfits⟩

/-- There is a bucket count for exactly the requests up to the largest prime. -/
theorem nextPrime_isSome_iff (hn : n ≤ maxWord) :
    (∃ p, nextPrime n = some p) ↔ n ≤ largestPrime := by
  constructor
  · rintro ⟨p, h⟩
    obtain ⟨hprime, hfits⟩ := prime_of_nextPrime hn h
    exact Nat.le_trans (le_of_nextPrime h) (le_largestPrime hprime hfits)
  · intro hle
    by_cases htable : n ≤ 7199369
    · obtain ⟨p, -, h, -⟩ := nextPrime_tabulated htable
      exact ⟨p, h⟩
    · obtain ⟨p, h, -⟩ :=
        nextPrime_searched (Nat.lt_of_not_le htable) largestPrime_prime hle (by decide)
      exact ⟨p, h⟩

/-- Trial division of every candidate ends. What a request gets after finitely many turns is what
it is answered, and it gets something exactly up to the largest prime within a word. Past that
prime the search goes from one candidate to the next for ever, as none of them is prime. -/
theorem request_ends_iff (hword : n ≤ maxWord) :
    (∀ turns, TrialEnds (candidate (n ||| 1) turns)) ∧
    (∀ p, Answers n p ↔ nextPrime n = some p) ∧
    ((∃ p, Answers n p) ↔ n ≤ largestPrime) ∧
    (largestPrime < n → ∀ turns, isPrime (candidate (n ||| 1) turns) = false) := by
  have hstart : n ||| 1 ≤ maxWord := by
    have := or_one_eq n
    have hlargest : maxWord = 2 ^ 64 - 1 := by decide
    omega
  refine ⟨?_, fun _ => answers_iff, ?_, ?_⟩
  · intro turns
    exact trialEnds (candidate_bounds hstart turns).2
  · simp only [answers_iff]
    exact nextPrime_isSome_iff hword
  · intro hpast turns
    exact candidate_composite (Nat.lt_of_lt_of_le hpast Nat.left_le_or) hstart turns

/-- The largest prime is its own bucket count, and the request behind it has none. -/
theorem requests_end_at_largestPrime :
    (largestPrime ≤ maxWord ∧ Answers largestPrime largestPrime) ∧
      (largestPrime + 1 ≤ maxWord ∧ ¬∃ p, Answers (largestPrime + 1) p) := by
  have hlast : largestPrime ≤ maxWord := by decide
  have hpast : largestPrime + 1 ≤ maxWord := by decide
  obtain ⟨-, hanswers, hends, -⟩ := request_ends_iff hlast
  obtain ⟨p, hp⟩ := hends.mpr (Nat.le_refl _)
  have hnext := (hanswers p).mp hp
  obtain ⟨hprime, hfits⟩ := prime_of_nextPrime hlast hnext
  obtain rfl : p = largestPrime :=
    Nat.le_antisymm (le_largestPrime hprime hfits) (le_of_nextPrime hnext)
  obtain ⟨-, -, hends', -⟩ := request_ends_iff hpast
  exact ⟨⟨hlast, hp⟩, hpast, fun h => absurd (hends'.mp h) (Nat.not_succ_le_self _)⟩

/-- A request for the largest word never ends: it is the only candidate, and it is not prime. -/
theorem largest_word_searched_for_ever :
    maxWord = 18446744073709551615 ∧
      (∀ turns, candidate (maxWord ||| 1) turns = maxWord ∧
        isPrime (candidate (maxWord ||| 1) turns) = false) ∧
      ¬∃ p, Answers maxWord p := by
  have hstart : maxWord ||| 1 = maxWord := by decide
  refine ⟨by decide, ?_, ?_⟩
  · intro turns
    rw [hstart, candidate_maxWord]
    exact ⟨rfl, isPrime_maxWord⟩
  · rintro ⟨p, hp⟩
    rw [answers_iff, nextPrime_maxWord] at hp
    cases hp

end BoundedTables.Sizing
