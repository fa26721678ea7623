import BoundedTables.Proofs.Sizing.PrimeSearch

/-!
# Bucket counts are least primes

The table of primes ascends and holds nothing but primes, so its first entry that reaches a request
is the least one that does (`nextPrime_tabulated`). Past its end the odd numbers are searched in
order, and as long as there is a prime ahead within a word, the search stops at the least one
(`nextPrime_searched`). Together with trial division, which decides primality of every word, these
are what chained tables rely on for their bucket counts (`words_sized_by_primes`).
-/

namespace BoundedTables.Sizing

open Binary64

variable {n p : Nat}

/-! ## The table -/

/-- The tabulated primes ascend. -/
theorem primes_ascending : primes.Pairwise (· < ·) := by decide

/-- The tabulated primes are primes. -/
theorem primes_prime : ∀ p ∈ primes, p.Prime := by
  have hdecided : ∀ p ∈ primes, p ≤ maxWord ∧ isPrime p = true := by decide +kernel
  intro p hp
  obtain ⟨hfits, hprime⟩ := hdecided p hp
  exact (isPrime_iff hfits).mp hprime

/-- The first entry of an ascending list that reaches a request is the least one that does. -/
theorem find?_ascending {l : List Nat} (hl : l.Pairwise (· < ·))
    (hp : l.find? (fun q => decide (n ≤ q)) = some p) :
    p ∈ l ∧ n ≤ p ∧ ∀ q ∈ l, n ≤ q → p ≤ q := by
  obtain ⟨hreached, before, after, rfl, hbefore⟩ := List.find?_eq_some_iff_append.mp hp
  refine ⟨by simp, of_decide_eq_true hreached, ?_⟩
  intro q hq hnq
  rcases List.mem_append.mp hq with hq | hq
  · have hshort : ¬n ≤ q := by simpa using hbefore q hq
    exact absurd hnq hshort
  · rcases List.mem_cons.mp hq with rfl | hq
    · exact Nat.le_refl q
    · have hlater := (List.pairwise_cons.mp (List.pairwise_append.mp hl).2.1).1 q hq
      exact Nat.le_of_lt hlater

/-- A request up to the end of the table gets the least entry that reaches it. -/
theorem nextPrime_tabulated (hn : n ≤ 7199369) :
    ∃ p ∈ primes, nextPrime n = some p ∧ n ≤ p ∧ ∀ q ∈ primes, n ≤ q → p ≤ q := by
  have hreached : (primes.find? fun q => decide (n ≤ q)).isSome := by
    rw [List.find?_isSome]
    exact ⟨7199369, by decide, decide_eq_true hn⟩
  obtain ⟨p, hp⟩ := Option.isSome_iff_exists.mp hreached
  obtain ⟨hmem, hle, hleast⟩ := find?_ascending primes_ascending hp
  refine ⟨p, hmem, ?_, hle, hleast⟩
  rw [nextPrime, hp]

/-! ## The search -/

/-- A request past the end of the table gets the least prime that reaches it, if there is one within
a word. -/
theorem nextPrime_searched (hn : 7199369 < n) {q : Nat} (hq : q.Prime) (hnq : n ≤ q)
    (hfits : q ≤ maxWord) : ∃ p, nextPrime n = some p ∧ p.Prime ∧ n ≤ p ∧ p ≤ maxWord ∧
      ∀ r, r.Prime → n ≤ r → p ≤ r := by
  have hpast : primes.find? (fun r => decide (n ≤ r)) = none := by
    have hbound : ∀ r ∈ primes, r ≤ 7199369 := by decide
    refine List.find?_eq_none.mpr fun r hr => ?_
    have := hbound r hr
    simpa using Nat.lt_of_le_of_lt this hn
  -- a prime this large is odd, so it is not in front of the first odd candidate
  have hstart := or_one_eq n
  have hahead {r : Nat} (hr : r.Prime) (hnr : n ≤ r) : r % 2 = 1 ∧ n ||| 1 ≤ r := by
    have hodd : r % 2 = 1 := hr.eq_two_or_odd.resolve_left (by omega)
    omega
  obtain ⟨hodd, hle⟩ := hahead hq hnq
  obtain ⟨p, hp, hprime, hpfits, hleast⟩ :=
    searchPrime_least hq hfits hodd (n := n ||| 1) (by omega) hle
  have hnext : nextPrime n = some p := by
    rw [nextPrime, hpast]
    exact hp
  refine ⟨p, hnext, hprime, le_of_nextPrime hnext, hpfits, ?_⟩
  intro r hr hnr
  obtain ⟨hrodd, hrle⟩ := hahead hr hnr
  exact hleast r hr hrodd hrle

/-! ## Every word -/

/-- Of every word it is decided whether it is prime, and every request that a prime within a word
reaches gets one: the least tabulated one as far as the table goes, and past it the least of all. -/
theorem words_sized_by_primes (hword : n ≤ maxWord) :
    (isPrime n = true ↔ n.Prime) ∧
    ((∃ q, q.Prime ∧ n ≤ q ∧ q ≤ maxWord) →
      ∃ p, nextPrime n = some p ∧ p.Prime ∧ n ≤ p ∧ p ≤ maxWord ∧
        (n ≤ 7199369 → p ∈ primes ∧ ∀ q ∈ primes, n ≤ q → p ≤ q) ∧
        (7199369 < n → ∀ q, q.Prime → n ≤ q → p ≤ q)) := by
  refine ⟨isPrime_iff hword, ?_⟩
  rintro ⟨q, hq, hnq, hfits⟩
  by_cases hn : n ≤ 7199369
  · obtain ⟨p, hmem, hnext, hle, hleast⟩ := nextPrime_tabulated hn
    have hpfits : p ≤ maxWord := by
      have hbound : ∀ r ∈ primes, r ≤ maxWord := by decide
      exact hbound p hmem
    refine ⟨p, hnext, primes_prime p hmem, hle, hpfits, fun _ => ⟨hmem, hleast⟩, ?_⟩
    intro hpast
    omega
  · obtain ⟨p, hnext, hprime, hle, hpfits, hleast⟩ :=
      nextPrime_searched (Nat.lt_of_not_le hn) hq hnq hfits
    refine ⟨p, hnext, hprime, hle, hpfits, ?_, fun _ => hleast⟩
    intro hcovered
    exact absurd hcovered hn

/-- The first request past the table is even and gets the prime behind it. -/
theorem first_past_table :
    (7199370 ≤ maxWord ∧ ∃ q, q.Prime ∧ 7199370 ≤ q ∧ q ≤ maxWord) ∧
      isPrime 7199370 = false ∧ nextPrime 7199370 = some 7199371 := by
  have hword : 7199370 ≤ maxWord := by decide
  have hprime : Nat.Prime 7199371 := by norm_num
  have hexists : ∃ q, q.Prime ∧ 7199370 ≤ q ∧ q ≤ maxWord := ⟨7199371, hprime, by decide, by decide⟩
  obtain ⟨hdecided, hsized⟩ := words_sized_by_primes hword
  have heven : ¬Nat.Prime 7199370 := by norm_num
  obtain ⟨p, hnext, hp, hle, -, -, hleast⟩ := hsized hexists
  have hbound : p ≤ 7199371 := hleast (by decide) 7199371 hprime (by decide)
  have hne : p ≠ 7199370 := by
    rintro rfl
    exact heven hp
  obtain rfl : p = 7199371 := by omega
  exact ⟨⟨hword, hexists⟩, Bool.eq_false_iff.mpr fun h => heven (hdecided.mp h), hnext⟩

end BoundedTables.Sizing
