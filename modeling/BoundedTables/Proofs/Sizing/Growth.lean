import BoundedTables.Proofs.Sizing.PrimeSearch
import BoundedTables.Proofs.Sizing.Rounding

/-!
# Growing a bucket array

A chained table has as many buckets as its capacity asks for, and takes the next prime past twice as
many when its entries exceed the load factor. As entries come one at a time, one such step is always
enough (`Fits.grown`), and a table that stays within its capacity needs one at most
(`Provides.grown`). Whether entries are within the load factor is decided on a product of doubles,
which differs from the exact product by a relative error of `2 ^ -53` at most
(`LoadFactor.admits_near`).
-/

namespace BoundedTables.Sizing

open Binary64

variable {f : LoadFactor} {buckets buckets' entries entries' capacity first : Nat}

/-! ## Entries within the load factor -/

namespace LoadFactor

/-- Buckets admit the entries up to their rounded product with the load factor. -/
theorem admits_iff : f.admits buckets entries = true ↔
    (entries : ℚ) ≤ roundedRatio (buckets * f.numerator) f.denominator := by
  have hpos : (0 : ℚ) < (rounded (buckets * f.numerator) f.denominator).2 := by
    exact_mod_cast rounded_pos _ _
  unfold admits
  rw [decide_eq_true_eq, roundedRatio, le_div_iff₀ hpos]
  norm_cast

/-- The denominator of a load factor is positive. -/
theorem denominator_pos (f : LoadFactor) : 0 < f.denominator :=
  f.numerator_pos.trans f.numerator_lt

/-- Buckets admit fewer entries, too. -/
theorem admits_fewer (h : f.admits buckets entries = true) (hle : entries' ≤ entries) :
    f.admits buckets entries' = true := by
  rw [admits_iff] at h ⊢
  exact h.trans' (by exact_mod_cast hle)

/-- More buckets admit the same entries. -/
theorem admits_wider (h : f.admits buckets entries = true) (hle : buckets ≤ buckets') :
    f.admits buckets' entries = true := by
  rw [admits_iff] at h ⊢
  exact h.trans (roundedRatio_mono f.denominator_pos (Nat.mul_le_mul_right _ hle))

/-- Twice the buckets hold twice the entries. -/
theorem admits_double (h : f.admits buckets entries = true) :
    f.admits (2 * buckets) (2 * entries) = true := by
  rw [admits_iff] at h ⊢
  rw [Nat.mul_assoc, roundedRatio_double _ f.denominator_pos]
  push_cast
  gcongr

/-- Rounding does not exclude entries that are within the exact product. -/
theorem admits_of_le (hfew : entries < 2 ^ 53)
    (h : entries * f.denominator ≤ buckets * f.numerator) : f.admits buckets entries = true := by
  rw [admits_iff, ← roundedRatio_natCast f.denominator_pos hfew]
  exact roundedRatio_mono f.denominator_pos h

/-- Entries within the rounded product exceed the exact one by a relative error of `2 ^ -53` at
most. -/
theorem admits_near (h : f.admits buckets entries = true) :
    entries * f.denominator * 2 ^ 53 ≤ buckets * f.numerator * (2 ^ 53 + 1) := by
  have hpos : (0 : ℚ) < f.denominator := by exact_mod_cast f.denominator_pos
  have hround := roundedRatio_le (buckets * f.numerator) f.denominator_pos
  rw [admits_iff] at h
  have hscaled : (entries : ℚ) * 2 ^ 53 ≤
      ((buckets * f.numerator : Nat) : ℚ) / f.denominator * (2 ^ 53 + 1) := by
    calc (entries : ℚ) * 2 ^ 53
        ≤ roundedRatio (buckets * f.numerator) f.denominator * 2 ^ 53 := by gcongr
      _ ≤ ((buckets * f.numerator : Nat) : ℚ) / f.denominator * (2 ^ 53 + 1) := hround
  rw [div_mul_eq_mul_div, le_div_iff₀ hpos, mul_right_comm] at hscaled
  exact_mod_cast hscaled

/-- A product of up to 53 bits is exact. -/
theorem admits_exact (h : f.admits buckets entries = true)
    (hfew : buckets * f.numerator < 2 ^ 53) :
    entries * f.denominator ≤ buckets * f.numerator := by
  have hnear := admits_near h
  omega

end LoadFactor

/-! ## The first bucket count -/

/-- A chained container has two buckets at least. -/
theorem bucketCount_ge (capacity : Nat) (f : LoadFactor) : 2 ≤ bucketCount capacity f := by
  obtain ⟨p, hp⟩ := Option.isSome_iff_exists.mp (bucketCount_search capacity f)
  rw [bucketCount, hp]
  exact nextPrime_ge hp

/-- There are as many buckets as a capacity asks places for, unless that number is capped. -/
theorem le_bucketCount (huncapped : f.placesFor capacity ≤ 4 * maxCapacity) :
    f.placesFor capacity ≤ bucketCount capacity f := by
  obtain ⟨p, hp⟩ := Option.isSome_iff_exists.mp (bucketCount_search capacity f)
  rw [bucketCount, hp]
  have hle := le_of_nextPrime hp
  rwa [Nat.min_eq_left huncapped] at hle

/-- Twice the first buckets hold the capacity, unless the request for them was capped. -/
theorem bucketCount_wide (hcapacity : 0 < capacity)
    (huncapped : f.placesFor capacity ≤ 4 * maxCapacity) :
    capacity * f.denominator ≤ 2 * bucketCount capacity f * f.numerator := by
  have hpos := f.numerator_pos
  have hlarge : f.numerator ≤ capacity * f.denominator :=
    (Nat.le_of_lt f.numerator_lt).trans (Nat.le_mul_of_pos_left _ hcapacity)
  generalize hquotient : capacity * f.denominator / f.numerator = quotient
  have hne : quotient ≠ 0 := by
    have hone := (Nat.one_le_div_iff hpos).mpr hlarge
    omega
  have hreached : 2 ^ quotient.log2 ≤ f.placesFor capacity := by
    refine f.pow_le_placesFor ((Nat.le_div_iff_mul_le hpos).mp ?_)
    rw [hquotient]
    exact Nat.log2_self_le hne
  have hbelow : capacity * f.denominator < 2 ^ (quotient.log2 + 1) * f.numerator := by
    rw [← Nat.div_lt_iff_lt_mul hpos, hquotient]
    exact Nat.lt_log2_self
  calc capacity * f.denominator
      ≤ 2 ^ (quotient.log2 + 1) * f.numerator := Nat.le_of_lt hbelow
    _ = 2 * 2 ^ quotient.log2 * f.numerator := by rw [Nat.pow_succ']
    _ ≤ 2 * bucketCount capacity f * f.numerator := by
        have := hreached.trans (le_bucketCount huncapped)
        gcongr

/-! ## Growth steps -/

/-- The bucket count of a table after it was checked for growth. -/
def grown (f : LoadFactor) (buckets entries : Nat) : Nat :=
  if f.admits buckets entries then buckets
  else (nextPrime (min (2 * buckets) maxWord)).getD buckets

/-- The buckets of a table keep up with its entries. -/
structure Fits (f : LoadFactor) (buckets entries : Nat) : Prop where
  /-- Twice the buckets hold an entry. -/
  wide : f.denominator ≤ 2 * buckets * f.numerator
  /-- The entries are within the load factor, as long as a search for more buckets ends. -/
  within : (nextPrime (min (2 * buckets) maxWord)).isSome → f.admits buckets entries = true

/-- Buckets that keep up with some entries keep up with fewer. -/
theorem Fits.fewer (h : Fits f buckets entries) (hle : entries' ≤ entries) :
    Fits f buckets entries' where
  wide := h.wide
  within hends := LoadFactor.admits_fewer (h.within hends) hle

/-- One growth step makes room for one more entry. -/
theorem Fits.grown (h : Fits f buckets entries) (hle : entries' ≤ entries + 1) :
    Fits f (grown f buckets entries') entries' := by
  unfold Sizing.grown
  split
  · rename_i hadmits
    exact ⟨h.wide, fun _ => hadmits⟩
  · cases hnext : nextPrime (min (2 * buckets) maxWord) with
    | none =>
        refine ⟨h.wide, ?_⟩
        rw [Option.getD_none, hnext]
        nofun
    | some p =>
        have hp := le_of_nextPrime_clamped hnext
        have hadmits := h.within (by rw [hnext]; rfl)
        have hheld : f.denominator ≤ p * f.numerator :=
          h.wide.trans (Nat.mul_le_mul_right _ hp)
        rw [Option.getD_some]
        refine ⟨hheld.trans (Nat.mul_le_mul_right _ (by omega)), fun _ => ?_⟩
        rcases Nat.eq_zero_or_pos entries with rfl | hsome
        · -- the first entry needs no more than the width of the table
          have hone : f.admits p 1 = true :=
            LoadFactor.admits_of_le (by norm_num) (by rwa [Nat.one_mul])
          exact LoadFactor.admits_fewer hone hle
        · exact LoadFactor.admits_fewer
            (LoadFactor.admits_wider (LoadFactor.admits_double hadmits) hp) (by omega)

/-- A new table keeps up with its entries, as it has none. -/
theorem bucketCount_fits (hcapacity : 0 < capacity)
    (huncapped : f.placesFor capacity ≤ 4 * maxCapacity) :
    Fits f (bucketCount capacity f) 0 where
  wide := (Nat.le_mul_of_pos_left _ hcapacity).trans (bucketCount_wide hcapacity huncapped)
  within _ := LoadFactor.admits_of_le (by norm_num) (by rw [Nat.zero_mul]; exact Nat.zero_le _)

/-- The bucket counts of a table that stays within a capacity: the first one, and the next one when
the first does not hold the capacity. -/
def Provides (f : LoadFactor) (capacity first buckets : Nat) : Prop :=
  buckets = first ∨
    f.admits first capacity = false ∧ nextPrime (min (2 * first) maxWord) = some buckets

/-- A table that stays within its capacity grows once at most. -/
theorem Provides.grown (h : Provides f capacity first buckets) (hcapacity : capacity < 2 ^ 53)
    (hwide : capacity * f.denominator ≤ 2 * first * f.numerator) (hle : entries ≤ capacity) :
    Provides f capacity first (grown f buckets entries) := by
  unfold Sizing.grown
  obtain rfl | ⟨hshort, hnext⟩ := h
  · split
    · exact .inl rfl
    · rename_i hadmits
      cases hnext : nextPrime (min (2 * buckets) maxWord) with
      | none => exact .inl rfl
      | some p =>
          refine .inr ⟨?_, hnext⟩
          rw [← Bool.not_eq_true]
          exact fun hheld => hadmits (LoadFactor.admits_fewer hheld hle)
  · have hheld : f.admits buckets capacity = true := LoadFactor.admits_of_le hcapacity
      (hwide.trans (Nat.mul_le_mul_right _ (le_of_nextPrime_clamped hnext)))
    rw [if_pos (LoadFactor.admits_fewer hheld hle)]
    exact .inr ⟨hshort, hnext⟩

end BoundedTables.Sizing
