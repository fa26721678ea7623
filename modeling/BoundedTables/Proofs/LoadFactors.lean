import BoundedTables.Proofs.LinkedMaps
import BoundedTables.Proofs.LruCache.Growth
import BoundedTables.Proofs.Table.Growth

/-!
# Chained containers keep their load factor

A chained container grows by one step at a time, to the next prime past twice its buckets, and that
is enough: whatever the comparer and the operations are, its entries stay within the load factor of
its buckets, as a product of doubles says (`containers_keep_load`). That product may be rounded up,
so that an entry is within it and not within the exact one. The quotient that the first bucket count
is made of may be rounded down, so that the product is below the capacity, and a container with a
fixed capacity grows as it fills up (`rounded_product_decides`).
-/

namespace BoundedTables

open Hashing Sizing Table

variable {κ ν : Type} {o : TableOptions} {f : LoadFactor} {buckets entries : Nat}

/-! ## Loads -/

/-- There is a next bucket count: an operation that has to grow the buckets comes to an end. That is
so for any number of buckets below `2 ^ 62`, which is more than an allocation can hold. -/
def Growable (buckets : Nat) : Prop := (nextPrime (min (2 * buckets) Binary64.maxWord)).isSome

/-- Fewer than `2 ^ 62` buckets can grow. -/
theorem growable_of_lt (h : buckets < 2 ^ 62) : Growable buckets :=
  nextPrime_isSome (by omega)

/-- Entries are within the load factor of the buckets: the product of doubles is not below them.
They exceed the exact product by a relative error of `2 ^ -53` at most, and not at all when it fits
in 53 bits. -/
structure KeepsLoad (f : LoadFactor) (buckets entries : Nat) : Prop where
  admitted : f.admits buckets entries = true
  near : entries * f.denominator * 2 ^ 53 ≤ buckets * f.numerator * (2 ^ 53 + 1)
  exact : buckets * f.numerator < 2 ^ 53 → entries * f.denominator ≤ buckets * f.numerator

/-- Buckets that keep up with their entries keep the load factor, if there is a next bucket count.
-/
theorem Sizing.Fits.keepsLoad (h : Fits f buckets entries) (hgrowable : Growable buckets) :
    KeepsLoad f buckets entries :=
  ⟨h.within hgrowable, LoadFactor.admits_near (h.within hgrowable),
    LoadFactor.admits_exact (h.within hgrowable)⟩

/-- A linked table keeps its load. With a fixed capacity it keeps the buckets that it was built
with, too, if they hold the capacity. -/
structure TableKeepsLoad (o : TableOptions) (f : LoadFactor) (t : LinkedTable κ ν) : Prop where
  within : Growable t.buckets → KeepsLoad f t.buckets t.size
  fixed : o.mode = .fixed → f.admits (bucketCount o.capacity f) o.capacity = true →
    t.buckets = bucketCount o.capacity f
  exact : o.mode = .fixed → o.capacity * f.denominator ≤ bucketCount o.capacity f * f.numerator →
    t.buckets = bucketCount o.capacity f

/-- With a fixed capacity, the limit is that capacity. -/
theorem limit?_of_fixed (hmode : o.mode = .fixed) : o.capacity ∈ o.limit? := by
  rw [TableOptions.limit?, hmode]
  rfl

/-- A table whose buckets keep up with its entries keeps its load. -/
theorem Table.LinkedTable.Loaded.keepsLoad {t : LinkedTable κ ν} (hvalid : o.check = .ok f)
    (h : t.Loaded f o.limit? (bucketCount o.capacity f)) : TableKeepsLoad o f t := by
  have hfixed (hmode : o.mode = .fixed)
      (hheld : f.admits (bucketCount o.capacity f) o.capacity = true) :
      t.buckets = bucketCount o.capacity f := by
    obtain hfirst | ⟨hshort, -⟩ := h.provides _ (limit?_of_fixed hmode)
    · exact hfirst
    · exact absurd hheld (Bool.eq_false_iff.mp hshort)
  refine ⟨h.fits.keepsLoad, hfixed, ?_⟩
  intro hmode hheld
  have hsmall : o.capacity < 2 ^ 53 := (TableOptions.check_ok hvalid).2.trans_lt (by decide)
  exact hfixed hmode (LoadFactor.admits_of_le hsmall hheld)

/-! ## Reachable containers -/

/-- After every run of a deque map, the buckets keep up with the entries. -/
theorem DequeMap.reachable_loaded (hvalid : o.check = .ok f)
    (huncapped : f.placesFor o.capacity ≤ 4 * maxCapacity) (c : Comparer κ) :
    ∃ m : DequeMap κ ν, withComparer o c = .ok m ∧ ∀ ops,
      (run step m ops).2.table.Loaded f o.limit? (bucketCount o.capacity f) := by
  obtain ⟨t, ht, hloaded⟩ : ∃ t : LinkedTable κ ν, _ :=
    LinkedTable.withComparer_loaded hvalid huncapped c
  refine ⟨⟨t⟩, ?_, ?_⟩
  · rw [withComparer, ht]
    rfl
  · intro ops
    exact hloaded.turns (LinkedTable.ample_of_check hvalid huncapped) (run_turns ⟨t⟩ ops)

/-- After every run of a multimap, the buckets keep up with the keys. -/
theorem MultiMap.reachable_loaded [BEq ν] (hvalid : o.check = .ok f)
    (huncapped : f.placesFor o.capacity ≤ 4 * maxCapacity) (c : Comparer κ) :
    ∃ m : MultiMap κ ν, withComparer o c = .ok m ∧ ∀ ops,
      (run step m ops).2.table.Loaded f o.limit? (bucketCount o.capacity f) := by
  obtain ⟨t, ht, hloaded⟩ : ∃ t : LinkedTable κ (List ν), _ :=
    LinkedTable.withComparer_loaded hvalid huncapped c
  refine ⟨⟨t, 0⟩, ?_, ?_⟩
  · rw [withComparer, ht]
    rfl
  · intro ops
    exact hloaded.turns (LinkedTable.ample_of_check hvalid huncapped) (run_turns ⟨t, 0⟩ ops)

/-- The buckets of deque maps and multimaps with a fixed capacity change once at most, and only if
they do not hold it. -/
theorem fixed_buckets_grow_once [BEq ν] (hvalid : o.check = .ok f)
    (huncapped : f.placesFor o.capacity ≤ 4 * maxCapacity) (hmode : o.mode = .fixed)
    (c : Comparer κ) :
    (∃ m : DequeMap κ ν, DequeMap.withComparer o c = .ok m ∧ ∀ ops,
      Provides f o.capacity (bucketCount o.capacity f) (run DequeMap.step m ops).2.table.buckets) ∧
    ∃ m : MultiMap κ ν, MultiMap.withComparer o c = .ok m ∧ ∀ ops,
      Provides f o.capacity (bucketCount o.capacity f)
        (run MultiMap.step m ops).2.table.buckets := by
  obtain ⟨d, hd, hdeque⟩ : ∃ m : DequeMap κ ν, _ := DequeMap.reachable_loaded hvalid huncapped c
  obtain ⟨m, hm, hmulti⟩ : ∃ m : MultiMap κ ν, _ := MultiMap.reachable_loaded hvalid huncapped c
  exact ⟨⟨d, hd, fun ops => (hdeque ops).provides _ (limit?_of_fixed hmode)⟩,
    m, hm, fun ops => (hmulti ops).provides _ (limit?_of_fixed hmode)⟩

/-- Deque maps, multimaps and caches that may grow keep their load factor after every run, unless
the request for their first buckets was capped. Deque maps and multimaps with a fixed capacity keep
the buckets they were built with, if these hold the capacity. -/
theorem containers_keep_load [BEq ν] (hvalid : o.check = .ok f)
    (huncapped : f.placesFor o.capacity ≤ 4 * maxCapacity) (c : Comparer κ) :
    (∃ m : DequeMap κ ν, DequeMap.withComparer o c = .ok m ∧
      ∀ ops, TableKeepsLoad o f (run DequeMap.step m ops).2.table) ∧
    (∃ m : MultiMap κ ν, MultiMap.withComparer o c = .ok m ∧
      ∀ ops, TableKeepsLoad o f (run MultiMap.step m ops).2.table) ∧
    (o.mode = .dynamic → ∃ m : LruCache κ ν, LruCache.withComparer o c = .ok m ∧
      ∀ ops, Growable (run LruCache.step m ops).2.buckets.size →
        KeepsLoad f (run LruCache.step m ops).2.buckets.size
          (run LruCache.step m ops).2.size) := by
  refine ⟨?_, ?_, ?_⟩
  · obtain ⟨m, hm, hloaded⟩ : ∃ m : DequeMap κ ν, _ :=
      DequeMap.reachable_loaded hvalid huncapped c
    exact ⟨m, hm, fun ops => (hloaded ops).keepsLoad hvalid⟩
  · obtain ⟨m, hm, hloaded⟩ : ∃ m : MultiMap κ ν, _ :=
      MultiMap.reachable_loaded hvalid huncapped c
    exact ⟨m, hm, fun ops => (hloaded ops).keepsLoad hvalid⟩
  · intro hmode
    obtain ⟨m, hm, hloaded⟩ : ∃ m : LruCache κ ν, _ :=
      LruCache.withComparer_loaded hvalid huncapped hmode c
    exact ⟨m, hm, fun ops => (hloaded.run ops).fits.keepsLoad⟩

/-- Three keys in a map built for one: the index grows from three buckets to seven, which hold them
at three quarters. -/
theorem third_key_grows : ∃ f,
    (⟨1, .dynamic, 0.75, .deterministic⟩ : TableOptions).check = .ok f ∧
    f.placesFor 1 ≤ 4 * maxCapacity ∧
    ∃ m : DequeMap UInt64 Nat,
      DequeMap.withComparer ⟨1, .dynamic, 0.75, .deterministic⟩ .natural = .ok m ∧
      (run DequeMap.step m [.insert 1 10, .insert 2 20, .insert 3 30]).2.table.buckets = 7 ∧
      KeepsLoad f 7 3 := by
  obtain ⟨f, hvalid, huncapped⟩ := exists_ok_of_any
    (x := (⟨1, .dynamic, 0.75, .deterministic⟩ : TableOptions).check)
    (p := fun f => f.placesFor 1 ≤ 4 * maxCapacity) (by decide +kernel)
  replace huncapped := of_decide_eq_true huncapped
  obtain ⟨⟨m, hm, hruns⟩, -⟩ :=
    containers_keep_load (ν := Nat) hvalid huncapped (.natural : Comparer UInt64)
  have hcomputed : ((DequeMap.withComparer ⟨1, .dynamic, 0.75, .deterministic⟩ .natural).map
      fun m : DequeMap UInt64 Nat =>
        let final := (run DequeMap.step m [.insert 1 10, .insert 2 20, .insert 3 30]).2
        (final.table.buckets, final.table.size)) = .ok (7, 3) := by decide +kernel
  rw [hm] at hcomputed
  have hreads := Except.ok.inj hcomputed
  simp only [Prod.mk.injEq] at hreads
  obtain ⟨hbuckets, hsize⟩ := hreads
  have hwithin := (hruns [.insert 1 10, .insert 2 20, .insert 3 30]).within
  rw [hbuckets, hsize] at hwithin
  exact ⟨f, hvalid, huncapped, m, hm, hbuckets, hwithin (growable_of_lt (by norm_num))⟩

/-- Just below a third, a key exceeds three buckets: their product with the load factor rounds up to
one. Just below three seventeenths, seventeen buckets do not hold the three keys of a fixed capacity
that they were built for, and there are more of them when the last key comes. -/
theorem rounded_product_decides :
    (∃ f, (⟨1, .dynamic, 0.3333333333333333, .deterministic⟩ : TableOptions).check = .ok f ∧
      f.placesFor 1 ≤ 4 * maxCapacity ∧ ∃ m : DequeMap UInt64 Nat,
        DequeMap.withComparer ⟨1, .dynamic, 0.3333333333333333, .deterministic⟩ .natural = .ok m ∧
        (run DequeMap.step m [.insert 1 10]).2.table.buckets = 3 ∧
        (run DequeMap.step m [.insert 1 10]).2.size = 1 ∧ 3 * f.numerator < 1 * f.denominator) ∧
    (∃ f, (⟨3, .fixed, 0.1764705882352941, .deterministic⟩ : TableOptions).check = .ok f ∧
      f.placesFor 3 ≤ 4 * maxCapacity ∧ ∃ m : DequeMap UInt64 Nat,
        DequeMap.withComparer ⟨3, .fixed, 0.1764705882352941, .deterministic⟩ .natural = .ok m ∧
        m.table.buckets = 17 ∧ (run DequeMap.step m
          [.insert 1 10, .insert 2 20, .insert 3 30]).2.table.buckets = 37) := by
  refine ⟨?_, ?_⟩
  · obtain ⟨f, hvalid, htest⟩ := exists_ok_of_any
      (x := (⟨1, .dynamic, 0.3333333333333333, .deterministic⟩ : TableOptions).check)
      (p := fun f => f.placesFor 1 ≤ 4 * maxCapacity ∧ 3 * f.numerator < 1 * f.denominator)
      (by decide +kernel)
    obtain ⟨huncapped, hexceeds⟩ := of_decide_eq_true htest
    have hcomputed : ((DequeMap.withComparer ⟨1, .dynamic, 0.3333333333333333, .deterministic⟩
        .natural).map fun m : DequeMap UInt64 Nat =>
          let final := (run DequeMap.step m [.insert 1 10]).2
          (final.table.buckets, final.size)) = .ok (3, 1) := by decide +kernel
    obtain ⟨m, hm, hfinal⟩ := exists_ok_of_map hcomputed
    simp only [Prod.mk.injEq] at hfinal
    obtain ⟨hbuckets, hsize⟩ := hfinal
    exact ⟨f, hvalid, huncapped, m, hm, hbuckets, hsize, hexceeds⟩
  · obtain ⟨f, hvalid, huncapped⟩ := exists_ok_of_any
      (x := (⟨3, .fixed, 0.1764705882352941, .deterministic⟩ : TableOptions).check)
      (p := fun f => f.placesFor 3 ≤ 4 * maxCapacity) (by decide +kernel)
    have hcomputed : ((DequeMap.withComparer ⟨3, .fixed, 0.1764705882352941, .deterministic⟩
        .natural).map fun m : DequeMap UInt64 Nat =>
          (m.table.buckets, (run DequeMap.step m
            [.insert 1 10, .insert 2 20, .insert 3 30]).2.table.buckets)) = .ok (17, 37) := by
      decide +kernel
    obtain ⟨m, hm, hfinal⟩ := exists_ok_of_map hcomputed
    simp only [Prod.mk.injEq] at hfinal
    obtain ⟨hbuckets, hgrown⟩ := hfinal
    exact ⟨f, hvalid, of_decide_eq_true huncapped, m, hm, hbuckets, hgrown⟩

end BoundedTables
