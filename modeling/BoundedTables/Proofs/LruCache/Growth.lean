import BoundedTables.Proofs.LruCache.Paired
import BoundedTables.Proofs.LruCache
import BoundedTables.Proofs.Sizing.Growth

/-!
# The buckets of a cache

A cache that may grow checks once after each new entry whether it should, and nothing else changes
the number of its buckets (`step_resizes`). So its buckets keep up with its entries
(`Loaded.run`), whatever the comparer says.
-/

namespace BoundedTables.LruCache

open Hashing Sizing

variable {κ ν : Type} {m m' : LruCache κ ν} {f : LoadFactor}

/-! ## Entries and buckets after each operation -/

/-- Distributing entries keeps the number of buckets. -/
theorem foldl_distribute_size (buckets : Array (Array (CacheEntry κ ν)))
    (more : List (CacheEntry κ ν)) : (more.foldl distribute buckets).size = buckets.size := by
  induction more generalizing buckets with
  | nil => rfl
  | cons e more ih => exact (ih _).trans Array.size_modify

/-- Distributing entries over other buckets does not change how many there are. -/
theorem regroup_size (groups : Array (Array (CacheEntry κ ν)))
    (fresh : Array (Array (CacheEntry κ ν))) :
    (groups.foldl (fun fresh entries => entries.foldl distribute fresh) fresh).size =
      fresh.size := by
  rw [← Array.foldl_toList]
  induction groups.toList generalizing fresh with
  | nil => rfl
  | cons group rest ih =>
      refine (ih _).trans ?_
      dsimp only
      rw [← Array.foldl_toList]
      exact foldl_distribute_size fresh group.toList

/-- Growing takes the buckets to the count that the entries ask for. -/
theorem growBuckets_size (m : LruCache κ ν) :
    m.growBuckets.buckets.size = grown m.loadFactor m.buckets.size m.size := by
  unfold growBuckets grown
  dsimp only
  split
  · rfl
  · split
    · rename_i hnext
      rw [hnext]
      rfl
    · rename_i p hnext
      rw [hnext]
      exact (regroup_size _ _).trans Array.size_replicate

/-- An operation keeps what a cache was set up with and its buckets, and adds no entry. -/
structure Lessens (m m' : LruCache κ ν) : Prop where
  loadFactor : m'.loadFactor = m.loadFactor
  mode : m'.mode = m.mode
  buckets : m'.buckets.size = m.buckets.size
  size : m'.size ≤ m.size

/-- What an operation does to the entries of a cache that may grow, and to its buckets. -/
inductive Resizes (m m' : LruCache κ ν) : Prop
  | kept (hless : m.Lessens m')
  /-- An entry joined, and the buckets were checked for growth. -/
  | joined (hfactor : m'.loadFactor = m.loadFactor) (hmode : m'.mode = m.mode)
      (hsize : m'.size = m.size + 1)
      (hbuckets : m'.buckets.size = grown m.loadFactor m.buckets.size m'.size)

/-- Putting a key into a cache that may grow adds one entry at most, and the buckets then grow if it
asks for that. -/
theorem put_resizes (hmode : m.mode = .dynamic) (key : κ) (value : ν) :
    m.Resizes (m.put key value).2 := by
  unfold put
  dsimp only
  split
  · exact .kept ⟨rfl, rfl, Array.size_modify, Nat.le_refl _⟩
  · generalize hadded : (LruCache.add { m with clock := m.clock + 1 } key value
      (m.hasher.hash key)).record _ = added
    have hfactor : added.loadFactor = m.loadFactor := by rw [← hadded]; rfl
    have hkept : added.mode = m.mode := by rw [← hadded]; rfl
    have hsize : added.size = m.size + 1 := by rw [← hadded]; rfl
    have hbuckets : added.buckets.size = m.buckets.size := by
      rw [← hadded]
      exact Array.size_modify
    rw [hkept, hmode]
    obtain ⟨buckets, journal, hgrown⟩ := growBuckets_eq added
    have hgrown_size : added.growBuckets.size = added.size := by rw [hgrown]
    refine .joined ?_ ?_ (hgrown_size.trans hsize) ?_
    · rw [← hfactor, hgrown]
    · rw [← hkept, hgrown]
    · show added.growBuckets.buckets.size = grown _ _ added.growBuckets.size
      rw [growBuckets_size, hgrown_size, hfactor, hbuckets]

/-- A read adds no entry and keeps the buckets. -/
theorem get_lessens (m : LruCache κ ν) (key : κ) : m.Lessens (m.get key).2 := by
  unfold get
  dsimp only
  split
  · exact ⟨rfl, rfl, rfl, Nat.le_refl _⟩
  · exact ⟨rfl, rfl, Array.size_modify, Nat.le_refl _⟩

/-- A removal adds no entry and keeps the buckets. -/
theorem remove_lessens (m : LruCache κ ν) (key : κ) : m.Lessens (m.remove key).2 := by
  unfold remove
  dsimp only
  split
  · exact ⟨rfl, rfl, rfl, Nat.le_refl _⟩
  · exact ⟨rfl, rfl, Array.size_modify, Nat.sub_le _ _⟩

/-- Every operation on a cache that may grow resizes it in one of these ways. -/
theorem step_resizes (hmode : m.mode = .dynamic) (op : Op κ ν) : m.Resizes (m.step op).2 := by
  cases op with
  | put key value => exact put_resizes hmode key value
  | get key => exact .kept (m.get_lessens key)
  | peek key | containsKey key => exact .kept ⟨rfl, rfl, rfl, Nat.le_refl _⟩
  | remove key => exact .kept (m.remove_lessens key)
  | clear => exact .kept ⟨rfl, rfl, Array.size_replicate, Nat.zero_le _⟩

/-! ## Caches that keep their load -/

/-- The buckets of a cache that may grow keep up with its entries. -/
structure Loaded (f : LoadFactor) (m : LruCache κ ν) : Prop where
  loadFactor : m.loadFactor = f
  mode : m.mode = .dynamic
  fits : Fits f m.buckets.size m.size

/-- An operation leaves buckets that keep up with the entries. -/
theorem Loaded.step (h : m.Loaded f) (op : Op κ ν) : (m.step op).2.Loaded f := by
  obtain ⟨rfl, hmode, hfits⟩ := h
  cases step_resizes hmode op with
  | kept hless =>
      refine ⟨hless.loadFactor, hless.mode.trans hmode, ?_⟩
      rw [hless.buckets]
      exact hfits.fewer hless.size
  | joined hfactor hkept hsize hbuckets =>
      refine ⟨hfactor, hkept.trans hmode, ?_⟩
      rw [hbuckets]
      exact hfits.grown hsize.le

/-- A run leaves buckets that keep up with the entries. -/
theorem Loaded.run (h : m.Loaded f) (ops : List (Op κ ν)) :
    (run LruCache.step m ops).2.Loaded f :=
  run_keeps (fun m op (h : m.Loaded f) => h.step op) h ops

variable {o : TableOptions}

/-- A new cache has the first buckets, and no entry. -/
theorem withComparer_loaded (hvalid : o.check = .ok f)
    (huncapped : f.placesFor o.capacity ≤ 4 * maxCapacity) (hmode : o.mode = .dynamic)
    (c : Comparer κ) : ∃ m : LruCache κ ν, withComparer o c = .ok m ∧ m.Loaded f := by
  refine ⟨build o f (KeyHasher.withComparer o.hashing c).1 (KeyHasher.withComparer o.hashing c).2,
    ?_, rfl, hmode, ?_⟩
  · rw [withComparer, hvalid]
    rfl
  · have hbuckets : (emptyBuckets (bucketCount o.capacity f) :
        Array (Array (CacheEntry κ ν))).size = bucketCount o.capacity f :=
      Array.size_replicate.trans (Nat.max_eq_left (Nat.le_of_succ_le (bucketCount_ge ..)))
    show Fits f (emptyBuckets (bucketCount o.capacity f) : Array (Array (CacheEntry κ ν))).size 0
    rw [hbuckets]
    exact bucketCount_fits (TableOptions.check_ok hvalid).1 huncapped

end BoundedTables.LruCache
