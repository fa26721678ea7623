import BoundedTables.Proofs.Hashing.Lookups
import BoundedTables.Proofs.LruCache

/-!
# Lookups in caches

Every operation that takes a key tells the monitor of one lookup, how many entries of the bucket
were compared, also where that is only told after entries were added or moved (`step_watch`).
Evicting and growing tell it nothing.
-/

namespace BoundedTables.LruCache

open Hashing Table

variable {κ ν : Type} {m m' : LruCache κ ν}

/-- The key that an operation takes. -/
def Op.key? : Op κ ν → Option κ
  | .put key _ | .get key | .peek key | .containsKey key | .remove key => some key
  | .clear => none

/-- What monitoring has left behind in a cache. -/
def watch (m : LruCache κ ν) : Watch := m.hasher.watch m.journal

/-- An entry has a key. -/
def Matches (m : LruCache κ ν) (key : κ) (e : CacheEntry κ ν) : Prop :=
  e.hash = m.hasher.hash key ∧ m.hasher.comparer.equals e.key key = true

/-- Looking up a key visits so much of its bucket. -/
def Walks (m : LruCache κ ν) (key : κ) (n : Nat) : Prop :=
  Visits (m.Matches key) (m.bucket (m.hasher.hash key)).toList n

/-- Caches with their monitors. -/
def watched : Watched (LruCache κ ν) (Op κ ν) (Reply ν) κ where
  step m op := some (m.step op)
  key? := Op.key?
  watch := watch
  filtered _ := 0
  Walks := Walks
  Filters _ _ := False

/-- How many entries of its bucket are compared with a key. -/
def compared (m : LruCache κ ν) (key : κ) : Nat := (m.locate key (m.hasher.hash key)).2

/-- The number of entries compared is how far the search walks its bucket. -/
theorem compared_walks (m : LruCache κ ν) (key : κ) : m.Walks key (m.compared key) := by
  have hholds : ∀ e, m.holds key (m.hasher.hash key) e = true ↔ m.Matches key e := by
    simp [holds, Matches]
  have hvisits := visits_findIdx? hholds (m.bucket (m.hasher.hash key)).toList
  rw [← List.findIdx?_toArray, Array.toArray_toList] at hvisits
  unfold Walks compared locate
  dsimp only
  cases hfind : (m.bucket (m.hasher.hash key)).findIdx? (m.holds key (m.hasher.hash key)) with
  | none =>
      rw [hfind] at hvisits
      exact hvisits
  | some i =>
      rw [hfind] at hvisits
      exact hvisits

/-- A recorded lookup is watched with its length. -/
theorem record_watch (m : LruCache κ ν) (n : Nat) : (m.record n).watch = m.watch.record n :=
  m.hasher.record_watch n m.journal

/-! ## What the monitor does not hear of -/

/-- A candidate for eviction is looked at without a lookup. -/
theorem evictionStep_watch
    (h : m.evictionStep = .deferred m' ∨ m.evictionStep = .evicted m') : m'.watch = m.watch := by
  unfold evictionStep at h
  split at h
  · rcases h with h | h <;> cases h
  · dsimp only at h
    split at h
    · rcases h with h | h <;> cases h
      rfl
    · split at h <;> rcases h with h | h <;> cases h
      · rfl
      · exact m.hasher.watch_log m.journal rfl

/-- An eviction is no lookup. -/
theorem evictWithin_watch (allowed attempts : Nat) (m : LruCache κ ν) :
    (evictWithin allowed attempts m).2.watch = m.watch := by
  induction attempts generalizing m with
  | zero => exact m.hasher.watch_log m.journal rfl
  | succ attempts ih =>
      unfold evictWithin
      split
      · rfl
      · rename_i m' hdeferred
        exact (ih m').trans (evictionStep_watch (.inl hdeferred))
      · rename_i m' hevicted
        exact evictionStep_watch (.inr hevicted)

/-- Evicting down to the capacity is no lookup. -/
theorem shed_watch (fuel : Nat) (m : LruCache κ ν) : (shed fuel m).watch = m.watch := by
  induction fuel generalizing m with
  | zero => rfl
  | succ fuel ih =>
      have hevicted : m.evictOne.2.watch = m.watch := evictWithin_watch _ _ m
      unfold shed
      split
      · rfl
      · rcases hevict : m.evictOne with ⟨_ | _, m'⟩ <;> rw [hevict] at hevicted
        · exact hevicted
        · exact (ih m').trans hevicted

/-- Growing the buckets is no lookup. -/
theorem growBuckets_watch (m : LruCache κ ν) : m.growBuckets.watch = m.watch := by
  unfold growBuckets
  dsimp only
  split
  · rfl
  · split
    · rfl
    · exact m.hasher.watch_log m.journal rfl

/-! ## Operations -/

/-- Putting a key is watched as one lookup of it. -/
theorem put_watch (m : LruCache κ ν) (key : κ) (value : ν) :
    (m.put key value).2.watch = m.watch.record (m.compared key) := by
  have hticked : ({ m with clock := m.clock + 1 } : LruCache κ ν).locate key (m.hasher.hash key) =
      m.locate key (m.hasher.hash key) := rfl
  unfold put compared
  dsimp only
  rw [hticked]
  rcases m.locate key (m.hasher.hash key) with ⟨_ | ⟨i, e⟩, n⟩
  · dsimp only
    split
    · rw [shed_watch]
      exact record_watch _ n
    · rw [growBuckets_watch]
      exact record_watch _ n
  · exact record_watch _ n

/-- A read is watched as one lookup. -/
theorem get_watch (m : LruCache κ ν) (key : κ) :
    (m.get key).2.watch = m.watch.record (m.compared key) := by
  unfold get compared
  dsimp only
  rcases m.locate key (m.hasher.hash key) with ⟨_ | ⟨i, e⟩, n⟩ <;> exact record_watch _ n

/-- A removal is watched as one lookup. -/
theorem remove_watch (m : LruCache κ ν) (key : κ) :
    (m.remove key).2.watch = m.watch.record (m.compared key) := by
  unfold remove compared
  dsimp only
  rcases m.locate key (m.hasher.hash key) with ⟨_ | ⟨i, e⟩, n⟩ <;> exact record_watch _ n

/-- An operation with a key tells the monitor how much of its bucket was compared, and no other
operation tells it anything. -/
theorem step_watch (m : LruCache κ ν) (op : Op κ ν) : (m.step op).2.watch =
    match op.key? with
    | some key => m.watch.record (m.compared key)
    | none => m.watch := by
  cases op with
  | put key value => exact m.put_watch key value
  | get key => exact m.get_watch key
  | remove key => exact m.remove_watch key
  | peek key | containsKey key => exact m.record_watch _
  | clear => rfl

/-- Caches account for their lookups. -/
theorem watched_sound : (watched : Watched (LruCache κ ν) _ _ _).Sound fun _ => True :=
  Watched.sound_of_lookups rfl (fun _ _ => trivial) step_watch
    (fun {m} key _ => ⟨_, m.compared_walks key, rfl⟩) fun _ _ => rfl

variable {o : TableOptions} {f : Sizing.LoadFactor} {threshold : Nat}

/-- Whatever its comparer says, a new cache accounts for all of its lookups. -/
theorem withComparer_accounts (hvalid : o.check = .ok f)
    (hthreshold : o.hashing.collisionThreshold = some threshold) (c : Comparer κ) :
    watched.Accounts threshold o.hashing.hasCallback
      (withComparer o c : Except _ (LruCache κ ν)) := by
  have hwatch := KeyHasher.withComparer_watch hthreshold c
  rcases hhasher : KeyHasher.withComparer o.hashing c with ⟨hasher, journal⟩
  rw [hhasher] at hwatch
  refine watched_sound.accounts (m := build o f hasher journal) ?_ trivial hwatch rfl
  rw [withComparer, hvalid, hhasher]
  rfl

/-- A new cache with the comparer of its policy accounts for all of its lookups. -/
theorem new_accounts [ByteHash] [ByteKey κ] [DecidableEq κ] (hvalid : o.check = .ok f)
    (hthreshold : o.hashing.collisionThreshold = some threshold) (seed : Seed) :
    watched.Accounts threshold o.hashing.hasCallback (new o seed : Except _ (LruCache κ ν)) := by
  refine watched_sound.accounts (m := build o f (.ofPolicy o.hashing seed) .empty) ?_ trivial
    (KeyHasher.ofPolicy_watch hthreshold seed) rfl
  rw [new, hvalid]
  rfl

end BoundedTables.LruCache
