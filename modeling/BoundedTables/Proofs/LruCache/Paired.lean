import BoundedTables.Proofs.Hashing.Policy
import BoundedTables.Proofs.LruCache.Buckets
import BoundedTables.Proofs.LruCache.Recency
import BoundedTables.Proofs.Sizing.Prime

/-!
# Entries and their copies in the recency list

A cache keeps every entry in a bucket and a copy of it in the recency list. `Paired m cells` says
that both hold `cells`, the recency list in this order, and that they are counted. It asks nothing
of the comparer and nothing of the times, and every operation keeps it. It is enough to tell what
one look at the candidate for eviction does (`Paired.evictionStep_eq`): the entry of the last cell
is found in its bucket.
-/

namespace BoundedTables.LruCache

open Hashing

variable {κ ν : Type}

/-- The cell of an entry in the recency list. -/
def copy (e : CacheEntry κ ν) : RecencyList.Cell κ ν := (e.node, ⟨e.key, e.value, e.hash, e.stamp⟩)

/-- The entries of a cache in the order of the recency list. -/
structure Paired (m : LruCache κ ν) (cells : List (CacheEntry κ ν)) : Prop where
  recency : m.recency.Spells (cells.map copy)
  filed : Filed m.buckets cells
  size : m.size = cells.length

variable {m m' : LruCache κ ν} {cells before after front back : List (CacheEntry κ ν)}
  {e : CacheEntry κ ν} {key : κ} {value : ν} {hash : UInt32} {i : Nat}

/-- Entries without one of them are some of the entries. -/
theorem rest_sublist (before : List (CacheEntry κ ν)) (e : CacheEntry κ ν)
    (after : List (CacheEntry κ ν)) : (before ++ after).Sublist (before ++ e :: after) :=
  (List.sublist_cons_self e after).append_left before

/-- The cells around the copy of an entry. -/
theorem Paired.split (h : Paired m (front ++ e :: back)) :
    m.recency.Spells (front.map copy ++ copy e :: back.map copy) := by
  have hspells := h.recency
  rw [List.map_append, List.map_cons] at hspells
  exact hspells

/-- A cache with the same buckets and the same recency list is paired with the same entries. -/
theorem Paired.relabel (h : Paired m cells) (hbuckets : m'.buckets = m.buckets)
    (hrecency : m'.recency = m.recency) (hsize : m'.size = m.size) : Paired m' cells where
  recency := hrecency ▸ h.recency
  filed := hbuckets ▸ h.filed
  size := hsize.trans h.size

/-- Looking for a key splits the entries at one with its hash, or finds none. -/
theorem Paired.locate (h : Paired m cells) (key : κ) (hash : UInt32) :
    (∃ n, m.locate key hash = (none, n)) ∨
    ∃ i e before after n, m.locate key hash = (some (i, e), n) ∧
      (m.bucket hash)[i]? = some e ∧ e.hash = hash ∧ cells = before ++ e :: after := by
  rcases h.filed.findIdx? hash (m.holds key hash) with
    ⟨i, e, before, after, hfind, hi, hholds, -, rfl⟩ | ⟨hfind, -⟩
  · rw [holds, Bool.and_eq_true, decide_eq_true_eq] at hholds
    refine .inr ⟨i, e, before, after, i + 1, ?_, hi, hholds.1, rfl⟩
    simp only [LruCache.locate, hfind, hi, Option.map_some]
  · exact .inl ⟨(m.bucket hash).size, by simp only [LruCache.locate, hfind]⟩

/-! ## Uses, updates and removals -/

/-- Noting the time of a use leaves the copy alone. -/
theorem Paired.touch (h : Paired m (front ++ e :: back)) (hi : (m.bucket hash)[i]? = some e)
    (now : Nat) : Paired (m.modifyBucket hash fun entries =>
      entries.modify i fun e => { e with lastAccess := now })
      (front ++ { e with lastAccess := now } :: back) where
  recency := by
    rw [List.map_append, List.map_cons]
    exact h.split
  filed := h.filed.modify hi (f := fun e => { e with lastAccess := now }) rfl
  size := by
    show m.size = _
    rw [h.size, List.length_append, List.length_append, List.length_cons, List.length_cons]

/-- Updating an entry moves its copy to the front. -/
theorem Paired.update (h : Paired m (front ++ e :: back)) (hi : (m.bucket e.hash)[i]? = some e)
    (value : ν) : Paired (m.update i e value)
      ({ e with value, stamp := m.clock, lastAccess := m.clock } :: (front ++ back)) where
  recency := by
    rw [List.map_cons, List.map_append]
    exact h.split.promote m.clock value
  filed := (h.filed.modify hi
    (f := fun e => { e with value, stamp := m.clock, lastAccess := m.clock }) rfl).of_perm
    List.perm_middle
  size := by
    show m.size = _
    rw [h.size, List.length_append, List.length_cons, List.length_cons, List.length_append]
    rfl

/-- The copy of a new entry goes to the front. -/
theorem Paired.add (h : Paired m cells) (key : κ) (value : ν) (hash : UInt32) :
    ∃ node,
      Paired (m.add key value hash) (⟨key, value, hash, node, m.clock, m.clock⟩ :: cells) := by
  obtain ⟨node, recency, hpush, hspells⟩ := h.recency.pushFront ⟨key, value, hash, m.clock⟩
  have heq : m.add key value hash =
      { m with
        recency
        size := m.size + 1
        buckets := distribute m.buckets ⟨key, value, hash, node, m.clock, m.clock⟩ } := by
    rw [LruCache.add, hpush]
    rfl
  refine ⟨node, ?_⟩
  rw [heq]
  exact ⟨hspells, h.filed.push _, congrArg (· + 1) h.size⟩

/-- An entry taken out of its bucket and out of the recency list. -/
theorem Paired.drop (h : Paired m (front ++ e :: back)) (hi : (m.bucket e.hash)[i]? = some e)
    (hbuckets : m'.buckets = (m.modifyBucket e.hash fun entries => swapRemove entries i).buckets)
    (hrecency : m'.recency = m.recency.remove e.node) (hsize : m'.size = m.size - 1) :
    Paired m' (front ++ back) where
  recency := by
    rw [hrecency, List.map_append]
    exact h.split.remove
  filed := by
    rw [hbuckets]
    exact h.filed.remove hi
  size := by
    rw [hsize, h.size, List.length_append, List.length_append, List.length_cons]
    rfl

/-- Growing the buckets changes nothing but the buckets and the journal. -/
theorem growBuckets_eq (m : LruCache κ ν) :
    ∃ buckets journal, m.growBuckets = { m with buckets, journal } := by
  unfold growBuckets
  dsimp only
  split
  · exact ⟨_, _, rfl⟩
  · split <;> exact ⟨_, _, rfl⟩

/-- Growing the buckets keeps the entries. -/
theorem Paired.growBuckets (h : Paired m cells) : Paired m.growBuckets cells := by
  unfold LruCache.growBuckets
  dsimp only
  split
  · exact h
  · split
    · exact h
    · rename_i grown hprime
      have hpositive := Sizing.nextPrime_ge hprime
      exact ⟨h.recency, regroup_filed h.filed (by omega), h.size⟩

/-! ## Candidates for eviction -/

/-- Repositioning the copy of an entry puts it behind the last cell that is no earlier. -/
theorem Paired.restamp (h : Paired m (front ++ e :: back)) (hi : (m.bucket e.hash)[i]? = some e)
    (stamp : Nat) : ∃ kept passed, front ++ back = kept ++ passed ∧
      (∀ x ∈ passed, x.stamp < stamp) ∧ (∀ x ∈ kept.getLast?, stamp ≤ x.stamp) ∧
      Paired (({ m with recency := m.recency.reposition e.node stamp }).modifyBucket e.hash
        fun entries => entries.modify i fun x => { x with stamp })
        (kept ++ { e with stamp } :: passed) := by
  obtain ⟨first, second, hsplit, hearlier, hlater, hspells⟩ := h.split.reposition stamp
  rw [← List.map_append] at hsplit
  obtain ⟨kept, passed, hrejoin, rfl, rfl⟩ := List.map_eq_append_iff.mp hsplit
  refine ⟨kept, passed, hrejoin, ?_, ?_, ?_, ?_, ?_⟩
  · intro x hx
    exact hearlier _ (List.mem_map_of_mem hx)
  · intro x hx
    refine hlater (copy x) ?_
    rw [List.getLast?_map, hx]
    rfl
  · rw [List.map_append, List.map_cons]
    exact hspells
  · have hfiled := h.filed.modify (m := { m with recency := m.recency.reposition e.node stamp }) hi
      (f := fun x => { x with stamp }) rfl
    refine hfiled.of_perm ?_
    exact List.perm_middle.trans (((List.Perm.of_eq hrejoin).cons _).trans List.perm_middle.symm)
  · show m.size = _
    have hlength := congrArg List.length hrejoin
    rw [List.length_append, List.length_append] at hlength
    rw [h.size, List.length_append, List.length_append, List.length_cons, List.length_cons]
    omega

/-- The entry of a cell is found in its bucket. -/
theorem Paired.find_victim (h : Paired m (front ++ e :: back)) :
    ∃ i, (m.bucket e.hash).findIdx?
        (fun x => decide (x.node = e.node) && decide (x.stamp = e.stamp)) = some i ∧
      (m.bucket e.hash)[i]? = some e := by
  rcases h.filed.findIdx? e.hash
    (fun x => decide (x.node = e.node) && decide (x.stamp = e.stamp)) with
    ⟨i, x, before, after, hfind, hi, hx, -, hsplit⟩ | ⟨-, hnone⟩
  · obtain rfl : x = e := by
      have hmem : x ∈ front ++ e :: back := hsplit ▸ by simp
      rw [Bool.and_eq_true, decide_eq_true_eq] at hx
      -- another entry would have a cell, and so a node, of its own
      by_contra hne
      have hcopy : copy x ∈ front.map copy ++ back.map copy := by
        rw [← List.map_append]
        rcases List.mem_cons.mp (List.perm_middle.mem_iff.mp hmem) with rfl | hmem
        · exact absurd rfl hne
        · exact List.mem_map_of_mem hmem
      exact h.split.ne_of_mem hcopy hx.1
    exact ⟨i, hfind, hi⟩
  · have := hnone e (by simp) rfl
    simp at this

/-- What one look at the last cell does to the cache: an entry used since it was stamped is
restamped, and any other is dropped. -/
theorem Paired.evictionStep_eq (h : Paired m (front ++ [e])) : ∃ i,
    (m.bucket e.hash)[i]? = some e ∧ m.evictionStep =
      if e.stamp < e.lastAccess then
        .deferred (({ m with recency := m.recency.reposition e.node e.lastAccess }).modifyBucket
          e.hash fun entries => entries.modify i fun x => { x with stamp := e.lastAccess })
      else
        .evicted
          { m.modifyBucket e.hash fun entries => swapRemove entries i with
            recency := m.recency.remove e.node
            size := m.size - 1
            evictions := m.evictions + 1
            journal := m.journal.log (.cacheEvicted e.node e.stamp) } := by
  obtain ⟨i, hfind, hi⟩ := h.find_victim
  have hvictim : m.recency.victim? = some (copy e) := by
    rw [h.recency.victim?_eq]
    simp
  refine ⟨i, hi, ?_⟩
  simp only [evictionStep, hvictim, copy, hfind, hi, Option.map_some, Option.getD_some]
  rfl

end BoundedTables.LruCache
