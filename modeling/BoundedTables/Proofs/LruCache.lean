import BoundedTables.Proofs.EntryList
import BoundedTables.Proofs.LruCache.Paired
import BoundedTables.Proofs.Run
import BoundedTables.Proofs.Table.Options

/-!
# Caches evict exactly the entry used least recently

`LruCache.Ideal` is a list of entries in the order of their last use. A cache does not keep this
order: reading an entry only notes the time, and its place in the recency list is repaired when it
comes up for eviction. `Kept c m cells uses` ties both orders to one set of entries: the recency
list spells `cells` in descending order of stamps, and `uses` are the same entries in descending
order of last use. A stamp is never later than the last use, so a last cell that was not used
since it was stamped is the entry used least recently (`evictionStep_kept`), and since every
repair leaves one stale entry less, an eviction always finds it (`evictWithin_kept`).
-/

namespace BoundedTables.LruCache

open Hashing Table

variable {κ ν : Type}

/-- The operations of a cache. -/
inductive Op (κ ν : Type) where
  | put (key : κ) (value : ν)
  | get (key : κ)
  | peek (key : κ)
  | containsKey (key : κ)
  | remove (key : κ)
  | clear

/-- The answers of a cache. -/
inductive Reply (ν : Type) where
  | value (v : Option ν)
  | present (b : Bool)
  | done

/-- Perform one operation. -/
def step (m : LruCache κ ν) : Op κ ν → Reply ν × LruCache κ ν
  | .put key value => (m.put key value).map .value id
  | .get key => (m.get key).map .value id
  | .peek key => (m.peek key).map .value id
  | .containsKey key => (m.containsKey key).map .present id
  | .remove key => (m.remove key).map .value id
  | .clear => (.done, m.clear)

/-! ## The ideal cache -/

/-- The entries in the order of their last use, latest first, the time, and how many entries were
dropped to make room. -/
structure Ideal (κ ν : Type) where
  entries : List (κ × ν)
  clock : Nat
  evictions : Nat

namespace Ideal

/-- Drop the entry used least recently when a limit is reached. -/
def makeRoom (limit : Option Nat) (s : Ideal κ ν) : Ideal κ ν :=
  if limit.any (· ≤ s.entries.length) then
    { s with entries := s.entries.dropLast, evictions := s.evictions + 1 }
  else s

/-- Update a key or add it, making it the one used last. -/
def put (c : Comparer κ) (limit : Option Nat) (s : Ideal κ ν) (key : κ) (value : ν) :
    Option ν × Ideal κ ν :=
  match EntryList.find? c key s.entries with
  | some e =>
      (some e.2,
        { s with
          entries := (e.1, value) :: EntryList.erase c key s.entries
          clock := s.clock + 1 })
  | none =>
      let s := s.makeRoom limit
      (none, { s with entries := (key, value) :: s.entries, clock := s.clock + 1 })

/-- The value of a key, which becomes the one used last. -/
def get (c : Comparer κ) (s : Ideal κ ν) (key : κ) : Option ν × Ideal κ ν :=
  match EntryList.find? c key s.entries with
  | some e =>
      (some e.2,
        { s with entries := e :: EntryList.erase c key s.entries, clock := s.clock + 1 })
  | none => (none, s)

/-- Perform one operation, under a comparer and a limit on the number of entries. -/
def step (c : Comparer κ) (limit : Option Nat) (s : Ideal κ ν) : Op κ ν → Reply ν × Ideal κ ν
  | .put key value => (s.put c limit key value).map .value id
  | .get key => (s.get c key).map .value id
  | .peek key => (.value (EntryList.value? c key s.entries), s)
  | .containsKey key => (.present (EntryList.value? c key s.entries).isSome, s)
  | .remove key =>
      (.value (EntryList.value? c key s.entries),
        { s with entries := EntryList.erase c key s.entries })
  | .clear => (.done, { s with entries := [] })

end Ideal

/-! ## Two orders of the same entries -/

/-- The key and the value of an entry. -/
def plain (e : CacheEntry κ ν) : κ × ν := (e.key, e.value)

/-- No time belongs to both entries. -/
def Apart (e e' : CacheEntry κ ν) : Prop :=
  (e.stamp ≠ e'.stamp ∧ e.stamp ≠ e'.lastAccess) ∧
    e.lastAccess ≠ e'.stamp ∧ e.lastAccess ≠ e'.lastAccess

/-- Entries with distinct keys under their hashes, stamped no later than their last use, which was
no later than now. Every time belongs to one entry only. -/
structure Sound (c : Comparer κ) (now : Nat) (entries : List (CacheEntry κ ν)) : Prop where
  times : ∀ e ∈ entries, e.stamp ≤ e.lastAccess ∧ e.lastAccess ≤ now
  apart : entries.Pairwise Apart
  hashed : ∀ e ∈ entries, e.hash = c.code e.key
  distinct : EntryList.Distinct c (entries.map plain)

/-- The entries of a cache in the order of their stamps and in the order of their last use. -/
structure Kept (c : Comparer κ) (m : LruCache κ ν) (cells uses : List (CacheEntry κ ν)) : Prop where
  recency : m.recency.Spells (cells.map copy)
  filed : Filed m.buckets uses
  same : uses.Perm cells
  stamps : (cells.map (·.stamp)).Pairwise (· ≥ ·)
  used : (uses.map (·.lastAccess)).Pairwise (· > ·)
  sound : Sound c m.clock uses
  size : m.size = uses.length
  comparer : m.hasher.comparer = c

/-- Two caches that were set up alike. -/
structure SameSetup (m m' : LruCache κ ν) : Prop where
  mode : m'.mode = m.mode
  capacity : m'.capacity = m.capacity

variable {c : Comparer κ} {m m' : LruCache κ ν} {cells uses before after : List (CacheEntry κ ν)}
  {e : CacheEntry κ ν} {key : κ} {value : ν} {i : Nat}

/-- Two steps that keep the setup keep it together. -/
theorem SameSetup.trans {m'' : LruCache κ ν} (h : m.SameSetup m') (h' : m'.SameSetup m'') :
    m.SameSetup m'' :=
  ⟨h'.mode.trans h.mode, h'.capacity.trans h.capacity⟩

/-- Having no time in common is symmetric. -/
theorem Apart.symm {e e' : CacheEntry κ ν} (h : Apart e e') : Apart e' e :=
  ⟨⟨h.1.1.symm, h.2.1.symm⟩, h.1.2.symm, h.2.2.symm⟩

/-- What holds of the times of entries now still holds later. -/
theorem Sound.later {now now' : Nat} (h : Sound c now uses) (hle : now ≤ now') :
    Sound c now' uses where
  times e he := ⟨(h.times e he).1, Nat.le_trans (h.times e he).2 hle⟩
  apart := h.apart
  hashed := h.hashed
  distinct := h.distinct

/-- What holds of some entries holds of each part of them. -/
theorem Sound.sublist {now : Nat} (h : Sound c now uses) (hsub : cells.Sublist uses) :
    Sound c now cells where
  times e he := h.times e (hsub.subset he)
  apart := h.apart.sublist hsub
  hashed e he := h.hashed e (hsub.subset he)
  distinct := h.distinct.sublist (hsub.map _)

/-- The order of the entries does not matter for what holds of their times and keys. -/
theorem Sound.perm {now : Nat} (hc : c.Lawful) (h : Sound c now uses) (hp : uses.Perm cells) :
    Sound c now cells where
  times e he := h.times e (hp.mem_iff.mpr he)
  apart := h.apart.perm hp Apart.symm
  hashed e he := h.hashed e (hp.mem_iff.mpr he)
  distinct := h.distinct.perm hc (hp.map _)

/-- An entry shares no time with the rest. -/
theorem Sound.apart_rest {now : Nat} (h : Sound c now (before ++ e :: after)) :
    ∀ x ∈ before ++ after, Apart e x :=
  (List.pairwise_cons.mp (h.apart.perm List.perm_middle Apart.symm)).1

/-- Another entry with the same key, at times that no other entry has. -/
theorem Sound.replace {now : Nat} {e' : CacheEntry κ ν} (h : Sound c now (before ++ e :: after))
    (hkey : e'.key = e.key) (hhash : e'.hash = e.hash) (hstamp : e'.stamp ≤ e'.lastAccess)
    (hnow : e'.lastAccess ≤ now) (hapart : ∀ x ∈ before ++ after, Apart e' x) :
    Sound c now (before ++ e' :: after) := by
  have hmem : ∀ x ∈ before ++ e' :: after, x = e' ∨ x ∈ before ++ e :: after := fun x hx => by
    rcases List.mem_cons.mp (List.perm_middle.mem_iff.mp hx) with rfl | hx
    · exact .inl rfl
    · exact .inr (List.perm_middle.mem_iff.mpr (List.mem_cons_of_mem _ hx))
  refine ⟨fun x hx => ?_, ?_, fun x hx => ?_, ?_⟩
  · rcases hmem x hx with rfl | hx
    · exact ⟨hstamp, hnow⟩
    · exact h.times x hx
  · have hrest := h.apart.sublist (rest_sublist before e after)
    exact (List.pairwise_cons.mpr ⟨hapart, hrest⟩).perm List.perm_middle.symm Apart.symm
  · rcases hmem x hx with rfl | hx
    · rw [hhash, hkey]
      exact h.hashed e (by simp)
    · exact h.hashed x hx
  · have hd := h.distinct
    rw [EntryList.distinct_iff] at hd ⊢
    simpa [plain, hkey] using hd

/-- The entries of a cache that is kept are paired with their copies in the recency list. -/
theorem Kept.paired (h : Kept c m cells uses) : Paired m cells where
  recency := h.recency
  filed := h.filed.of_perm h.same
  size := h.size.trans h.same.length_eq

/-- What a pairing leaves open. -/
theorem Paired.kept (h : Paired m cells) (hsame : uses.Perm cells)
    (hstamps : (cells.map (·.stamp)).Pairwise (· ≥ ·))
    (hused : (uses.map (·.lastAccess)).Pairwise (· > ·)) (hsound : Sound c m.clock uses)
    (hcomparer : m.hasher.comparer = c) : Kept c m cells uses where
  recency := h.recency
  filed := h.filed.of_perm hsame.symm
  same := hsame
  stamps := hstamps
  used := hused
  sound := hsound
  size := h.size.trans hsame.symm.length_eq
  comparer := hcomparer

/-- A later cache with the same buckets and the same recency list is kept with the same entries. -/
theorem Kept.relabel (h : Kept c m cells uses) (hbuckets : m'.buckets = m.buckets)
    (hrecency : m'.recency = m.recency) (hsize : m'.size = m.size) (hclock : m.clock ≤ m'.clock)
    (hcomparer : m'.hasher.comparer = m.hasher.comparer) : Kept c m' cells uses where
  recency := hrecency ▸ h.recency
  filed := hbuckets ▸ h.filed
  same := h.same
  stamps := h.stamps
  used := h.used
  sound := h.sound.later hclock
  size := hsize.trans h.size
  comparer := hcomparer.trans h.comparer

/-- Recording a lookup keeps the entries. -/
theorem Kept.record (h : Kept c m cells uses) (visited : Nat) :
    Kept c (m.record visited) cells uses :=
  h.relabel rfl rfl rfl (Nat.le_refl _) (KeyHasher.record_comparer ..)

/-- An entry stands somewhere in the recency list as well. -/
theorem exists_cells (h : (before ++ e :: after).Perm cells) :
    ∃ front back, cells = front ++ e :: back ∧ (before ++ after).Perm (front ++ back) := by
  have hmem : e ∈ before ++ e :: after := by simp
  obtain ⟨front, back, rfl⟩ := List.append_of_mem (h.mem_iff.mp hmem)
  exact ⟨front, back, rfl, ((List.perm_middle.symm.trans h).trans List.perm_middle).cons_inv⟩

/-- Replacing an entry in both orders. -/
theorem replace_perm {front back : List (CacheEntry κ ν)}
    (h : (before ++ after).Perm (front ++ back)) (e : CacheEntry κ ν) :
    (before ++ e :: after).Perm (front ++ e :: back) :=
  (List.perm_middle.trans (h.cons e)).trans List.perm_middle.symm

/-- Looking for a key splits the entries at it, or tells that it is absent. -/
theorem Kept.locate (h : Kept c m cells uses) (hc : c.Lawful) (key : κ) :
    (∃ n, m.locate key (c.code key) = (none, n) ∧ EntryList.Absent c key (uses.map plain)) ∨
    ∃ i e before after n, m.locate key (c.code key) = (some (i, e), n) ∧
      (m.bucket (c.code key))[i]? = some e ∧ e.hash = c.code key ∧
      uses = before ++ e :: after ∧
      EntryList.Split c key (uses.map plain) (before.map plain) (plain e) (after.map plain) := by
  rcases h.filed.findIdx? (c.code key) (m.holds key (c.code key)) with
    ⟨i, e, before, after, hfind, hi, hholds, -, rfl⟩ | ⟨hfind, hnone⟩
  · simp only [holds, h.comparer, Bool.and_eq_true, decide_eq_true_eq] at hholds
    refine .inr ⟨i, e, before, after, i + 1, ?_, hi, hholds.1, rfl, ?_⟩
    · simp only [LruCache.locate, hfind, hi, Option.map_some]
    · have hd := h.sound.distinct
      rw [List.map_append, List.map_cons] at hd ⊢
      exact hd.split hc hholds.2
  · refine .inl ⟨(m.bucket (c.code key)).size, ?_, fun x hx => ?_⟩
    · simp only [LruCache.locate, hfind]
    · obtain ⟨e, he, rfl⟩ := List.mem_map.mp hx
      by_contra hkey
      rw [Bool.not_eq_false] at hkey
      have hcode : e.hash = c.code key := (h.sound.hashed e he).trans (hc.code_eq hkey)
      have hholds := hnone e he hcode
      simp only [holds, h.comparer, hcode, decide_true, Bool.true_and] at hholds
      rw [Comparer.hasKey, plain, hholds] at hkey
      cases hkey

/-! ## Uses, updates and removals -/

/-- What a cache knows about the time when an operation begins: it is later than every use. -/
def Late (m : LruCache κ ν) (uses : List (CacheEntry κ ν)) : Prop :=
  ∀ e ∈ uses, e.lastAccess < m.clock

/-- An entry stamped and used now shares no time with the others. -/
theorem Sound.apart_now {now : Nat} (h : Sound c now uses) (hlate : m.Late uses)
    {e' : CacheEntry κ ν} (hstamp : e'.stamp = m.clock) (hused : e'.lastAccess = m.clock) :
    ∀ x ∈ uses, Apart e' x := fun x hx => by
  have htimes := h.times x hx
  have hearlier := hlate x hx
  rw [Apart, hstamp, hused]
  omega

/-- An entry used now comes before all others. -/
theorem used_cons (hlate : m.Late (before ++ e :: after))
    (hused : ((before ++ e :: after).map (·.lastAccess)).Pairwise (· > ·)) {e' : CacheEntry κ ν}
    (he' : e'.lastAccess = m.clock) :
    ((e' :: (before ++ after)).map (·.lastAccess)).Pairwise (· > ·) := by
  rw [List.map_cons, List.pairwise_cons]
  refine ⟨fun t ht => ?_, hused.sublist ((rest_sublist before e after).map _)⟩
  obtain ⟨x, hx, rfl⟩ := List.mem_map.mp ht
  rw [he']
  exact hlate x ((rest_sublist before e after).subset hx)

/-- Noting the time of a use makes the entry the one used last. -/
theorem Kept.touch (hc : c.Lawful) (h : Kept c m cells (before ++ e :: after))
    (hi : (m.bucket (c.code key))[i]? = some e) (hlate : m.Late (before ++ e :: after)) :
    ∃ cells', Kept c (m.modifyBucket (c.code key) fun entries =>
      entries.modify i fun e => { e with lastAccess := m.clock }) cells'
      ({ e with lastAccess := m.clock } :: (before ++ after)) := by
  obtain ⟨front, back, rfl, hrest⟩ := exists_cells h.same
  have htimes := h.sound.times e (by simp)
  refine ⟨_, (h.paired.touch hi m.clock).kept ((hrest.cons _).trans List.perm_middle.symm) ?_
    (used_cons hlate h.used rfl) ?_ h.comparer⟩
  · have hstamps := h.stamps
    rw [List.map_append, List.map_cons] at hstamps ⊢
    exact hstamps
  · have hreplaced : Sound c m.clock (before ++ { e with lastAccess := m.clock } :: after) :=
      h.sound.replace rfl rfl (Nat.le_trans htimes.1 htimes.2) (Nat.le_refl _) fun x hx => by
        have hx' := (rest_sublist before e after).subset hx
        have hearlier := hlate x hx'
        have hx_times := h.sound.times x hx'
        exact ⟨(h.sound.apart_rest x hx).1, by show m.clock ≠ _ ∧ m.clock ≠ _; omega⟩
    exact hreplaced.perm hc List.perm_middle

/-- Updating an entry makes it the first in both orders. -/
theorem Kept.update (hc : c.Lawful) (h : Kept c m cells (before ++ e :: after))
    (hi : (m.bucket e.hash)[i]? = some e) (hlate : m.Late (before ++ e :: after)) (value : ν) :
    ∃ cells', Kept c (m.update i e value) cells'
      ({ e with value, stamp := m.clock, lastAccess := m.clock } :: (before ++ after)) := by
  obtain ⟨front, back, rfl, hrest⟩ := exists_cells h.same
  refine ⟨_, (h.paired.update hi value).kept (hrest.cons _) ?_ (used_cons hlate h.used rfl) ?_
    h.comparer⟩
  · rw [List.map_cons, List.pairwise_cons]
    refine ⟨fun t ht => ?_, h.stamps.sublist ((rest_sublist front e back).map _)⟩
    obtain ⟨x, hx, rfl⟩ := List.mem_map.mp ht
    have hmem := (rest_sublist before e after).subset (hrest.mem_iff.mpr hx)
    exact Nat.le_trans (h.sound.times x hmem).1 (h.sound.times x hmem).2
  · have hreplaced : Sound c m.clock
        (before ++ { e with value, stamp := m.clock, lastAccess := m.clock } :: after) :=
      h.sound.replace rfl rfl (Nat.le_refl _) (Nat.le_refl _) fun x hx =>
        h.sound.apart_now hlate rfl rfl x ((rest_sublist before e after).subset hx)
    exact hreplaced.perm hc List.perm_middle

/-- A new entry is the first in both orders. -/
theorem Kept.add (hc : c.Lawful) (h : Kept c m cells uses) (hlate : m.Late uses)
    (hkey : EntryList.Absent c key (uses.map plain)) (value : ν) :
    ∃ m' e cells', m.add key value (c.code key) = m' ∧ plain e = (key, value) ∧
      Kept c m' cells' (e :: uses) ∧ m.SameSetup m' ∧ m'.clock = m.clock ∧
      m'.evictions = m.evictions := by
  obtain ⟨node, hpaired⟩ := h.paired.add key value (c.code key)
  refine ⟨_, ⟨key, value, c.code key, node, m.clock, m.clock⟩, _, rfl, rfl,
    hpaired.kept (h.same.cons _) ?_ ?_ ?_ h.comparer, ⟨rfl, rfl⟩, rfl, rfl⟩
  · rw [List.map_cons, List.pairwise_cons]
    refine ⟨fun t ht => ?_, h.stamps⟩
    obtain ⟨x, hx, rfl⟩ := List.mem_map.mp ht
    have htimes := h.sound.times x (h.same.mem_iff.mpr hx)
    exact Nat.le_trans htimes.1 htimes.2
  · rw [List.map_cons, List.pairwise_cons]
    refine ⟨fun t ht => ?_, h.used⟩
    obtain ⟨x, hx, rfl⟩ := List.mem_map.mp ht
    exact hlate x hx
  · refine ⟨fun x hx => ?_, List.pairwise_cons.mpr ⟨h.sound.apart_now hlate rfl rfl,
      h.sound.apart⟩, fun x hx => ?_, h.sound.distinct.cons hc hkey value⟩
    · rcases List.mem_cons.mp hx with rfl | hx
      · exact ⟨Nat.le_refl _, Nat.le_refl _⟩
      · exact h.sound.times x hx
    · rcases List.mem_cons.mp hx with rfl | hx
      · rfl
      · exact h.sound.hashed x hx

/-- An entry taken out of its bucket and out of the recency list. -/
theorem Kept.drop (m' : LruCache κ ν) (h : Kept c m cells (before ++ e :: after))
    (hi : (m.bucket e.hash)[i]? = some e) (hbuckets : m'.buckets =
      (m.modifyBucket e.hash fun entries => swapRemove entries i).buckets)
    (hrecency : m'.recency = m.recency.remove e.node) (hsize : m'.size = m.size - 1)
    (hclock : m'.clock = m.clock) (hcomparer : m'.hasher.comparer = m.hasher.comparer) :
    ∃ cells', Kept c m' cells' (before ++ after) := by
  obtain ⟨front, back, rfl, hrest⟩ := exists_cells h.same
  refine ⟨_, (h.paired.drop hi hbuckets hrecency hsize).kept hrest
    (h.stamps.sublist ((rest_sublist front e back).map _))
    (h.used.sublist ((rest_sublist before e after).map _)) ?_ (hcomparer.trans h.comparer)⟩
  rw [hclock]
  exact h.sound.sublist (rest_sublist before e after)

/-! ## Eviction -/

/-- Whether an entry was used since it was stamped. -/
def stale (e : CacheEntry κ ν) : Bool := decide (e.stamp < e.lastAccess)

/-- The entries whose place in the recency list is out of date. -/
def staleCount (uses : List (CacheEntry κ ν)) : Nat := uses.countP stale

/-- A number goes into a descending list where the one in front of it is no smaller and those
behind it are no larger. -/
theorem descending_insert {front back : List Nat} {n : Nat}
    (h : (front ++ back).Pairwise (· ≥ ·)) (hfront : ∀ t ∈ front.getLast?, n ≤ t)
    (hback : ∀ t ∈ back, t ≤ n) : (front ++ n :: back).Pairwise (· ≥ ·) := by
  obtain ⟨hpairs, hpairs', hcross⟩ := List.pairwise_append.mp h
  refine List.pairwise_append.mpr ⟨hpairs, List.pairwise_cons.mpr ⟨hback, hpairs'⟩,
    fun s hs t ht => ?_⟩
  rcases List.mem_cons.mp ht with rfl | ht
  · -- the last number in front is no smaller, and the others are no smaller than that one
    rcases List.eq_nil_or_concat front with rfl | ⟨init, last, rfl⟩
    · cases hs
    · rw [List.concat_eq_append] at *
      have hlast : t ≤ last := hfront last (by simp)
      rcases List.mem_append.mp hs with hs | hs
      · exact Nat.le_trans hlast ((List.pairwise_append.mp hpairs).2.2 s hs last (by simp))
      · rw [List.mem_singleton.mp hs]
        exact hlast
  · exact hcross s hs t ht

/-- Repositioning a stale entry keeps the order of use and leaves one stale entry less. -/
theorem Kept.restamp (h : Kept c m cells (before ++ e :: after))
    (hi : (m.bucket e.hash)[i]? = some e) :
    ∃ cells', Kept c (({ m with recency := m.recency.reposition e.node e.lastAccess }).modifyBucket
      e.hash fun entries => entries.modify i fun x => { x with stamp := e.lastAccess }) cells'
      (before ++ { e with stamp := e.lastAccess } :: after) := by
  obtain ⟨front, back, rfl, hrest⟩ := exists_cells h.same
  obtain ⟨kept, passed, hrejoin, hearlier, hlater, hpaired⟩ := h.paired.restamp hi e.lastAccess
  rw [hrejoin] at hrest
  have hstamps := h.stamps.sublist ((rest_sublist front e back).map _)
  rw [hrejoin, List.map_append] at hstamps
  refine ⟨_, hpaired.kept (replace_perm hrest _) ?_ ?_ ?_ h.comparer⟩
  · rw [List.map_append, List.map_cons]
    refine descending_insert hstamps (fun t ht => ?_) fun t ht => ?_
    · rw [List.getLast?_map] at ht
      obtain ⟨x, hx, rfl⟩ := Option.map_eq_some_iff.mp ht
      exact hlater x hx
    · obtain ⟨x, hx, rfl⟩ := List.mem_map.mp ht
      exact Nat.le_of_lt (hearlier x hx)
  · have hused := h.used
    rw [List.map_append, List.map_cons] at hused ⊢
    exact hused
  · refine h.sound.replace rfl rfl (Nat.le_refl _) (h.sound.times e (by simp)).2 fun x hx => ?_
    exact ⟨(h.sound.apart_rest x hx).2, (h.sound.apart_rest x hx).2⟩

/-- When the last cell is not stale, it was used least recently: an entry used before it would have
an earlier stamp, and no cell has. -/
theorem Kept.used_last {init : List (CacheEntry κ ν)}
    (h : Kept c m (init ++ [e]) (before ++ e :: after)) (hstale : ¬e.stamp < e.lastAccess) :
    after = [] := by
  cases after with
  | nil => rfl
  | cons x after =>
      have hearlier : x.lastAccess < e.lastAccess := by
        have hused := h.used
        rw [List.map_append, List.map_cons, List.map_cons] at hused
        exact (List.pairwise_cons.mp (List.pairwise_append.mp hused).2.1).1 _ (by simp)
      have htimes := h.sound.times x (by simp)
      have hmem : x ∈ init := by
        have hrest := (List.perm_middle.symm.trans h.same).trans List.perm_middle
        rw [List.append_nil] at hrest
        exact hrest.cons_inv.mem_iff.mp (by simp)
      have hstamps := h.stamps
      rw [List.map_append] at hstamps
      have hstamp : x.stamp ≥ e.stamp :=
        (List.pairwise_append.mp hstamps).2.2 x.stamp (List.mem_map_of_mem hmem) e.stamp (by simp)
      omega

/-- What one look at the candidate leads to: the place of a stale entry is repaired, or the entry
used least recently is gone. -/
theorem evictionStep_kept (h : Kept c m cells uses) (hne : uses ≠ []) :
    (∃ m' cells' uses', m.evictionStep = .deferred m' ∧ Kept c m' cells' uses' ∧
      m.SameSetup m' ∧ m'.clock = m.clock ∧ m'.evictions = m.evictions ∧
      uses'.map plain = uses.map plain ∧ staleCount uses = staleCount uses' + 1) ∨
    ∃ m' cells' uses', m.evictionStep = .evicted m' ∧ Kept c m' cells' uses' ∧
      m.SameSetup m' ∧ m'.clock = m.clock ∧ m'.evictions = m.evictions + 1 ∧
      uses' = uses.dropLast := by
  have hcells : cells ≠ [] := fun hnil => hne (by simpa [hnil] using h.same)
  obtain ⟨init, e, rfl⟩ := (List.eq_nil_or_concat cells).resolve_left hcells
  rw [List.concat_eq_append] at h
  obtain ⟨before, after, rfl⟩ := List.append_of_mem (h.same.mem_iff.mpr (by simp : e ∈ init ++ [e]))
  obtain ⟨i, hi, hstep⟩ := h.paired.evictionStep_eq
  by_cases hstale : e.stamp < e.lastAccess
  · rw [if_pos hstale] at hstep
    obtain ⟨cells', hkept⟩ := h.restamp hi
    refine .inl ⟨_, cells', _, hstep, hkept, ⟨rfl, rfl⟩, rfl, rfl, ?_, ?_⟩
    · simp [plain]
    · simp [staleCount, stale, hstale]
      omega
  · rw [if_neg hstale] at hstep
    obtain ⟨cells', hkept⟩ := h.drop { m.modifyBucket e.hash fun entries =>
      swapRemove entries i with
        recency := m.recency.remove e.node
        size := m.size - 1
        evictions := m.evictions + 1
        journal := m.journal.log (.cacheEvicted e.node e.stamp) } hi rfl rfl rfl rfl rfl
    obtain rfl := h.used_last hstale
    refine .inr ⟨_, cells', _, hstep, hkept, ⟨rfl, rfl⟩, rfl, rfl, ?_⟩
    simp

/-- With more attempts than stale entries, an eviction drops the entry used least recently. -/
theorem evictWithin_kept (allowed : Nat) {attempts : Nat} (h : Kept c m cells uses)
    (hne : uses ≠ []) (hattempts : staleCount uses < attempts) :
    ∃ m' cells' uses', evictWithin allowed attempts m = (true, m') ∧ Kept c m' cells' uses' ∧
      m.SameSetup m' ∧ m'.clock = m.clock ∧ m'.evictions = m.evictions + 1 ∧
      uses'.map plain = (uses.map plain).dropLast := by
  induction attempts generalizing m cells uses with
  | zero => omega
  | succ attempts ih =>
      rcases evictionStep_kept h hne with
        ⟨m', cells', uses', hstep, hkept, hsetup, hclock, hevictions, hplain, hcount⟩ |
        ⟨m', cells', uses', hstep, hkept, hsetup, hclock, hevictions, rfl⟩
      · -- a stale entry less, so the attempts that are left still outnumber them
        have hne' : uses' ≠ [] := fun hnil => hne (by simpa [hnil] using hplain.symm)
        obtain ⟨m'', cells'', uses'', hrest, hkept', hsetup', hclock', hevictions', hplain'⟩ :=
          ih hkept hne' (by omega)
        refine ⟨m'', cells'', uses'', ?_, hkept', hsetup.trans hsetup', hclock'.trans hclock,
          by omega, ?_⟩
        · simp only [evictWithin, hstep, hrest]
        · rw [hplain', hplain]
      · refine ⟨m', cells', _, ?_, hkept, hsetup, hclock, hevictions, List.map_dropLast⟩
        simp only [evictWithin, hstep]

/-- A cache with one entry too many drops the one used least recently, and no other. -/
theorem shed_kept {fuel : Nat} (h : Kept c m cells uses) (hfuel : 0 < fuel)
    (hover : uses.length = m.capacity + 1) :
    ∃ m' cells' uses', shed fuel m = m' ∧ Kept c m' cells' uses' ∧ m.SameSetup m' ∧
      m'.clock = m.clock ∧ m'.evictions = m.evictions + 1 ∧
      uses'.map plain = (uses.map plain).dropLast := by
  have hsize := h.size
  have hne : uses ≠ [] := fun hnil => by simp [hnil] at hover
  have hstale : staleCount uses ≤ uses.length := List.countP_le_length
  have hattempts : staleCount uses < 2 * m.size + 8 := by omega
  obtain ⟨m', cells', uses', hevict, hkept, hsetup, hclock, hevictions, hplain⟩ :=
    evictWithin_kept (2 * m.size + 8) h hne hattempts
  refine ⟨m', cells', uses', ?_, hkept, hsetup, hclock, hevictions, hplain⟩
  obtain ⟨fuel, rfl⟩ : ∃ n, fuel = n + 1 := ⟨fuel - 1, by omega⟩
  have hover' : ¬ m.size ≤ m.capacity := by omega
  have hlength : uses'.length = m.capacity := by
    have hdropped := congrArg List.length hplain
    rw [List.length_map, List.length_dropLast, List.length_map] at hdropped
    omega
  have hwithin : m'.size ≤ m'.capacity := Nat.le_of_eq (by
    rw [hkept.size, hlength, hsetup.capacity])
  rw [shed, if_neg hover', evictOne, hevict]
  -- the next round finds the cache within its capacity and stops
  cases fuel with
  | zero => rfl
  | succ fuel => simp only [shed, hwithin, ↓reduceIte]

/-- Growing the buckets keeps the entries. -/
theorem growBuckets_kept (h : Kept c m cells uses) :
    Kept c m.growBuckets cells uses ∧ m.SameSetup m.growBuckets ∧
      m.growBuckets.clock = m.clock ∧ m.growBuckets.evictions = m.evictions := by
  have hpaired := h.paired.growBuckets
  obtain ⟨buckets, journal, heq⟩ := growBuckets_eq m
  rw [heq] at hpaired ⊢
  exact ⟨hpaired.kept h.same h.stamps h.used h.sound h.comparer, ⟨rfl, rfl⟩, rfl, rfl⟩

/-! ## Each operation -/

/-- A cache stands for an ideal cache. -/
def Stands (c : Comparer κ) (limit : Option Nat) (m : LruCache κ ν) (s : Ideal κ ν) : Prop :=
  ∃ cells uses, Kept c m cells uses ∧ m.mode.limit? m.capacity = limit ∧
    s = ⟨uses.map plain, m.clock, m.evictions⟩ ∧ ∀ n ∈ limit, uses.length ≤ n

section Operations

variable {limit : Option Nat} {s : Ideal κ ν}

/-- What the time of an operation is later than. -/
theorem Kept.late (h : Kept c m cells uses) :
    Late { m with clock := m.clock + 1 } uses := fun e he =>
  Nat.lt_succ_of_le (h.sound.times e he).2

/-- A read returns what the ideal cache has for the key, and counts as a use of it. -/
theorem get_stands (h : Stands c limit m s) (hc : c.Lawful) (key : κ) :
    (m.get key).1 = (s.get c key).1 ∧ Stands c limit (m.get key).2 (s.get c key).2 := by
  obtain ⟨cells, uses, hk, hlimit, rfl, hbound⟩ := h
  have hhash : m.hasher.hash key = c.code key := by rw [KeyHasher.hash, hk.comparer]
  rcases hk.locate hc key with ⟨n, hl, habsent⟩ |
    ⟨i, e, before, after, n, hl, hi, hcode, rfl, hsplit⟩
  · simp only [get, Ideal.get, hhash, hl, habsent.find?_eq]
    exact ⟨trivial, cells, uses, hk.record n, hlimit, rfl, hbound⟩
  · have hnow : Kept c { m with clock := m.clock + 1 } cells (before ++ e :: after) :=
      hk.relabel rfl rfl rfl (Nat.le_succ _) rfl
    obtain ⟨cells', htouched⟩ := hnow.touch hc hi hk.late
    simp only [get, Ideal.get, hhash, hl, hsplit.find?_eq]
    refine ⟨rfl, cells', _, htouched.record n, hlimit, ?_, ?_⟩
    · rw [hsplit.erase_eq, List.map_cons, List.map_append]
      rfl
    · simpa [Nat.add_assoc] using hbound

/-- A peek returns what the ideal cache has for the key, and is no use of it. -/
theorem peek_stands (h : Stands c limit m s) (hc : c.Lawful) (key : κ) :
    (m.peek key).1 = EntryList.value? c key s.entries ∧ Stands c limit (m.peek key).2 s := by
  obtain ⟨cells, uses, hk, hlimit, rfl, hbound⟩ := h
  have hhash : m.hasher.hash key = c.code key := by rw [KeyHasher.hash, hk.comparer]
  rcases hk.locate hc key with ⟨n, hl, habsent⟩ |
    ⟨i, e, before, after, n, hl, hi, hcode, rfl, hsplit⟩
  · simp only [peek, hhash, hl, habsent.value?_eq]
    exact ⟨rfl, cells, uses, hk.record n, hlimit, rfl, hbound⟩
  · simp only [peek, hhash, hl, hsplit.value?_eq]
    exact ⟨rfl, cells, _, hk.record n, hlimit, rfl, hbound⟩

/-- A key is found when the ideal cache has a value for it, and that is no use of it. -/
theorem containsKey_stands (h : Stands c limit m s) (hc : c.Lawful) (key : κ) :
    (m.containsKey key).1 = (EntryList.value? c key s.entries).isSome ∧
      Stands c limit (m.containsKey key).2 s := by
  obtain ⟨cells, uses, hk, hlimit, rfl, hbound⟩ := h
  have hhash : m.hasher.hash key = c.code key := by rw [KeyHasher.hash, hk.comparer]
  rcases hk.locate hc key with ⟨n, hl, habsent⟩ |
    ⟨i, e, before, after, n, hl, hi, hcode, rfl, hsplit⟩
  · simp only [containsKey, hhash, hl, habsent.value?_eq]
    exact ⟨rfl, cells, uses, hk.record n, hlimit, rfl, hbound⟩
  · simp only [containsKey, hhash, hl, hsplit.value?_eq]
    exact ⟨rfl, cells, _, hk.record n, hlimit, rfl, hbound⟩

/-- A removal returns what the ideal cache has for the key, and erases the entry. -/
theorem remove_stands (h : Stands c limit m s) (hc : c.Lawful) (key : κ) :
    (m.remove key).1 = EntryList.value? c key s.entries ∧
      Stands c limit (m.remove key).2
        { s with entries := EntryList.erase c key s.entries } := by
  obtain ⟨cells, uses, hk, hlimit, rfl, hbound⟩ := h
  have hhash : m.hasher.hash key = c.code key := by rw [KeyHasher.hash, hk.comparer]
  rcases hk.locate hc key with ⟨n, hl, habsent⟩ |
    ⟨i, e, before, after, n, hl, hi, hcode, rfl, hsplit⟩
  · simp only [remove, hhash, hl, habsent.value?_eq, habsent.erase_eq]
    exact ⟨trivial, cells, uses, hk.record n, hlimit, rfl, hbound⟩
  · simp only [remove, hhash, hl, hsplit.value?_eq, hsplit.erase_eq]
    rw [← hcode] at hi ⊢
    obtain ⟨cells', hdropped⟩ := hk.drop { m.modifyBucket e.hash fun entries =>
      swapRemove entries i with recency := m.recency.remove e.node, size := m.size - 1 }
      hi rfl rfl rfl rfl rfl
    refine ⟨rfl, cells', _, hdropped.record n, hlimit, ?_, fun n hn => ?_⟩
    · rw [List.map_append]
      rfl
    · exact Nat.le_trans (rest_sublist before e after).length_le (hbound n hn)

/-- A cleared cache stands for the ideal cache without entries. -/
theorem clear_stands (h : Stands c limit m s) :
    Stands c limit m.clear { s with entries := [] } := by
  obtain ⟨cells, uses, hk, hlimit, rfl, hbound⟩ := h
  refine ⟨[], [], ⟨RecencyList.empty_spells, replicate_filed hk.filed.positive, .refl _,
    List.Pairwise.nil, List.Pairwise.nil, ⟨by simp, .nil, by simp, .nil⟩, rfl, hk.comparer⟩,
    hlimit, rfl, by simp⟩

/-- Shedding after a new entry came in leaves what the ideal cache has made room for. -/
theorem shed_added {capacity : Nat} (h : Kept c m cells (e :: uses))
    (hcapacity : m.capacity = capacity) (hpositive : 0 < capacity)
    (hbound : uses.length ≤ capacity) (now : Nat) :
    ∃ m' cells' uses', shed m.size m = m' ∧ Kept c m' cells' uses' ∧ m.SameSetup m' ∧
      m'.clock = m.clock ∧ uses'.length ≤ capacity ∧ uses'.map plain = plain e ::
        (Ideal.makeRoom (some capacity) ⟨uses.map plain, now, m.evictions⟩).entries ∧
      m'.evictions =
        (Ideal.makeRoom (some capacity) ⟨uses.map plain, now, m.evictions⟩).evictions := by
  have hsize : m.size = uses.length + 1 := h.size
  have hnonempty : 0 < m.size := by omega
  subst hcapacity
  by_cases hfull : m.capacity ≤ uses.length
  · obtain ⟨m', cells', uses', hshed, hkept, hsetup, hclock, hevictions, hplain⟩ :=
      shed_kept h hnonempty (by rw [List.length_cons]; omega)
    have hne : uses.map plain ≠ [] := by
      rw [ne_eq, ← List.length_eq_zero_iff, List.length_map]
      omega
    rw [List.map_cons, List.dropLast_cons_of_ne_nil hne] at hplain
    refine ⟨m', cells', uses', hshed, hkept, hsetup, hclock, ?_, ?_, ?_⟩
    · have hlength := congrArg List.length hplain
      simp at hlength
      omega
    · rw [hplain]
      simp [Ideal.makeRoom, hfull]
    · rw [hevictions]
      simp [Ideal.makeRoom, hfull]
  · have hwithin : m.size ≤ m.capacity := by omega
    have hshed : shed m.size m = m := by rw [hsize, shed, if_pos hwithin]
    refine ⟨m, cells, _, hshed, h, ⟨rfl, rfl⟩, rfl, ?_, ?_, ?_⟩
    · rw [List.length_cons]
      omega
    · simp [Ideal.makeRoom, hfull]
    · simp [Ideal.makeRoom, hfull]

/-- Putting a key answers as the ideal cache does, and evicts what the ideal cache evicts. -/
theorem put_stands (h : Stands c limit m s) (hc : c.Lawful) (hlimit : ∀ n ∈ limit, 0 < n)
    (key : κ) (value : ν) :
    (m.put key value).1 = (s.put c limit key value).1 ∧
      Stands c limit (m.put key value).2 (s.put c limit key value).2 := by
  obtain ⟨cells, uses, hk, hmode, rfl, hbound⟩ := h
  have hhash : m.hasher.hash key = c.code key := by rw [KeyHasher.hash, hk.comparer]
  have hnow : Kept c { m with clock := m.clock + 1 } cells uses :=
    hk.relabel rfl rfl rfl (Nat.le_succ _) rfl
  rcases hnow.locate hc key with ⟨n, hl, habsent⟩ |
    ⟨i, e, before, after, n, hl, hi, hcode, rfl, hsplit⟩
  · obtain ⟨m', e, cells', hadd, hplain, hadded, hsetup, hclock, hevictions⟩ :=
      hnow.add hc hk.late habsent value
    have hrecorded := hadded.record n
    have hmode' : (m'.record n).mode = m.mode := hsetup.mode
    have hcapacity' : (m'.record n).capacity = m.capacity := hsetup.capacity
    have hclock' : (m'.record n).clock = m.clock + 1 := hclock
    have hevictions' : (m'.record n).evictions = m.evictions := hevictions
    simp only [put, Ideal.put, hhash, hl, hadd, hmode', habsent.find?_eq]
    generalize m'.record n = m₁ at *
    cases hcase : m.mode with
    | dynamic =>
        rw [hcase] at hmode
        obtain rfl : none = limit := hmode
        obtain ⟨hgrown, hsetup₂, hclock₂, hevictions₂⟩ := growBuckets_kept hrecorded
        refine ⟨rfl, cells', _, hgrown, ?_, ?_, by simp⟩
        · rw [hsetup₂.mode, hmode', hcase]
          rfl
        · rw [hclock₂, hevictions₂, hclock', hevictions', List.map_cons, hplain]
          rfl
    | fixed =>
        -- the cache adds the entry and then makes room, the list makes room first
        rw [hcase] at hmode
        obtain rfl : some m.capacity = limit := hmode
        obtain ⟨m₂, cells₂, uses₂, hshed, hkept₂, hsetup₂, hclock₂, hbound₂, hplain₂,
          hevictions₂⟩ := shed_added hrecorded hcapacity' (hlimit m.capacity rfl)
            (hbound m.capacity rfl) m.clock
        rw [hshed]
        refine ⟨rfl, cells₂, uses₂, hkept₂, ?_, ?_, fun k hk => ?_⟩
        · rw [hsetup₂.mode, hsetup₂.capacity, hmode', hcapacity', hcase]
          rfl
        · rw [hplain₂, hclock₂, hevictions₂, hclock', hevictions', hplain, Ideal.makeRoom]
          split <;> rfl
        · obtain rfl : m.capacity = k := by simpa using hk
          exact hbound₂
  · obtain ⟨cells', hupdated⟩ := hnow.update hc (hcode ▸ hi) hk.late value
    simp only [put, Ideal.put, hhash, hl, hsplit.find?_eq]
    refine ⟨rfl, cells', _, hupdated.record n, hmode, ?_, ?_⟩
    · rw [hsplit.erase_eq, List.map_cons, List.map_append]
      rfl
    · simpa [Nat.add_assoc] using hbound

/-- Every operation answers as the ideal cache does. -/
theorem step_stands (h : Stands c limit m s) (hc : c.Lawful) (hlimit : ∀ n ∈ limit, 0 < n)
    (op : Op κ ν) : (m.step op).1 = (s.step c limit op).1 ∧
      Stands c limit (m.step op).2 (s.step c limit op).2 := by
  cases op with
  | put key value =>
      obtain ⟨hreply, hnext⟩ := put_stands h hc hlimit key value
      exact ⟨congrArg Reply.value hreply, hnext⟩
  | get key =>
      obtain ⟨hreply, hnext⟩ := get_stands h hc key
      exact ⟨congrArg Reply.value hreply, hnext⟩
  | peek key =>
      obtain ⟨hreply, hnext⟩ := peek_stands h hc key
      exact ⟨congrArg Reply.value hreply, hnext⟩
  | containsKey key =>
      obtain ⟨hreply, hnext⟩ := containsKey_stands h hc key
      exact ⟨congrArg Reply.present hreply, hnext⟩
  | remove key =>
      obtain ⟨hreply, hnext⟩ := remove_stands h hc key
      exact ⟨congrArg Reply.value hreply, hnext⟩
  | clear => exact ⟨rfl, clear_stands h⟩

end Operations

/-! ## Runs -/

namespace Ideal

/-- An operation takes at most one unit of time, drops at most one entry for each, and drops none
without a limit. -/
theorem step_counts (c : Comparer κ) {limit : Option Nat} {s : Ideal κ ν}
    (h : s.evictions ≤ s.clock ∧ (limit = none → s.evictions = 0)) (op : Op κ ν) :
    ((s.step c limit op).2.evictions ≤ (s.step c limit op).2.clock ∧
      (limit = none → (s.step c limit op).2.evictions = 0)) ∧
    (s.step c limit op).2.clock ≤ s.clock + 1 := by
  have hsucc : s.evictions ≤ s.clock + 1 := Nat.le_succ_of_le h.1
  cases op with
  | put key value =>
      simp only [step, put]
      split
      · exact ⟨⟨hsucc, h.2⟩, Nat.le_refl _⟩
      · unfold makeRoom
        split
        · refine ⟨⟨Nat.succ_le_succ h.1, ?_⟩, Nat.le_refl _⟩
          rintro rfl
          rename_i hfull
          cases hfull
        · exact ⟨⟨hsucc, h.2⟩, Nat.le_refl _⟩
  | get key =>
      simp only [step, get]
      split
      · exact ⟨⟨hsucc, h.2⟩, Nat.le_refl _⟩
      · exact ⟨h, Nat.le_succ _⟩
  | peek key | containsKey key | remove key | clear => exact ⟨h, Nat.le_succ _⟩

/-- Over a run, time counts at most the operations. -/
theorem run_counts (c : Comparer κ) {limit : Option Nat} {s : Ideal κ ν}
    (h : s.evictions ≤ s.clock ∧ (limit = none → s.evictions = 0)) (ops : List (Op κ ν)) :
    ((run (step c limit) s ops).2.evictions ≤ (run (step c limit) s ops).2.clock ∧
      (limit = none → (run (step c limit) s ops).2.evictions = 0)) ∧
    (run (step c limit) s ops).2.clock ≤ s.clock + ops.length := by
  induction ops generalizing s with
  | nil => exact ⟨h, Nat.le_refl _⟩
  | cons op ops ih =>
      obtain ⟨hcounts, hclock⟩ := step_counts c h op
      obtain ⟨hfinal, htime⟩ := ih hcounts
      refine ⟨hfinal, Nat.le_trans htime ?_⟩
      rw [List.length_cons]
      omega

end Ideal

variable {o : TableOptions} {f : Sizing.LoadFactor}

/-- An empty cache stands for an empty one. -/
theorem build_stands (o : TableOptions) (f : Sizing.LoadFactor) (hasher : KeyHasher κ)
    (journal : Journal) :
    Stands hasher.comparer o.limit? (build o f hasher journal : LruCache κ ν) ⟨[], 0, 0⟩ :=
  ⟨[], [], ⟨RecencyList.empty_spells, replicate_filed (by omega), .refl _, List.Pairwise.nil,
    List.Pairwise.nil, ⟨by simp, .nil, by simp, .nil⟩, rfl, rfl⟩, rfl, rfl, by simp⟩

/-- A new cache stands for an empty one. -/
theorem withComparer_stands (hvalid : o.check = .ok f) (c : Comparer κ) :
    ∃ m : LruCache κ ν, withComparer o c = .ok m ∧ Stands c o.limit? m ⟨[], 0, 0⟩ := by
  refine ⟨_, ?_, build_stands o f (KeyHasher.withComparer o.hashing c).1
    (KeyHasher.withComparer o.hashing c).2⟩
  rw [withComparer, hvalid]
  rfl

/-- A new cache stands for an empty one, under the comparer that the policy chooses. -/
theorem new_stands [ByteHash] [ByteKey κ] [DecidableEq κ] {seed : Seed} (h : new o seed = .ok m) :
    Stands (KeyHasher.ofPolicy o.hashing seed).comparer o.limit? m ⟨[], 0, 0⟩ := by
  obtain ⟨f, -, h⟩ := exists_ok_of_bind h
  cases h
  exact build_stands o f (.ofPolicy o.hashing seed) .empty

/-- What is read off a cache is what the ideal cache has, up to the order of the entries, and no
key is resident twice. -/
structure Agrees (c : Comparer κ) (m : LruCache κ ν) (s : Ideal κ ν) : Prop where
  entries : m.toList.Perm s.entries
  distinct : EntryList.Distinct c s.entries
  size : m.size = s.entries.length
  evictions : m.evictions = s.evictions
  clock : m.clock = s.clock

/-- What is read off a cache is what its ideal cache has. -/
theorem Stands.agrees {limit : Option Nat} {s : Ideal κ ν} (h : Stands c limit m s) :
    Agrees c m s := by
  obtain ⟨cells, uses, hk, -, rfl, -⟩ := h
  refine ⟨?_, hk.sound.distinct, ?_, rfl, rfl⟩
  · have hlist : m.toList = cells.map plain := by
      rw [toList, hk.recency.toList_eq, List.map_map, List.map_map]
      rfl
    rw [hlist]
    exact (hk.same.map plain).symm
  · rw [hk.size, List.length_map]

/-- A cache answers every sequence of operations as the list of its entries in the order of their
last use does, and agrees with it in the end. Time and evictions count at most the operations,
and a dynamic cache evicts nothing. -/
theorem refines_recency (hvalid : o.check.isOk) (hc : c.Lawful) :
    ∃ m : LruCache κ ν, withComparer o c = .ok m ∧ ∀ ops : List (Op κ ν),
      (run step m ops).1 = (run (Ideal.step c o.limit?) ⟨[], 0, 0⟩ ops).1 ∧
      Agrees c (run step m ops).2 (run (Ideal.step c o.limit?) ⟨[], 0, 0⟩ ops).2 ∧
      (run step m ops).2.evictions ≤ (run step m ops).2.clock ∧
      (run step m ops).2.clock ≤ ops.length ∧
      (o.mode = .dynamic → (run step m ops).2.evictions = 0) := by
  obtain ⟨f, hvalid⟩ := exists_ok hvalid
  obtain ⟨m, hm, hstart⟩ : ∃ m : LruCache κ ν, _ := withComparer_stands hvalid c
  refine ⟨m, hm, fun ops => ?_⟩
  obtain ⟨hreplies, hend⟩ := run_simulates
    (fun m s op (h : Stands c o.limit? m s) => step_stands h hc (TableOptions.limit_pos hvalid) op)
    hstart ops
  obtain ⟨⟨hevictions, hnone⟩, htime⟩ : _ ∧ (run (Ideal.step c o.limit?) (⟨[], 0, 0⟩ : Ideal κ ν)
      ops).2.clock ≤ _ :=
    Ideal.run_counts c ⟨Nat.le_refl 0, fun _ => rfl⟩ ops
  have hagrees := hend.agrees
  refine ⟨hreplies, hagrees, ?_, ?_, fun hmode => ?_⟩
  · rw [hagrees.evictions, hagrees.clock]
    exact hevictions
  · rw [hagrees.clock]
    simpa using htime
  · rw [hagrees.evictions]
    exact hnone (by rw [TableOptions.limit?, hmode]; rfl)

/-- In a cache of two, a key that was read again outlives one that was put after it. -/
theorem get_outlives_put :
    (⟨2, .fixed, 0.75, .deterministic⟩ : TableOptions).check.isOk ∧
    ∃ m : LruCache UInt64 Nat, withComparer ⟨2, .fixed, 0.75, .deterministic⟩ .natural = .ok m ∧
      (run step m [.put 1 10, .put 2 20, .get 1, .put 3 30]).2.toList.Perm [(3, 30), (1, 10)] ∧
      (run step m [.put 1 10, .put 2 20, .get 1, .put 3 30]).2.evictions = 1 := by
  have hvalid : (⟨2, .fixed, 0.75, .deterministic⟩ : TableOptions).check.isOk := by decide +kernel
  obtain ⟨m, hm, hruns⟩ : ∃ m : LruCache UInt64 Nat, _ :=
    refines_recency hvalid Comparer.natural_lawful
  obtain ⟨-, hagrees, -⟩ := hruns [.put 1 10, .put 2 20, .get 1, .put 3 30]
  exact ⟨hvalid, m, hm, hagrees.entries.trans (.of_eq (by decide)),
    hagrees.evictions.trans (by decide)⟩

end BoundedTables.LruCache
