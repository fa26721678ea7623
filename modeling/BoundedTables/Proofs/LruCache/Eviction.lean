import BoundedTables.Proofs.LruCache.Coherent

/-!
# Evictions succeed

An eviction looks at one candidate after the other. A look that evicts nothing repairs the place of
one entry that was used since it was stamped (`Repairs`), and there is one such entry less after it.
So the looks end with an entry dropped, after as many repairs as there are such entries at most
(`Paired.evicts`), which is well within the looks that an eviction is allowed, and a cache that
sheds what is over its capacity ends within it (`Paired.sheds`). `reachable_evictions` is the
theorem over all runs, whatever the comparer.
-/

namespace BoundedTables.LruCache

open Hashing Table

variable {κ ν : Type} {m m' : LruCache κ ν} {cells : List (CacheEntry κ ν)}
  {e : CacheEntry κ ν} {hash : UInt32} {i n fuel : Nat} {limit : Option Nat}

/-! ## Looks at the candidate -/

/-- A look at the candidate that evicts nothing: one entry that was used since it was stamped gets
the time of its last use for a stamp. -/
structure Repairs (m m' : LruCache κ ν) : Prop where
  step : m.evictionStep = .deferred m'
  restamped : ∃ before e after, e.stamp < e.lastAccess ∧ m.entries = before ++ e :: after ∧
    m'.entries = before ++ { e with stamp := e.lastAccess } :: after
  keys : m'.keys.Perm m.keys
  size : m'.size = m.size

/-- A number of repairs, one after the other. -/
inductive Repaired : Nat → LruCache κ ν → LruCache κ ν → Prop where
  | none (m : LruCache κ ν) : Repaired 0 m m
  | next {n : Nat} {m m' m'' : LruCache κ ν} (first : Repairs m m') (rest : Repaired n m' m'') :
      Repaired (n + 1) m m''

/-- An eviction that succeeds after a number of repairs, at most one for each stale entry. -/
structure Evicts (m : LruCache κ ν) (repairs : Nat) (m' : LruCache κ ν) : Prop where
  looks : ∃ repaired, Repaired repairs m repaired ∧ repaired.evictionStep = .evicted m'
  few : repairs ≤ staleCount m.entries
  /-- One more look than there are repairs is enough. -/
  within : ∀ allowed attempts, repairs < attempts → evictWithin allowed attempts m = (true, m')
  size : m'.size + 1 = m.size

/-- The buckets of a paired cache hold its entries, in some order. -/
theorem Paired.entries_perm (h : Paired m cells) : m.entries.Perm cells := h.filed.perm

/-- The keys in the order of the recency list are those of the entries. -/
theorem Paired.keys_perm (h : Paired m cells) : m.keys.Perm (m.entries.map (·.key)) := by
  have hkeys : m.keys = cells.map (·.key) := by
    rw [keys, h.recency.toList_eq, List.map_map, List.map_map]
    rfl
  rw [hkeys]
  exact (h.entries_perm.map _).symm

/-- Changing an entry in its bucket changes it among the entries of all buckets. -/
theorem Paired.entries_modify (h : Paired m cells) (hi : (m.bucket hash)[i]? = some e)
    (f : CacheEntry κ ν → CacheEntry κ ν) : ∃ before after, m.entries = before ++ e :: after ∧
      (m.modifyBucket hash fun entries => entries.modify i f).entries = before ++ f e :: after := by
  obtain ⟨front, back, hbuckets, hlength⟩ := exists_split_of_getElem? (h.filed.bucket_eq hash)
  obtain ⟨first, last, hbucket, rfl⟩ := exists_split_of_getElem? hi
  refine ⟨front.flatMap Array.toList ++ first, last ++ back.flatMap Array.toList, ?_, ?_⟩
  · rw [entries, hbuckets, List.flatMap_append, List.flatMap_cons, hbucket]
    simp only [List.append_assoc, List.cons_append]
  · rw [entries, modifyBucket_buckets, ← hlength, modify_toList hbuckets, List.flatMap_append,
      List.flatMap_cons, modify_toList hbucket]
    simp only [List.append_assoc, List.cons_append]

/-- A repair leaves one stale entry less. -/
theorem Repairs.staleCount_eq (h : Repairs m m') :
    staleCount m.entries = staleCount m'.entries + 1 := by
  obtain ⟨before, e, after, hstale, hentries, hentries'⟩ := h.restamped
  have hwas : stale e = true := decide_eq_true hstale
  have hrepaired : ¬ stale { e with stamp := e.lastAccess } = true := by
    rw [stale, decide_eq_true_eq]
    exact Nat.lt_irrefl _
  rw [staleCount, staleCount, hentries, hentries', List.countP_append, List.countP_append,
    List.countP_cons_of_pos hwas, List.countP_cons_of_neg hrepaired]
  rfl

/-- A look at the candidate of a cache that is not empty repairs its place or evicts it. -/
theorem Paired.look (h : Paired m cells) (hsize : 0 < m.size) :
    (∃ m' cells', Repairs m m' ∧ Paired m' cells' ∧ m.SameSetup m') ∨
    ∃ m' cells', m.evictionStep = .evicted m' ∧ Paired m' cells' ∧ m.SameSetup m' ∧
      m'.size + 1 = m.size := by
  rcases List.eq_nil_or_concat cells with rfl | ⟨init, e, rfl⟩
  · have hzero : m.size = 0 := h.size
    omega
  rw [List.concat_eq_append] at h
  obtain ⟨i, hi, hstep⟩ := h.evictionStep_eq
  by_cases hstale : e.stamp < e.lastAccess
  · rw [if_pos hstale] at hstep
    obtain ⟨kept, passed, -, -, -, hpaired⟩ := h.restamp hi e.lastAccess
    obtain ⟨before, after, hentries, hentries'⟩ := h.entries_modify hi
      fun x => { x with stamp := e.lastAccess }
    refine .inl ⟨_, _, ⟨hstep, ⟨before, e, after, hstale, hentries, hentries'⟩, ?_, rfl⟩, hpaired,
      ⟨rfl, rfl⟩⟩
    -- the keys are read off the entries, among which one got another stamp
    refine hpaired.keys_perm.trans (List.Perm.trans (.of_eq ?_) h.keys_perm.symm)
    refine (congrArg (List.map (·.key)) hentries').trans ?_
    rw [hentries, List.map_append, List.map_append, List.map_cons, List.map_cons]
  · rw [if_neg hstale] at hstep
    refine .inr ⟨_, _, hstep, h.drop hi rfl rfl rfl, ⟨rfl, rfl⟩, ?_⟩
    exact Nat.sub_add_cancel hsize

/-- Looking at candidates ends with one of them evicted. -/
theorem Paired.evicts (h : Paired m cells) (hsize : 0 < m.size) :
    ∃ repairs m' cells', Evicts m repairs m' ∧ Paired m' cells' ∧ m.SameSetup m' := by
  induction hcount : staleCount m.entries using Nat.strongRecOn generalizing m cells with
  | _ count ih =>
      rcases h.look hsize with ⟨m₁, cells₁, hrepairs, h₁, hsetup₁⟩ |
        ⟨m', cells', hstep, h', hsetup, hshrunk⟩
      · have hless := hrepairs.staleCount_eq
        obtain ⟨repairs, m', cells', hevicts, h', hsetup⟩ :=
          ih _ (by omega) h₁ (hrepairs.size ▸ hsize) rfl
        obtain ⟨repaired, hchain, hlast⟩ := hevicts.looks
        refine ⟨repairs + 1, m', cells', ⟨⟨repaired, .next hrepairs hchain, hlast⟩, ?_, ?_, ?_⟩, h',
          hsetup₁.trans hsetup⟩
        · have := hevicts.few
          omega
        · intro allowed attempts hattempts
          obtain ⟨attempts, rfl⟩ : ∃ k, attempts = k + 1 := ⟨attempts - 1, by omega⟩
          rw [evictWithin, hrepairs.step]
          exact hevicts.within allowed attempts (Nat.lt_of_succ_lt_succ hattempts)
        · rw [hevicts.size, hrepairs.size]
      · refine ⟨0, m', cells', ⟨⟨m, .none m, hstep⟩, Nat.zero_le _, ?_, hshrunk⟩, h', hsetup⟩
        intro allowed attempts hattempts
        obtain ⟨attempts, rfl⟩ : ∃ k, attempts = k + 1 := ⟨attempts - 1, by omega⟩
        rw [evictWithin, hstep]

/-- There are fewer stale entries than an eviction has looks. -/
theorem Paired.stale_lt (h : Paired m cells) : staleCount m.entries + 1 ≤ 2 * m.size + 8 := by
  have hle : staleCount m.entries ≤ m.entries.length := List.countP_le_length
  have hlength : m.entries.length = m.size := h.entries_perm.length_eq.trans h.size.symm
  omega

/-- An eviction that some repairs lead to is the one that the cache makes. -/
theorem Paired.evictOne_eq (h : Paired m cells) (hevicts : Evicts m n m') :
    m.evictOne = (true, m') := by
  have hfew := hevicts.few
  have hallowed := h.stale_lt
  exact hevicts.within (2 * m.size + 8) (2 * m.size + 8) (by omega)

/-! ## Shedding what is over the capacity -/

/-- The loop that evicts while a cache is over its capacity, however many rounds it takes. -/
inductive Sheds : LruCache κ ν → LruCache κ ν → Prop where
  | within {m : LruCache κ ν} (hwithin : m.size ≤ m.capacity) : Sheds m m
  | again {m m' m'' : LruCache κ ν} (hover : m.capacity < m.size)
      (hevict : m.evictOne = (true, m')) (rest : Sheds m' m'') : Sheds m m''
  | gaveUp {m m' : LruCache κ ν} (hover : m.capacity < m.size)
      (hevict : m.evictOne = (false, m')) : Sheds m m'

/-- Shedding ends with the cache within its capacity. -/
theorem Paired.sheds (h : Paired m cells) (hfuel : m.size ≤ m.capacity + fuel) :
    Sheds m (shed fuel m) ∧ (shed fuel m).size ≤ m.capacity ∧
      ∃ cells', Paired (shed fuel m) cells' ∧ m.SameSetup (shed fuel m) := by
  induction fuel generalizing m cells with
  | zero => exact ⟨.within hfuel, hfuel, cells, h, ⟨rfl, rfl⟩⟩
  | succ fuel ih =>
      by_cases hwithin : m.size ≤ m.capacity
      · rw [shed, if_pos hwithin]
        exact ⟨.within hwithin, hwithin, cells, h, ⟨rfl, rfl⟩⟩
      · obtain ⟨repairs, m', cells', hevicts, h', hsetup⟩ := h.evicts (by omega)
        have hevict := h.evictOne_eq hevicts
        have hshrunk := hevicts.size
        have hcapacity := hsetup.capacity
        obtain ⟨hsheds, hbound, cells'', h'', hsetup'⟩ := ih h' (by omega)
        rw [shed, if_neg hwithin, hevict]
        exact ⟨.again (Nat.lt_of_not_le hwithin) hevict hsheds, hcapacity ▸ hbound, cells'', h'',
          hsetup.trans hsetup'⟩

/-! ## Each operation -/

/-- The entries of a cache are paired with their copies, and are no more than its limit. -/
structure Bounded (limit : Option Nat) (m : LruCache κ ν) : Prop where
  paired : ∃ cells, Paired m cells
  limited : m.mode.limit? m.capacity = limit
  bound : ∀ n ∈ limit, m.size ≤ n

/-- A cache set up alike that holds no more entries is as bounded. -/
theorem Bounded.of_paired (h : Bounded limit m) (hpaired : Paired m' cells)
    (hsetup : m.SameSetup m') (hsize : m'.size ≤ m.size) : Bounded limit m' where
  paired := ⟨cells, hpaired⟩
  limited := by
    rw [hsetup.mode, hsetup.capacity]
    exact h.limited
  bound n hn := Nat.le_trans hsize (h.bound n hn)

/-- Recording a lookup keeps the entries paired with their copies. -/
theorem Paired.record (h : Paired m cells) (visited : Nat) : Paired (m.record visited) cells :=
  h.relabel rfl rfl rfl

/-- The cache after a new entry came in, before any other is shed. -/
def accept (m : LruCache κ ν) (key : κ) (value : ν) : LruCache κ ν :=
  let hash := m.hasher.hash key
  (add { m with clock := m.clock + 1 } key value hash).record (m.locate key hash).2

/-- What putting an entry does: it updates the one it finds, or admits a new one and then sheds or
grows. -/
theorem Paired.put_cases (h : Paired m cells) (key : κ) (value : ν) :
    (∃ previous m' cells', m.put key value = (some previous, m') ∧ Paired m' cells' ∧
      m.SameSetup m' ∧ m'.size = m.size) ∨
    (∃ cells', Paired (m.accept key value) cells') ∧ m.put key value = (none,
      match m.mode with
      | .fixed => shed (m.accept key value).size (m.accept key value)
      | .dynamic => (m.accept key value).growBuckets) := by
  have hnow : Paired { m with clock := m.clock + 1 } cells := h.relabel rfl rfl rfl
  rcases hnow.locate key (m.hasher.hash key) with ⟨n, hl⟩ |
    ⟨i, e, before, after, n, hl, hi, hhash, rfl⟩
  · obtain ⟨node, hadded⟩ := hnow.add key value (m.hasher.hash key)
    refine .inr ⟨⟨_, hadded.record _⟩, ?_⟩
    have habsent : m.locate key (m.hasher.hash key) = (none, n) := hl
    simp only [put, accept, hl, habsent]
    have hmode : ((LruCache.add { m with clock := m.clock + 1 } key value
        (m.hasher.hash key)).record n).mode = m.mode := rfl
    rw [hmode]
    cases m.mode <;> rfl
  · refine .inl ⟨e.value, _, _, ?_, (hnow.update (hhash ▸ hi) value).record n, ⟨rfl, rfl⟩, rfl⟩
    simp only [put, hl]

/-- Putting a key leaves a cache within its limit. -/
theorem put_bounded (h : Bounded limit m) (key : κ) (value : ν) :
    Bounded limit (m.put key value).2 := by
  obtain ⟨cells, hpaired⟩ := h.paired
  rcases hpaired.put_cases key value with ⟨previous, m', cells', hput, h', hsetup, hsize⟩ |
    ⟨⟨cells', hadmitted⟩, hput⟩
  · rw [hput]
    exact h.of_paired h' hsetup (Nat.le_of_eq hsize)
  · have hlimit := h.limited
    rw [hput]
    cases hmode : m.mode with
    | fixed =>
        obtain ⟨-, hwithin, cells'', h'', hsetup⟩ := hadmitted.sheds (Nat.le_add_left _ _)
        have hcapacity : (shed (m.accept key value).size (m.accept key value)).capacity =
          m.capacity := hsetup.capacity
        refine ⟨⟨cells'', h''⟩, ?_, ?_⟩
        · exact (congrArg₂ CapacityMode.limit? hsetup.mode hcapacity).trans hlimit
        · intro n hn
          rw [hmode] at hlimit
          obtain rfl : m.capacity = n := Option.some.inj (hlimit.trans hn)
          exact hwithin
    | dynamic =>
        obtain ⟨buckets, journal, heq⟩ := growBuckets_eq (m.accept key value)
        have hgrown := hadmitted.growBuckets
        rw [hmode] at hlimit
        refine ⟨⟨cells', hgrown⟩, ?_, ?_⟩
        · show (m.accept key value).growBuckets.mode.limit? _ = limit
          rw [heq]
          exact (congrArg₂ CapacityMode.limit? hmode rfl).trans hlimit
        · rintro n hn
          cases hlimit.trans hn

/-- A read leaves a cache within its limit. -/
theorem get_bounded (h : Bounded limit m) (key : κ) : Bounded limit (m.get key).2 := by
  obtain ⟨cells, hpaired⟩ := h.paired
  rcases hpaired.locate key (m.hasher.hash key) with ⟨n, hl⟩ |
    ⟨i, e, before, after, n, hl, hi, -, rfl⟩ <;> simp only [get, hl]
  · exact h.of_paired (hpaired.record n) ⟨rfl, rfl⟩ (Nat.le_refl _)
  · have hnow : Paired { m with clock := m.clock + 1 } (before ++ e :: after) :=
      hpaired.relabel rfl rfl rfl
    exact h.of_paired ((hnow.touch hi (m.clock + 1)).record n) ⟨rfl, rfl⟩ (Nat.le_refl _)

/-- A removal leaves a cache within its limit. -/
theorem remove_bounded (h : Bounded limit m) (key : κ) : Bounded limit (m.remove key).2 := by
  obtain ⟨cells, hpaired⟩ := h.paired
  rcases hpaired.locate key (m.hasher.hash key) with ⟨n, hl⟩ |
    ⟨i, e, before, after, n, hl, hi, hhash, rfl⟩ <;> simp only [remove, hl]
  · exact h.of_paired (hpaired.record n) ⟨rfl, rfl⟩ (Nat.le_refl _)
  · rw [← hhash] at hi ⊢
    have hdropped : Paired { m.modifyBucket e.hash fun entries => swapRemove entries i with
        recency := m.recency.remove e.node, size := m.size - 1 } (before ++ after) :=
      hpaired.drop hi rfl rfl rfl
    exact h.of_paired (hdropped.record n) ⟨rfl, rfl⟩ (Nat.sub_le _ _)

/-- A cleared cache is within its limit. -/
theorem clear_bounded (h : Bounded limit m) : Bounded limit m.clear := by
  obtain ⟨cells, hpaired⟩ := h.paired
  have hcleared : Paired m.clear [] :=
    ⟨RecencyList.empty_spells, replicate_filed hpaired.filed.positive, rfl⟩
  exact h.of_paired hcleared ⟨rfl, rfl⟩ (Nat.zero_le _)

/-- Every operation keeps the entries paired and within the limit. -/
theorem step_bounded (h : Bounded limit m) (op : Op κ ν) : Bounded limit (m.step op).2 := by
  cases op with
  | put key value => exact put_bounded h key value
  | get key => exact get_bounded h key
  | peek key | containsKey key =>
      obtain ⟨cells, hpaired⟩ := h.paired
      exact h.of_paired (hpaired.record _) ⟨rfl, rfl⟩ (Nat.le_refl _)
  | remove key => exact remove_bounded h key
  | clear => exact clear_bounded h

/-! ## Reachable caches -/

variable {o : TableOptions} {f : Sizing.LoadFactor}

/-- A new cache is empty. -/
theorem withComparer_bounded (hvalid : o.check = .ok f) (c : Comparer κ) :
    ∃ m : LruCache κ ν, withComparer o c = .ok m ∧ Bounded o.limit? m := by
  refine ⟨build o f (KeyHasher.withComparer o.hashing c).1 (KeyHasher.withComparer o.hashing c).2,
    ?_, ⟨[], RecencyList.empty_spells, replicate_filed (by omega), rfl⟩, rfl,
    fun n _ => Nat.zero_le n⟩
  rw [withComparer, hvalid]
  rfl

/-- Whatever is done to a new cache, and whatever the comparer says, an eviction from a cache that
is not empty succeeds, well within the looks it is allowed, and a fixed cache ends every `put`
within its capacity. -/
theorem reachable_evictions (hvalid : o.check.isOk) (c : Comparer κ) :
    ∃ m : LruCache κ ν, withComparer o c = .ok m ∧ ∀ ops : List (Op κ ν),
      (0 < (run step m ops).2.size →
        staleCount (run step m ops).2.entries + 1 ≤ 2 * (run step m ops).2.size + 8 ∧
        ∃ repairs m', (run step m ops).2.Evicts repairs m' ∧
          (run step m ops).2.evictOne = (true, m')) ∧
      (o.mode = .fixed → (run step m ops).2.size ≤ o.capacity ∧ ∀ key value,
        ((run step m ops).2.put key value).2.size ≤ o.capacity ∧
        (((run step m ops).2.put key value).1 = none →
          Sheds ((run step m ops).2.accept key value) ((run step m ops).2.put key value).2)) := by
  obtain ⟨f, hvalid⟩ := exists_ok hvalid
  obtain ⟨m, hm, hstart⟩ : ∃ m : LruCache κ ν, _ := withComparer_bounded hvalid c
  refine ⟨m, hm, ?_⟩
  intro ops
  have hfinal := run_keeps (fun m op (h : Bounded o.limit? m) => step_bounded h op) hstart ops
  generalize (run step m ops).2 = final at hfinal
  obtain ⟨cells, hpaired⟩ := hfinal.paired
  refine ⟨?_, ?_⟩
  · intro hsize
    obtain ⟨repairs, m', -, hevicts, -⟩ := hpaired.evicts hsize
    exact ⟨hpaired.stale_lt, repairs, m', hevicts, hpaired.evictOne_eq hevicts⟩
  · intro hmode
    have hlimit : o.capacity ∈ o.limit? := by
      rw [TableOptions.limit?, hmode]
      rfl
    refine ⟨hfinal.bound _ hlimit, ?_⟩
    intro key value
    refine ⟨(put_bounded hfinal key value).bound _ hlimit, ?_⟩
    intro hnew
    rcases hpaired.put_cases key value with ⟨previous, m', cells', hput, -⟩ |
      ⟨⟨cells', hadmitted⟩, hput⟩
    · rw [hput] at hnew
      cases hnew
    · have hfixed : final.mode = .fixed := by
        have hkept := hfinal.limited
        rw [TableOptions.limit?, hmode] at hkept
        cases hcase : final.mode with
        | fixed => rfl
        | dynamic =>
            rw [hcase] at hkept
            cases hkept
      rw [hput, hfixed]
      exact (hadmitted.sheds (Nat.le_add_left _ _)).1

/-- In a cache of two, an eviction repairs the place of the older key, which was read again, and
drops the other one. The next new key sheds that one as well. -/
theorem eviction_after_read :
    (⟨2, .fixed, 0.75, .deterministic⟩ : TableOptions).check.isOk ∧
    ∃ m m' : LruCache UInt64 Nat, ∃ repairs,
      withComparer ⟨2, .fixed, 0.75, .deterministic⟩ .natural = .ok m ∧
      staleCount (run step m [.put 1 10, .put 2 20, .get 1]).2.entries = 1 ∧
      (run step m [.put 1 10, .put 2 20, .get 1]).2.Evicts repairs m' ∧ m'.keys = [1] ∧
      Sheds ((run step m [.put 1 10, .put 2 20, .get 1]).2.accept 3 30)
        ((run step m [.put 1 10, .put 2 20, .get 1]).2.put 3 30).2 := by
  have hvalid : (⟨2, .fixed, 0.75, .deterministic⟩ : TableOptions).check.isOk := by decide +kernel
  obtain ⟨m, hm, hruns⟩ : ∃ m : LruCache UInt64 Nat, _ := reachable_evictions hvalid .natural
  have hcomputed : ((withComparer ⟨2, .fixed, 0.75, .deterministic⟩ .natural).map
      fun m : LruCache UInt64 Nat =>
        let final := (run step m [.put 1 10, .put 2 20, .get 1]).2
        (final.size, staleCount final.entries, final.evictOne.2.keys, (final.put 3 30).1)) =
      .ok (2, 1, [1], none) := by decide +kernel
  rw [hm] at hcomputed
  have hreads := Except.ok.inj hcomputed
  simp only [Prod.mk.injEq] at hreads
  obtain ⟨hsize, hstale, hkeys, hnew⟩ := hreads
  obtain ⟨hevictions, hfixed⟩ := hruns [.put 1 10, .put 2 20, .get 1]
  obtain ⟨-, repairs, m', hevicts, hevict⟩ := hevictions (by omega)
  refine ⟨hvalid, m, m', repairs, hm, hstale, hevicts, ?_, ((hfixed rfl).2 3 30).2 hnew⟩
  rw [hevict] at hkeys
  exact hkeys

end BoundedTables.LruCache
