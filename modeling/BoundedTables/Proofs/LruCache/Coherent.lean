import BoundedTables.Proofs.LruCache

/-!
# The two copies of an entry never drift apart

A cache keeps every entry twice, in a bucket and in the recency list. `Coherent c m` says that both
copies carry the same data and that every count counts them. An entry is stamped with a time that
no other entry has, so the stamps of the recency list descend strictly, also after an entry was
moved to a place in the middle.

`reachable_coherent` is the theorem: every run from a new cache ends coherent.
-/

namespace BoundedTables.LruCache

open Hashing Table

variable {κ ν : Type}

/-- The entries of all buckets. -/
def entries (m : LruCache κ ν) : List (CacheEntry κ ν) := m.buckets.toList.flatMap Array.toList

/-- The buckets and the recency list of a cache hold the same entries, under the current time. -/
structure Coherent (c : Comparer κ) (m : LruCache κ ν) : Prop where
  consistent : m.isConsistent = true
  /-- Every entry has a node with the same data, -/
  copied : ∀ e ∈ m.entries, m.recency.get? e.node = some ⟨e.key, e.value, e.hash, e.stamp⟩
  /-- every node belongs to an entry, -/
  owned : ∀ i node, m.recency.get? i = some node → ∃ e ∈ m.entries, e.node = i
  /-- and no two entries share a node. -/
  nodes : (m.entries.map (·.node)).Nodup
  linked : m.recency.order.toList.Perm (m.entries.map (·.node))
  home : ∀ b B, m.buckets[b]? = some B → ∀ e ∈ B, e.hash.toNat % m.buckets.size = b
  sizes : m.size = m.entries.length ∧ m.size = m.recency.size
  descending : (m.recency.toList.map (·.stamp)).Pairwise (· > ·)
  times : ∀ e ∈ m.entries, e.stamp ≤ e.lastAccess ∧ e.lastAccess ≤ m.clock
  distinct : EntryList.Distinct c m.toList
  /-- What is listed is what a look at a key finds. -/
  peeked : ∀ key value, (m.peek key).1 = some value ↔
    ∃ k, (k, value) ∈ m.toList ∧ c.equals k key = true

variable {c : Comparer κ} {m : LruCache κ ν} {cells uses : List (CacheEntry κ ν)}
  {e : CacheEntry κ ν}

/-- The buckets of a cache that is kept hold its entries, in some order. -/
theorem Kept.entries_perm (h : Kept c m cells uses) : m.entries.Perm uses := h.filed.perm

/-- Every entry agrees with its copy. -/
theorem Kept.get?_node (h : Kept c m cells uses) (he : e ∈ uses) :
    m.recency.get? e.node = some ⟨e.key, e.value, e.hash, e.stamp⟩ :=
  h.recency.node (copy e) (List.mem_map_of_mem (h.same.mem_iff.mp he))

/-- The order of the recency list is that of the entries' nodes. -/
theorem Kept.order_eq (h : Kept c m cells uses) :
    m.recency.order.toList = cells.map (·.node) := by
  rw [h.recency.order.toList_eq, List.map_map]
  rfl

/-- The slots of the nodes are those of the entries. -/
theorem Kept.nodes_perm (h : Kept c m cells uses) :
    (cells.map (·.node)).Perm (m.entries.map (·.node)) :=
  (h.same.symm.trans h.entries_perm.symm).map _

/-- The stamps of the recency list descend strictly, for no two entries have the same. -/
theorem Kept.descending (h : Kept c m cells uses) :
    (m.recency.toList.map (·.stamp)).Pairwise (· > ·) := by
  have happart : (cells.map (·.stamp)).Pairwise (· ≠ ·) :=
    List.pairwise_map.mpr ((h.sound.apart.perm h.same Apart.symm).imp fun hapart => hapart.1.1)
  rw [h.recency.toList_eq, List.map_map, List.map_map]
  exact (h.stamps.and happart).imp fun hpair => Nat.lt_of_le_of_ne hpair.1 hpair.2.symm

/-- Counting the entries bucket by bucket. -/
theorem foldl_size_eq (m : LruCache κ ν) :
    m.buckets.foldl (fun n entries => n + entries.size) 0 = m.entries.length := by
  have hcount (groups : List (Array (CacheEntry κ ν))) (n : Nat) :
      groups.foldl (fun n entries => n + entries.size) n =
        n + (groups.flatMap Array.toList).length := by
    induction groups generalizing n with
    | nil => rfl
    | cons group groups ih =>
        rw [List.foldl_cons, ih, List.flatMap_cons, List.length_append, ← Array.length_toList,
          Nat.add_assoc]
  rw [← Array.foldl_toList, hcount, Nat.zero_add, entries]

/-- The check that a cache makes of itself succeeds. -/
theorem Kept.consistent (hc : c.Lawful) (h : Kept c m cells uses) : m.isConsistent = true := by
  have hlength : m.entries.length = m.size := h.entries_perm.length_eq.trans h.size.symm
  have hnodes : m.recency.size = m.size := by
    rw [h.recency.size, List.length_map, h.size, h.same.length_eq]
  have horder : m.recency.order.toList.length = m.size := by
    rw [h.order_eq, List.length_map, h.size, h.same.length_eq]
  have hagree : ∀ e ∈ uses, m.agrees e = true := by
    intro e he
    simp [agrees, h.get?_node he, h.comparer, hc.refl]
  simp only [isConsistent, foldl_size_eq, hlength, hnodes, horder, beq_self_eq_true, Bool.and_true,
    Array.all_eq_true_iff_forall_mem]
  intro B hB e he
  refine hagree e (h.entries_perm.mem_iff.mp ?_)
  exact List.mem_flatMap.mpr ⟨B, hB.val, he.val⟩

/-- Every node of the recency list belongs to an entry. -/
theorem Kept.owned (h : Kept c m cells uses) {i : Nat} {node : RecencyNode κ ν}
    (hnode : m.recency.get? i = some node) : ∃ e ∈ m.entries, e.node = i := by
  have hmem := h.recency.occupied i node hnode
  rw [List.map_map] at hmem
  obtain ⟨e, he, rfl⟩ := List.mem_map.mp (h.nodes_perm.mem_iff.mp hmem)
  exact ⟨e, he, rfl⟩

/-- No two entries share a node. -/
theorem Kept.nodes_nodup (h : Kept c m cells uses) : (m.entries.map (·.node)).Nodup := by
  have hslots := h.recency.order.nodup
  rw [List.map_map] at hslots
  exact h.nodes_perm.nodup_iff.mp hslots

/-- The value seen under a key is the one listed under an equal key. -/
theorem Stands.peeked {limit : Option Nat} {s : Ideal κ ν} (hc : c.Lawful)
    (h : Stands c limit m s) (key : κ) (value : ν) : (m.peek key).1 = some value ↔
      ∃ k, (k, value) ∈ m.toList ∧ c.equals k key = true := by
  have hagrees := h.agrees
  rw [(peek_stands h hc key).1, EntryList.value?, Option.map_eq_some_iff]
  constructor
  · rintro ⟨⟨k, v⟩, hfind, rfl⟩
    obtain ⟨hmem, hkey⟩ := (hagrees.distinct.find?_eq_some_iff hc).mp hfind
    exact ⟨k, hagrees.entries.mem_iff.mpr hmem, hkey⟩
  · rintro ⟨k, hmem, hkey⟩
    have hlisted := hagrees.entries.mem_iff.mp hmem
    exact ⟨(k, value), (hagrees.distinct.find?_eq_some_iff hc).mpr ⟨hlisted, hkey⟩, rfl⟩

/-- A cache that stands for an ideal one is coherent. -/
theorem Stands.coherent {limit : Option Nat} {s : Ideal κ ν} (hc : c.Lawful)
    (h : Stands c limit m s) : Coherent c m := by
  have hagrees := h.agrees
  have hpeeked := h.peeked hc
  obtain ⟨cells, uses, hk, -⟩ := h
  have hsize : m.size = m.entries.length := hk.size.trans hk.entries_perm.length_eq.symm
  have hrecency : m.size = m.recency.size := by
    rw [hk.size, hk.recency.size, List.length_map, hk.same.length_eq]
  exact
    { consistent := hk.consistent hc
      copied := fun e he => hk.get?_node (hk.entries_perm.mem_iff.mp he)
      owned := fun i node hnode => hk.owned hnode
      nodes := hk.nodes_nodup
      linked := hk.order_eq ▸ hk.nodes_perm
      home := fun b B hB e he => hk.filed.home b B hB e he.val
      sizes := ⟨hsize, hrecency⟩
      descending := hk.descending
      times := fun e he => hk.sound.times e (hk.entries_perm.mem_iff.mp he)
      distinct := hagrees.distinct.perm hc hagrees.entries.symm
      peeked := hpeeked }

variable {o : TableOptions}

/-- Whatever is put, read, removed and evicted, the entries of a cache and their copies agree, and
no more time passes than operations are performed. -/
theorem reachable_coherent (hvalid : o.check.isOk) (hc : c.Lawful) :
    ∃ m : LruCache κ ν, withComparer o c = .ok m ∧ ∀ ops : List (Op κ ν),
      Coherent c (run step m ops).2 ∧ (run step m ops).2.clock ≤ ops.length := by
  obtain ⟨f, hvalid⟩ := exists_ok hvalid
  obtain ⟨m, hm, hstart⟩ : ∃ m : LruCache κ ν, _ := withComparer_stands hvalid c
  refine ⟨m, hm, ?_⟩
  intro ops
  obtain ⟨-, hend⟩ := run_simulates
    (fun m s op (h : Stands c o.limit? m s) => step_stands h hc (TableOptions.limit_pos hvalid) op)
    hstart ops
  obtain ⟨-, htime⟩ : _ ∧ (run (Ideal.step c o.limit?) (⟨[], 0, 0⟩ : Ideal κ ν) ops).2.clock ≤ _ :=
    Ideal.run_counts c ⟨Nat.le_refl 0, fun _ => rfl⟩ ops
  refine ⟨hend.coherent hc, ?_⟩
  rw [hend.agrees.clock]
  simpa using htime

/-- In a cache of two, an eviction moves the copy of a key that was read again behind the newest
one, and both copies of what is left agree. -/
theorem coherent_after_reposition :
    (⟨2, .fixed, 0.75, .deterministic⟩ : TableOptions).check.isOk ∧
    ∃ m : LruCache UInt64 Nat, withComparer ⟨2, .fixed, 0.75, .deterministic⟩ .natural = .ok m ∧
      (run step m [.put 1 10, .put 2 20, .get 1, .put 3 30]).2.recency.toList.map (·.stamp) =
        [4, 3] ∧
      Coherent .natural (run step m [.put 1 10, .put 2 20, .get 1, .put 3 30]).2 := by
  have hvalid : (⟨2, .fixed, 0.75, .deterministic⟩ : TableOptions).check.isOk := by decide +kernel
  obtain ⟨m, hm, hruns⟩ : ∃ m : LruCache UInt64 Nat, _ :=
    reachable_coherent hvalid Comparer.natural_lawful
  have hstamps : ((withComparer ⟨2, .fixed, 0.75, .deterministic⟩ .natural).map
      fun m : LruCache UInt64 Nat => (run step m
        [.put 1 10, .put 2 20, .get 1, .put 3 30]).2.recency.toList.map (·.stamp)) =
      .ok [4, 3] := by decide +kernel
  rw [hm] at hstamps
  exact ⟨hvalid, m, hm, Except.ok.inj hstamps, (hruns _).1⟩

end BoundedTables.LruCache
