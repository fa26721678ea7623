import BoundedTables.LruCache

/-!
# The entries in the buckets of a cache

`Filed buckets entries` says that the buckets hold exactly some entries, each in the bucket of its
hash. Nothing is said about the order inside a bucket, so that taking an entry out by putting the
last one in its place is as good as any other way.
-/

namespace BoundedTables.LruCache

variable {κ ν : Type}

/-! ## Arrays as lists -/

section Arrays

variable {α : Type} {xs : Array α} {i : Nat} {x : α}

/-- The list behind an array splits at each of its elements. -/
theorem exists_split_of_getElem? (h : xs[i]? = some x) :
    ∃ front back, xs.toList = front ++ x :: back ∧ front.length = i := by
  obtain ⟨hi, rfl⟩ := Array.getElem?_eq_some_iff.mp h
  refine ⟨xs.toList.take i, xs.toList.drop (i + 1), ?_, by simp; omega⟩
  rw [← Array.getElem_toList, ← List.drop_eq_getElem_cons (by simpa using hi),
    List.take_append_drop]

/-- Modifying the element between two parts of an array leaves the parts alone. -/
theorem modify_toList {front back : List α} (h : xs.toList = front ++ x :: back)
    (f : α → α) : (xs.modify front.length f).toList = front ++ f x :: back := by
  rw [Array.toList_modify, h]
  clear h
  induction front with
  | nil => rfl
  | cons y front ih => exact congrArg (y :: ·) ih

/-- Putting the last element in the place of another one takes that one out. -/
theorem swapRemove_perm {entries : Array (CacheEntry κ ν)} {e : CacheEntry κ ν}
    (h : entries[i]? = some e) : (e :: (swapRemove entries i).toList).Perm entries.toList := by
  obtain ⟨hi, rfl⟩ := Array.getElem?_eq_some_iff.mp h
  have hlast : entries.size - 1 < entries.size := by omega
  have hswap : (entries.swap i (entries.size - 1)).Perm entries := Array.swap_perm hi hlast
  have heq : entries.swapIfInBounds i (entries.size - 1) = entries.swap i (entries.size - 1) := by
    simp [Array.swapIfInBounds, hi, hlast]
  rw [swapRemove, heq]
  have hne : (entries.swap i (entries.size - 1)).toList ≠ [] := by
    rw [ne_eq, ← List.length_eq_zero_iff, Array.length_toList, Array.size_swap]
    omega
  have hback : (entries.swap i (entries.size - 1)).toList.getLast hne = entries[i] := by
    rw [List.getLast_eq_getElem]
    simp
  have hsplit := List.dropLast_concat_getLast hne
  rw [hback] at hsplit
  rw [Array.toList_pop]
  refine List.Perm.trans ?_ (Array.perm_iff_toList_perm.mp hswap)
  exact (List.perm_append_singleton _ _).symm.trans (.of_eq hsplit)

end Arrays

/-! ## Filed entries -/

/-- The buckets hold exactly some entries, each in the bucket of its hash. -/
structure Filed (buckets : Array (Array (CacheEntry κ ν))) (entries : List (CacheEntry κ ν)) :
    Prop where
  positive : 0 < buckets.size
  perm : (buckets.toList.flatMap Array.toList).Perm entries
  home : ∀ b B, buckets[b]? = some B → ∀ e ∈ B.toList, bucketOf buckets.size e.hash = b

variable {buckets : Array (Array (CacheEntry κ ν))} {entries entries' before after :
  List (CacheEntry κ ν)} {e : CacheEntry κ ν} {m : LruCache κ ν} {hash : UInt32} {i : Nat}

/-- Filed entries are filed in any order. -/
theorem Filed.of_perm (h : Filed buckets entries) (hp : entries.Perm entries') :
    Filed buckets entries' :=
  ⟨h.positive, h.perm.trans hp, h.home⟩

/-- Empty buckets have no entries filed in them. -/
theorem replicate_filed {count : Nat} (h : 0 < count) :
    Filed (Array.replicate count (#[] : Array (CacheEntry κ ν))) [] where
  positive := by simpa using h
  perm := by simp
  home b B hB e he := by
    obtain ⟨_, rfl⟩ := Array.getElem?_eq_some_iff.mp hB
    simp at he

/-- Changing one bucket changes the entries that were in it. -/
theorem Filed.change {b : Nat} {B : Array (CacheEntry κ ν)} (h : Filed buckets entries)
    (hB : buckets[b]? = some B) {f : Array (CacheEntry κ ν) → Array (CacheEntry κ ν)}
    (hperm : ∀ rest, (B.toList ++ rest).Perm entries → ((f B).toList ++ rest).Perm entries')
    (hhome : ∀ e ∈ (f B).toList, bucketOf buckets.size e.hash = b) :
    Filed (buckets.modify b f) entries' := by
  obtain ⟨front, back, hsplit, hlength⟩ := exists_split_of_getElem? hB
  refine ⟨by simpa using h.positive, ?_, fun b' B' hB' e he => ?_⟩
  · have hold := h.perm
    rw [hsplit, List.flatMap_append, List.flatMap_cons] at hold
    rw [← hlength, modify_toList hsplit, List.flatMap_append, List.flatMap_cons]
    refine (List.perm_append_comm_assoc ..).trans (hperm _ ?_)
    exact (List.perm_append_comm_assoc ..).trans hold
  · rw [Array.size_modify]
    rw [Array.getElem?_modify] at hB'
    split at hB'
    · rename_i hb
      subst hb
      rw [hB, Option.map_some, Option.some.injEq] at hB'
      exact hhome e (hB' ▸ he)
    · exact h.home b' B' hB' e he

/-- The bucket of a hash is the one at its index. -/
theorem Filed.bucket_eq (h : Filed m.buckets entries) (hash : UInt32) :
    m.buckets[bucketOf m.buckets.size hash]? = some (m.bucket hash) := by
  have hlt : bucketOf m.buckets.size hash < m.buckets.size := Nat.mod_lt _ h.positive
  simp [bucket, Array.getD, hlt]

/-- Modifying the bucket of a hash modifies the one at its index. -/
theorem modifyBucket_buckets (m : LruCache κ ν) (hash : UInt32)
    (f : Array (CacheEntry κ ν) → Array (CacheEntry κ ν)) :
    (m.modifyBucket hash f).buckets = m.buckets.modify (bucketOf m.buckets.size hash) f := rfl

/-- A search in the bucket of a hash finds an entry, or none with this hash will do. -/
theorem Filed.findIdx? (h : Filed m.buckets entries) (hash : UInt32) (p : CacheEntry κ ν → Bool) :
    (∃ i e before after, (m.bucket hash).findIdx? p = some i ∧ (m.bucket hash)[i]? = some e ∧
      p e = true ∧ bucketOf m.buckets.size e.hash = bucketOf m.buckets.size hash ∧
      entries = before ++ e :: after) ∨
    ((m.bucket hash).findIdx? p = none ∧ ∀ e ∈ entries, e.hash = hash → p e = false) := by
  have hbucket := h.bucket_eq hash
  cases hfind : (m.bucket hash).findIdx? p with
  | some i =>
      obtain ⟨hi, hp, _⟩ := Array.findIdx?_eq_some_iff_getElem.mp hfind
      have hmem : (m.bucket hash)[i] ∈ m.buckets.toList.flatMap Array.toList :=
        List.mem_flatMap.mpr ⟨m.bucket hash, by
          simpa using Array.mem_of_getElem? hbucket, by simp⟩
      obtain ⟨before, after, hsplit⟩ := List.append_of_mem (h.perm.mem_iff.mp hmem)
      exact .inl ⟨i, _, before, after, rfl, Array.getElem?_eq_getElem hi, hp,
        h.home _ _ hbucket _ (by simp), hsplit⟩
  | none =>
      refine .inr ⟨rfl, fun e he hhash => ?_⟩
      obtain ⟨B, hB, heB⟩ := List.mem_flatMap.mp (h.perm.mem_iff.mpr he)
      obtain ⟨b, hb⟩ := Array.mem_iff_getElem?.mp (Array.mem_toList_iff.mp hB)
      have hhome := h.home b B hb e heB
      rw [hhash] at hhome
      rw [← hhome, hbucket, Option.some.injEq] at hb
      exact Array.findIdx?_eq_none_iff.mp hfind e (by simpa [hb] using heB)

/-- Adding an entry to the bucket of its hash. -/
theorem Filed.push (h : Filed buckets entries) (e : CacheEntry κ ν) :
    Filed (distribute buckets e) (e :: entries) := by
  have hlt : bucketOf buckets.size e.hash < buckets.size := Nat.mod_lt _ h.positive
  have hB := Array.getElem?_eq_getElem hlt
  refine h.change hB (fun rest hrest => ?_) fun e' he' => ?_
  · rw [Array.toList_push, List.append_assoc, List.singleton_append]
    exact List.perm_middle.trans (hrest.cons e)
  · rw [Array.toList_push] at he'
    rcases List.mem_append.mp he' with he' | he'
    · exact h.home _ _ hB e' he'
    · rw [List.mem_singleton.mp he']

/-- Changing an entry in its bucket without its hash. -/
theorem Filed.modify (h : Filed m.buckets (before ++ e :: after))
    (hi : (m.bucket hash)[i]? = some e) {f : CacheEntry κ ν → CacheEntry κ ν}
    (hf : (f e).hash = e.hash) :
    Filed (m.modifyBucket hash fun entries => entries.modify i f).buckets
      (before ++ f e :: after) := by
  have hB := h.bucket_eq hash
  obtain ⟨front, back, hsplit, rfl⟩ := exists_split_of_getElem? hi
  rw [modifyBucket_buckets]
  refine h.change hB (fun rest hrest => ?_) fun e' he' => ?_
  · rw [modify_toList hsplit]
    rw [hsplit] at hrest
    simp only [List.append_assoc, List.cons_append] at hrest ⊢
    have hothers := (List.perm_middle.symm.trans hrest).trans List.perm_middle
    exact List.perm_middle.trans
      ((List.Perm.cons (f e) hothers.cons_inv).trans List.perm_middle.symm)
  · have hhome := h.home _ _ hB
    rw [modify_toList hsplit] at he'
    rw [hsplit] at hhome
    rcases List.mem_append.mp he' with he' | he'
    · exact hhome e' (by simp [he'])
    · rcases List.mem_cons.mp he' with rfl | he'
      · rw [hf]
        exact hhome e (by simp)
      · exact hhome e' (by simp [he'])

/-- Taking an entry out of its bucket. -/
theorem Filed.remove (h : Filed m.buckets (before ++ e :: after))
    (hi : (m.bucket hash)[i]? = some e) :
    Filed (m.modifyBucket hash fun entries => swapRemove entries i).buckets (before ++ after) := by
  have hB := h.bucket_eq hash
  have hremove := swapRemove_perm hi
  rw [modifyBucket_buckets]
  refine h.change hB (fun rest hrest => ?_) fun e' he' => ?_
  · have hwith := ((hremove.append_right rest).trans hrest).trans List.perm_middle
    exact hwith.cons_inv
  · exact h.home _ _ hB e' (hremove.mem_iff.mp (List.mem_cons_of_mem e he'))

/-! ## Growing -/

/-- Distributing more entries files them beside those already there. -/
theorem foldl_distribute_filed (h : Filed buckets entries) (more : List (CacheEntry κ ν)) :
    Filed (more.foldl distribute buckets) (more ++ entries) := by
  induction more generalizing buckets entries with
  | nil => exact h
  | cons e more ih => exact (ih (h.push e)).of_perm List.perm_middle

/-- Distributing the entries of all buckets over fresh ones. -/
theorem regroup_filed {count : Nat} (h : Filed buckets entries) (hcount : 0 < count) :
    Filed (buckets.foldl (fun fresh entries => entries.foldl distribute fresh)
      (Array.replicate count #[])) entries := by
  have hall (groups : List (Array (CacheEntry κ ν))) {fresh : Array (Array (CacheEntry κ ν))}
      {entries : List (CacheEntry κ ν)} (hfresh : Filed fresh entries) :
      Filed (groups.foldl (fun fresh entries => entries.foldl distribute fresh) fresh)
        (groups.flatMap Array.toList ++ entries) := by
    induction groups generalizing fresh entries with
    | nil => exact hfresh
    | cons group groups ih =>
        have hgroup := foldl_distribute_filed hfresh group.toList
        rw [Array.foldl_toList] at hgroup
        refine (ih hgroup).of_perm ?_
        rw [List.flatMap_cons, List.append_assoc]
        exact List.perm_append_comm_assoc ..
  have hregrouped := hall buckets.toList (replicate_filed hcount)
  rw [Array.foldl_toList, List.append_nil] at hregrouped
  exact hregrouped.of_perm h.perm

end BoundedTables.LruCache
