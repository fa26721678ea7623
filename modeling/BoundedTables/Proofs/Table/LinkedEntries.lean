import BoundedTables.Proofs.Table.LinkedTable

/-!
# Linked tables as maps

What the maps over a linked table share. `Models c limit t cells evictions` says that the cells of
a table have distinct keys under its comparer, with the limit it was set up with and the number of
entries it evicted so far. A lookup splits the cells at its key (`Models.lookup`), and each change
of the table is one of the list of cells.
-/

namespace BoundedTables.Table.LinkedTable

open Hashing

variable {κ ν : Type}

/-- The cells of a table are those of a map with distinct keys. -/
structure Models (c : Comparer κ) (limit : Option Nat) (t : LinkedTable κ ν)
    (cells : List (Cell κ ν)) (evictions : Nat) : Prop where
  spells : t.Spells cells
  comparer : t.hasher.comparer = c
  limit : t.limit? = limit
  distinct : EntryList.Distinct c (cells.map (·.2))
  evictions : t.evictions = evictions

variable {c : Comparer κ} {limit : Option Nat} {t t' : LinkedTable κ ν}
  {cells cells' before after : List (Cell κ ν)} {evictions : Nat} {i : Nat} {e : κ × ν} {key : κ}

/-- A table that was set up alike with other cells. -/
theorem Models.next (h : Models c limit t cells evictions) (hs : t.SameSetup t')
    (hcells : t'.Spells cells') (hd : EntryList.Distinct c (cells'.map (·.2))) :
    Models c limit t' cells' evictions :=
  ⟨hcells, hs.comparer.trans h.comparer, hs.limit?_eq.trans h.limit, hd,
    hs.evictions.trans h.evictions⟩

/-- A table whose contents cannot be told apart models the same map. -/
theorem Models.same (h : Models c limit t cells evictions) (hs : t.SameContents t') :
    Models c limit t' cells evictions :=
  h.next hs.toSameSetup (hs.spells h.spells) h.distinct

/-- A new table has no cells. -/
theorem build_models (o : TableOptions) (f : Sizing.LoadFactor) (hasher : KeyHasher κ)
    (journal : Journal) :
    Models hasher.comparer o.limit? (build o f hasher journal : LinkedTable κ ν) [] 0 :=
  ⟨empty_spells rfl (ChainIndex.withBuckets_partition _) rfl, rfl, rfl, List.Pairwise.nil, rfl⟩

/-- A new table models the map without entries, under the comparer of its policy. -/
theorem new_models [ByteHash] [ByteKey κ] [DecidableEq κ] {o : TableOptions} {seed : Seed}
    (h : new o seed = .ok t) :
    Models (KeyHasher.ofPolicy o.hashing seed).comparer o.limit? t [] 0 := by
  obtain ⟨f, -, h⟩ := exists_ok_of_bind h
  cases h
  exact build_models o f (.ofPolicy o.hashing seed) .empty

/-- The cells without one of them still have distinct keys. -/
theorem Models.distinct_rest (h : Models c limit t (before ++ (i, e) :: after) evictions) :
    EntryList.Distinct c ((before ++ after).map (·.2)) := by
  exact h.distinct.sublist (((List.sublist_cons_self (i, e) after).append_left before).map _)

/-- A lookup splits the cells at the key, or tells that it is absent. -/
theorem Models.lookup (h : Models c limit t cells evictions) (hc : c.Lawful) (key : κ) :
    (∃ t', t.lookup key = (none, t') ∧ Models c limit t' cells evictions ∧
      EntryList.Absent c key (cells.map (·.2))) ∨
    ∃ (before : List (Cell κ ν)) (i : Nat) (e : κ × ν) (after : List (Cell κ ν))
      (t' : LinkedTable κ ν), t.lookup key = (some i, t') ∧
      Models c limit t' (before ++ (i, e) :: after) evictions ∧
      cells = before ++ (i, e) :: after ∧
      EntryList.Split c key (cells.map (·.2)) (before.map (·.2)) e (after.map (·.2)) := by
  have hcomparer := h.comparer
  subst hcomparer
  rcases h.spells.lookup hc h.distinct key with ⟨t', hl, hs, habsent⟩ |
    ⟨before, i, e, after, t', hl, hs, rfl, hsplit⟩
  · exact .inl ⟨t', hl, h.same hs, habsent⟩
  · exact .inr ⟨before, i, e, after, t', hl, h.same hs, rfl, hsplit⟩

/-- The entry behind a cell, as the table reads it. -/
theorem Models.entry?_eq (h : Models c limit t (before ++ (i, e) :: after) evictions) :
    t.entry? i = some e :=
  h.spells.entry (i, e) (by simp)

/-- The cells after a cell was taken out. -/
theorem Models.detach (h : Models c limit t (before ++ (i, e) :: after) evictions) :
    ∃ node t', t.detach i = (some node, t') ∧ e = (node.key, node.value) ∧
      Models c limit t' (before ++ after) evictions := by
  obtain ⟨node, t', hdetach, he, hsetup, hspells⟩ := h.spells.detach
  exact ⟨node, t', hdetach, he, h.next hsetup hspells h.distinct_rest⟩

/-- The cells after a cell moved to an end. -/
theorem Models.moveTo (h : Models c limit t (before ++ (i, e) :: after) evictions)
    (hc : c.Lawful) (side : End) :
    Models c limit (t.moveTo i side) (side.place (i, e) (before ++ after)) evictions := by
  refine h.next (moveTo_sameSetup t i side) (h.spells.moveTo side) ?_
  refine h.distinct.perm hc (List.Perm.map _ ?_)
  exact List.perm_middle.trans (side.place_perm _ _).symm

/-- The cells after a value was changed. -/
theorem Models.modifyValue (h : Models c limit t (before ++ (i, e) :: after) evictions)
    (f : ν → ν) :
    Models c limit (t.modifyValue i f) (before ++ (i, (e.1, f e.2)) :: after) evictions := by
  refine h.next (modifyValue_sameSetup t i f) (h.spells.modifyValue f) ?_
  have hd := h.distinct
  rw [EntryList.distinct_iff] at hd ⊢
  simpa using hd

/-- A table is full exactly when the limit is reached. -/
theorem Models.isFull_eq (h : Models c limit t cells evictions) :
    t.isFull = limit.any (· ≤ cells.length) := by
  rw [LinkedTable.isFull_eq, h.limit, h.spells.size_eq]

/-- A full table drops the entry at an end to make room. -/
theorem Models.evict (h : Models c limit t cells evictions) (hlimit : ∀ n ∈ limit, 0 < n)
    (hfull : limit.any (· ≤ cells.length) = true) (side : End) :
    ∃ (i : Nat) (e : κ × ν) (rest : List (Cell κ ν)) (node : LinkedNode κ ν)
      (t' : LinkedTable κ ν), cells = side.place (i, e) rest ∧ e = (node.key, node.value) ∧
      t.evict side = (some node, t') ∧ Models c limit t' rest (evictions + 1) := by
  have hne : cells ≠ [] := by
    rintro rfl
    cases limit with
    | none => cases hfull
    | some n =>
        have hpos := hlimit n rfl
        have hzero : n ≤ 0 := by simpa using hfull
        omega
  obtain ⟨⟨i, e⟩, rest, rfl⟩ := side.exists_place hne
  obtain ⟨node, t', hevict, he, hsetup, hspells⟩ := h.spells.evict
  refine ⟨i, e, rest, node, t', rfl, he, hevict, hspells, hsetup.comparer.trans h.comparer,
    hsetup.limit?_eq.trans h.limit, h.distinct.sublist ((side.sublist_place _ _).map _), ?_⟩
  exact hsetup.evictions.trans (congrArg (· + 1) h.evictions)

/-- Attaching a new key adds its cell at the chosen end. -/
theorem Models.attach (h : Models c limit t cells evictions) (hc : c.Lawful)
    (hkey : EntryList.Absent c key (cells.map (·.2))) (value : ν) (side : End) :
    ∃ i, Models c limit (t.attach key value (c.code key) side)
      (side.place (i, (key, value)) cells) evictions := by
  obtain ⟨i, hspells⟩ := h.spells.attach key value side
  rw [KeyHasher.hash, h.comparer] at hspells
  refine ⟨i, h.next (attach_sameSetup ..) hspells ?_⟩
  rw [End.map_place]
  exact (h.distinct.cons hc hkey value).perm hc (side.place_perm _ _).symm

end BoundedTables.Table.LinkedTable
