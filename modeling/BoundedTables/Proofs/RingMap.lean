import BoundedTables.Proofs.EntryList
import BoundedTables.Proofs.RingMap.Slots
import BoundedTables.Proofs.Run
import BoundedTables.Proofs.Table.Options

/-!
# Ring maps refine a list ordered by age

`RingMap.Ideal` is a list of entries with stamps, oldest first, together with the length of the
ring, the time and the number of entries dropped so far. A map answers every sequence of operations
as this list does, whatever holes, turns and packings its ring goes through (`refines_aged`), and
the only insertion that is refused is one into a full dynamic ring that is too long to double
(`Stands.insert_error`).
-/

namespace BoundedTables.RingMap

open Hashing Table

variable {κ ν : Type}

/-- The operations of a ring map. -/
inductive Op (κ ν : Type) where
  | insert (key : κ) (value : ν)
  | remove (key : κ)
  | get (key : κ)
  | require (key : κ)
  | modify (key : κ) (f : ν → ν)
  | containsKey (key : κ)
  | timestamp (key : κ)
  | oldest
  | newest
  | popOldest
  | clear

/-- The answers of a ring map. -/
inductive Reply (κ ν : Type) where
  | inserted (previous : Except TableError (Option ν))
  | value (v : Option ν)
  | demanded (v : Except TableError ν)
  | present (b : Bool)
  | stamp (t : Option Nat)
  | entry (e : Except TableError (κ × ν))
  | done

/-- Perform one operation. -/
def step (m : RingMap κ ν) : Op κ ν → Reply κ ν × RingMap κ ν
  | .insert key value => (m.insert key value).map .inserted id
  | .remove key => (m.remove key).map .value id
  | .get key => (m.get key).map .value id
  | .require key => (m.require key).map .demanded id
  | .modify key f => (m.modify key f).map .value id
  | .containsKey key => (m.containsKey key).map .present id
  | .timestamp key => (m.timestamp key).map .stamp id
  | .oldest => (.entry m.oldest, m)
  | .newest => (.entry m.newest, m)
  | .popOldest => m.popOldest.map .entry id
  | .clear => (.done, m.clear)

/-! ## The ideal map -/

/-- The entries with their stamps, oldest first, the length of the ring, the time, and how many
entries were dropped to make room. -/
structure Ideal (κ ν : Type) where
  entries : List (κ × (ν × Nat))
  room : Nat
  clock : Nat
  evictions : Nat

namespace Ideal

/-- Drop the oldest entry of a full fixed map, and double a full dynamic one. -/
def makeRoom (mode : CapacityMode) (s : Ideal κ ν) : Except TableError (Ideal κ ν) :=
  if s.entries.length < s.room then .ok s
  else
    match mode with
    | .fixed => .ok { s with entries := s.entries.tail, evictions := s.evictions + 1 }
    | .dynamic =>
        if 2 * s.room ≤ Binary64.maxWord then .ok { s with room := 2 * s.room }
        else .error (.capacityExhausted s.room)

/-- Update a present key in place, or append a new one after making room. -/
def insert (c : Comparer κ) (mode : CapacityMode) (s : Ideal κ ν) (key : κ) (value : ν) :
    Except TableError (Option ν) × Ideal κ ν :=
  match EntryList.value? c key s.entries with
  | some old =>
      (.ok (some old.1),
        { s with
          entries := EntryList.modify c key (fun _ => (value, s.clock + 1)) s.entries
          clock := s.clock + 1 })
  | none =>
      match s.makeRoom mode with
      | .error e => (.error e, s)
      | .ok s =>
          (.ok none,
            { s with
              entries := s.entries ++ [(key, (value, s.clock + 1))]
              clock := s.clock + 1 })

/-- The value of a key. -/
def get (c : Comparer κ) (s : Ideal κ ν) (key : κ) : Option ν :=
  (EntryList.value? c key s.entries).map (·.1)

/-- The value of a key, or an error. -/
def require (c : Comparer κ) (s : Ideal κ ν) (key : κ) : Except TableError ν :=
  match s.get c key with
  | some v => .ok v
  | none => .error .keyNotFound

/-- An entry without its stamp, or an error. -/
def entry (e : Option (κ × (ν × Nat))) : Except TableError (κ × ν) :=
  match e with
  | some (key, value, _) => .ok (key, value)
  | none => .error .empty

/-- Perform one operation, under a comparer and in a mode. -/
def step (c : Comparer κ) (mode : CapacityMode) (s : Ideal κ ν) :
    Op κ ν → Reply κ ν × Ideal κ ν
  | .insert key value => (s.insert c mode key value).map .inserted id
  | .remove key =>
      (.value (s.get c key), { s with entries := EntryList.erase c key s.entries })
  | .get key => (.value (s.get c key), s)
  | .require key => (.demanded (s.require c key), s)
  | .modify key f =>
      (.value ((s.get c key).map f),
        { s with
          entries := EntryList.modify c key (fun (value, stamp) => (f value, stamp)) s.entries })
  | .containsKey key => (.present (s.get c key).isSome, s)
  | .timestamp key => (.stamp ((EntryList.value? c key s.entries).map (·.2)), s)
  | .oldest => (.entry (entry s.entries.head?), s)
  | .newest => (.entry (entry s.entries.getLast?), s)
  | .popOldest => (.entry (entry s.entries.head?), { s with entries := s.entries.tail })
  | .clear => (.done, { s with entries := [] })

end Ideal

/-! ## The relation -/

/-- What a cell holds. -/
def Cell.aged (cell : Cell κ ν) : κ × (ν × Nat) := (cell.2.key, (cell.2.value, cell.2.stamp))

/-- The cells of a map hold distinct keys, each under its hash. -/
structure Models (c : Comparer κ) (mode : CapacityMode) (m : RingMap κ ν)
    (cells : List (Cell κ ν)) : Prop where
  laid : m.Laid cells
  hashed : ∀ cell ∈ cells, cell.2.hash = c.code cell.2.key
  comparer : m.hasher.comparer = c
  mode : m.mode = mode
  distinct : EntryList.Distinct c (cells.map Cell.aged)

/-- The ideal map that a map with some cells stands for. -/
def ideal (m : RingMap κ ν) (cells : List (Cell κ ν)) : Ideal κ ν :=
  ⟨cells.map Cell.aged, m.ring.size, m.clock, m.evictions⟩

/-- A map stands for an ideal map. -/
def Stands (c : Comparer κ) (mode : CapacityMode) (m : RingMap κ ν) (s : Ideal κ ν) : Prop :=
  ∃ cells, Models c mode m cells ∧ s = m.ideal cells

variable {c : Comparer κ} {mode : CapacityMode} {m m' : RingMap κ ν} {s : Ideal κ ν} {p : Nat}
  {cells cells' before after : List (Cell κ ν)} {node : RingNode κ ν} {key : κ}

/-- A map laid out alike, with the same comparer and mode, has the same cells. -/
theorem Models.relabel (h : Models c mode m cells) (hs : m.SameLayout m')
    (hcomparer : m'.hasher.comparer = m.hasher.comparer) (hmode : m'.mode = m.mode) :
    Models c mode m' cells :=
  ⟨hs.laid h.laid, h.hashed, hcomparer.trans h.comparer, hmode.trans h.mode, h.distinct⟩

/-- A lookup splits the entries at the key, or tells that it is absent. -/
theorem Models.lookup (h : Models c mode m cells) (hc : c.Lawful) (key : κ) :
    (∃ m', m.lookup key = (none, m') ∧ Models c mode m' cells ∧ m'.ideal cells = m.ideal cells ∧
      EntryList.Absent c key (cells.map Cell.aged)) ∨
    ∃ before p node after m', m.lookup key = (some (p % m'.ring.size), m') ∧
      cells = before ++ (p, node) :: after ∧ Models c mode m' (before ++ (p, node) :: after) ∧
      m'.ideal cells = m.ideal cells ∧
      EntryList.Split c key (cells.map Cell.aged) (before.map Cell.aged)
        (Cell.aged (p, node)) (after.map Cell.aged) := by
  have hnodes : ∀ i node, m.node? i = some node → node.hash = c.code node.key :=
    fun i node hnode => by
      obtain ⟨cell, hcell, rfl⟩ := h.laid.covered i node hnode
      rw [h.laid.node cell hcell, Option.some.injEq] at hnode
      exact hnode ▸ h.hashed cell hcell
  have hcodes : ∀ i, (m.node? i).map (·.hash) = ((m.node? i).map (·.key)).map c.code := fun i => by
    cases hnode : m.node? i with
    | none => rfl
    | some node => exact congrArg some (hnodes i node hnode)
  have hholds : ∀ i k, (m.node? i).map (·.key) = some k →
      m.holds key (c.code key) i = (decide (c.code k = c.code key) && c.equals k key) :=
    fun i k hk => by
      obtain ⟨node, hnode, rfl⟩ := Option.map_eq_some_iff.mp hk
      simp only [holds, hnode, hnodes i node hnode, h.comparer]
  have hnext : Models c mode (m.find key (c.code key)).2 cells :=
    h.relabel (find_sameLayout ..) (find_sameSetup ..).comparer rfl
  have hlookup : m.lookup key = m.find key (c.code key) := by
    rw [RingMap.lookup, KeyHasher.hash, h.comparer]
  rcases h.laid.index.find_key hc hcodes hholds with ⟨i, k, hfind, hk, hkey⟩ | ⟨hfind, hkeys⟩
  · obtain ⟨node, hnode, rfl⟩ := Option.map_eq_some_iff.mp hk
    obtain ⟨before, p, after, rfl, rfl⟩ := h.laid.exists_cell hnode
    refine .inr ⟨before, p, node, after, (m.find key (c.code key)).2,
      hlookup.trans (Prod.ext hfind rfl), rfl, hnext, rfl, ?_⟩
    have hd := h.distinct
    rw [List.map_append, List.map_cons] at hd ⊢
    exact hd.split hc hkey
  · refine .inl ⟨_, hlookup.trans (Prod.ext hfind rfl), hnext, rfl, fun e he => ?_⟩
    obtain ⟨cell, hcell, rfl⟩ := List.mem_map.mp he
    exact hkeys (cell.1 % m.ring.size) cell.2.key (by rw [h.laid.node cell hcell, Option.map_some])

/-- Two maps that were set up alike stand for the same ideal map with the same cells. -/
theorem ideal_eq (cells : List (Cell κ ν)) (hs : m.SameSetup m')
    (hring : m'.ring.size = m.ring.size) : m'.ideal cells = m.ideal cells := by
  rw [ideal, hs.clock, hs.evictions, hring, ideal]

/-- Changing a node without its key and its hash. -/
theorem Models.change (h : Models c mode m (before ++ (p, node) :: after))
    {f : RingNode κ ν → RingNode κ ν} (hkey : (f node).key = node.key)
    (hhash : (f node).hash = node.hash) :
    Models c mode (m.change (p % m.ring.size) f) (before ++ (p, f node) :: after) where
  laid := change_laid h.laid hhash
  hashed cell hcell := by
    rcases List.mem_cons.mp (List.perm_middle.mem_iff.mp hcell) with rfl | hcell
    · rw [hhash, hkey]
      exact h.hashed (p, node) (by simp)
    · exact h.hashed cell (List.perm_middle.mem_iff.mpr (List.mem_cons_of_mem _ hcell))
  comparer := h.comparer
  mode := h.mode
  distinct := by
    have hd := h.distinct
    rw [EntryList.distinct_iff] at hd ⊢
    simpa [Cell.aged, hkey] using hd

/-- A map with fewer cells. -/
theorem Models.sublist (h : Models c mode m cells) (hlaid : m'.Laid cells')
    (hsub : cells'.Sublist cells) (hcomparer : m'.hasher.comparer = m.hasher.comparer)
    (hmode : m'.mode = m.mode) : Models c mode m' cells' where
  laid := hlaid
  hashed cell hcell := h.hashed cell (hsub.subset hcell)
  comparer := hcomparer.trans h.comparer
  mode := hmode.trans h.mode
  distinct := h.distinct.sublist (hsub.map _)

/-- Removing a cell. -/
theorem Models.removeAt (h : Models c mode m (before ++ (p, node) :: after)) :
    ∃ m', m.removeAt (p % m.ring.size) = (some node, m') ∧ Models c mode m' (before ++ after) ∧
      m.SameSetup m' ∧ m'.ring.size = m.ring.size := by
  obtain ⟨m', hremove, hlaid, hsetup, hring⟩ := removeAt_laid h.laid
  have hsub := (List.sublist_cons_self (p, node) after).append_left before
  exact ⟨m', hremove, h.sublist hlaid hsub hsetup.comparer hsetup.mode, hsetup, hring⟩

/-- Cells with the same nodes hold the same entries. -/
theorem aged_eq (hnodes : cells'.map (·.2) = cells.map (·.2)) :
    cells'.map Cell.aged = cells.map Cell.aged := by
  have hmap := congrArg (List.map fun node : RingNode κ ν => (node.key, (node.value, node.stamp)))
    hnodes
  rw [List.map_map, List.map_map] at hmap
  exact hmap

/-- A map with other cells for the same entries. -/
theorem Models.moved (h : Models c mode m cells) (hs : m.SameSetup m') (hlaid : m'.Laid cells')
    (hnodes : cells'.map (·.2) = cells.map (·.2)) : Models c mode m' cells' := by
  refine ⟨hlaid, fun cell hcell => ?_, hs.comparer.trans h.comparer, hs.mode.trans h.mode, ?_⟩
  · have hmem : cell.2 ∈ cells.map (·.2) := hnodes ▸ List.mem_map_of_mem hcell
    obtain ⟨old, hold, heq⟩ := List.mem_map.mp hmem
    rw [← heq]
    exact h.hashed old hold
  · rw [aged_eq hnodes]
    exact h.distinct

/-- Evicting removes the first cell and counts it. -/
theorem Models.evictOldest (h : Models c mode m ((p, node) :: after)) :
    Models c mode m.evictOldest after ∧ m.evictOldest.ring.size = m.ring.size ∧
      m.evictOldest.ideal after = { m.ideal after with evictions := m.evictions + 1 } := by
  obtain ⟨hlaid, hsetup, hring⟩ := evictOldest_laid h.laid
  refine ⟨h.sublist hlaid (List.sublist_cons_self _ _) hsetup.comparer hsetup.mode, hring, ?_⟩
  simp only [ideal, hring, hsetup.clock, hsetup.evictions]

/-- Growing keeps the entries and doubles the ring. -/
theorem Models.grow (h : Models c mode m cells) (hfits : 2 * m.ring.size ≤ Binary64.maxWord) :
    ∃ m' cells', m.grow = .ok m' ∧ Models c mode m' cells' ∧ cells'.length = cells.length ∧
      m'.ring.size = 2 * m.ring.size ∧
      m'.ideal cells' = { m.ideal cells with room := 2 * m.ring.size } := by
  obtain ⟨m', hgrow, hlaid, hsetup, hring⟩ := grow_laid h.laid hfits
  have hnodes := packed_nodes (cells.map (·.2))
  refine ⟨m', _, hgrow, h.moved hsetup hlaid hnodes, by simp, hring, ?_⟩
  rw [ideal, aged_eq hnodes, hsetup.clock, hsetup.evictions, hring, ideal]

/-- Making room answers as the ideal map does, and leaves room when it succeeds. -/
theorem Models.reserveOne (h : Models c mode m cells) :
    (∃ e, (m.ideal cells).makeRoom mode = .error e ∧ m.reserveOne = (.error e, m)) ∨
    ∃ m' cells', (m.ideal cells).makeRoom mode = .ok (m'.ideal cells') ∧
      m.reserveOne = (.ok (), m') ∧ Models c mode m' cells' ∧ cells'.length < m'.ring.size ∧
      (cells'.map Cell.aged).Sublist (cells.map Cell.aged) := by
  have hroom := h.laid.room
  have hle := h.laid.length_le
  have hmode := h.mode
  subst hmode
  rcases h.laid.reserveOne_cases with ⟨hfree, hreserve⟩ | ⟨hfull, ⟨hmode, hreserve, first, rest,
    rfl⟩ | ⟨hmode, hfits, m', hgrow, hreserve⟩ | ⟨hmode, hfits, hreserve⟩⟩
  · refine .inr ⟨m, cells, ?_, hreserve, h, hfree, List.Sublist.refl _⟩
    simp [Ideal.makeRoom, ideal, hfree]
  · obtain ⟨hmodels, hring, hideal⟩ := h.evictOldest
    refine .inr ⟨m.evictOldest, rest, ?_, hreserve, hmodels, ?_, List.sublist_cons_self _ _⟩
    · rw [hideal]
      simp only [Ideal.makeRoom, ideal, List.length_map, hfull, ↓reduceIte, hmode]
      rfl
    · rw [hring]
      exact hle
  · obtain ⟨m₁, cells', hgrow', hmodels, hlength, hring, hideal⟩ := h.grow hfits
    cases hgrow.symm.trans hgrow'
    refine .inr ⟨m', cells', ?_, hreserve, hmodels, ?_, ?_⟩
    · rw [hideal]
      simp only [Ideal.makeRoom, ideal, List.length_map, hfull, ↓reduceIte, hfits, hmode]
    · rw [hlength, hring]
      omega
    · have haged := congrArg Ideal.entries hideal
      rw [show cells'.map Cell.aged = cells.map Cell.aged from haged]
  · refine .inl ⟨.capacityExhausted m.ring.size, ?_, hreserve⟩
    simp only [Ideal.makeRoom, ideal, List.length_map, hfull, ↓reduceIte, hfits, hmode]

/-- A ring with room takes a new key behind its newest entry. -/
theorem Models.append (h : Models c mode m cells) (hc : c.Lawful)
    (hfree : cells.length < m.ring.size)
    (hkey : EntryList.Absent c key (cells.map Cell.aged)) (value : ν) :
    ∃ i m' m'' cells'', m.claimSlot = .ok (i, m') ∧ m'.occupy i key value (c.code key) = m'' ∧
      Models c mode m'' cells'' ∧
      m''.ideal cells'' = ⟨cells.map Cell.aged ++ [(key, (value, m.clock + 1))], m.ring.size,
        m.clock + 1, m.evictions⟩ := by
  obtain ⟨p, m', cells', hclaim, hlaid, hsetup, hring, hnodes, hbehind, hfirst⟩ :=
    claimSlot_laid h.laid hfree
  have hmoved := h.moved hsetup hlaid hnodes
  rw [← hring] at hbehind hfirst hclaim
  have hoccupied := occupy_laid hlaid key value (c.code key) hbehind hfirst
  refine ⟨_, m', _, _, hclaim, rfl, ⟨hoccupied, fun cell hcell => ?_, hmoved.comparer, hmoved.mode,
    ?_⟩, ?_⟩
  · rcases List.mem_append.mp hcell with hcell | hcell
    · exact hmoved.hashed cell hcell
    · rw [List.mem_singleton.mp hcell]
      rfl
  · rw [← aged_eq hnodes] at hkey
    rw [List.map_append]
    exact hmoved.distinct.concat hc hkey _
  · have hsize : (m'.occupy (p % m'.ring.size) key value (c.code key)).ring.size = m.ring.size := by
      simp [occupy, hring]
    rw [ideal, hsize, List.map_append, aged_eq hnodes]
    simp only [occupy, fresh, hsetup.clock, hsetup.evictions, List.map_cons, List.map_nil,
      Cell.aged]

/-! ## Each operation -/

/-- An insertion answers, evicts and grows as that of the ideal map does. -/
theorem insert_stands (h : Stands c mode m s) (hc : c.Lawful) (key : κ) (value : ν) :
    (m.insert key value).1 = (s.insert c mode key value).1 ∧
      Stands c mode (m.insert key value).2 (s.insert c mode key value).2 := by
  obtain ⟨cells, hm, rfl⟩ := h
  have hhash : m.hasher.hash key = c.code key := by rw [KeyHasher.hash, hm.comparer]
  rcases hm.lookup hc key with ⟨m', hl, hm', hideal, habsent⟩ |
    ⟨before, p, node, after, m', hl, rfl, hm', hideal, hsplit⟩
  · rw [RingMap.lookup, hhash] at hl
    rw [← hideal]
    have hnone : EntryList.value? c key (m'.ideal cells).entries = none := habsent.value?_eq
    -- the key is still absent from what making room leaves, so the new cell keeps keys distinct
    rcases hm'.reserveOne with ⟨e, hroom, hreserve⟩ |
      ⟨m₁, cells₁, hroom, hreserve, hm₁, hfree, hsub⟩
    · simp only [insert, Ideal.insert, hhash, hl, hreserve, hnone, hroom]
      exact ⟨trivial, cells, hm', rfl⟩
    · have habsent₁ : EntryList.Absent c key (cells₁.map Cell.aged) := fun e he =>
        habsent e (hsub.subset he)
      obtain ⟨i, m₂, m₃, cells₃, hclaim, hoccupy, hm₃, hideal₃⟩ :=
        hm₁.append hc hfree habsent₁ value
      simp only [insert, Ideal.insert, hhash, hl, hreserve, hnone, hroom, hclaim, hoccupy]
      exact ⟨trivial, cells₃, hm₃, hideal₃.symm⟩
  · rw [RingMap.lookup, hhash] at hl
    rw [← hideal]
    have hnode : m'.node? (p % m'.ring.size) = some node := hm'.laid.node (p, node) (by simp)
    have hvalue : EntryList.value? c key (m'.ideal (before ++ (p, node) :: after)).entries =
        some (node.value, node.stamp) := hsplit.value?_eq
    simp only [insert, Ideal.insert, hhash, hl, hnode, hvalue, Option.map_some]
    have hchanged := hm'.change (f := fun node => { node with value, stamp := m'.clock + 1 })
      rfl rfl
    refine ⟨trivial, _, hchanged.relabel ⟨rfl, rfl, rfl, rfl, rfl⟩ rfl rfl, ?_⟩
    have hmodify := hsplit.modify_eq fun _ => (value, m'.clock + 1)
    simp only [ideal, hmodify, Array.size_modify]
    rw [List.map_append, List.map_cons]
    rfl

/-- A lookup returns the value that the ideal map has for the key, and changes no entry. -/
theorem get_stands (h : Stands c mode m s) (hc : c.Lawful) (key : κ) :
    (m.get key).1 = s.get c key ∧ Stands c mode (m.get key).2 s := by
  obtain ⟨cells, hm, rfl⟩ := h
  rcases hm.lookup hc key with ⟨m', hl, hm', hideal, habsent⟩ |
    ⟨before, p, node, after, m', hl, rfl, hm', hideal, hsplit⟩
  · simp only [get, Ideal.get, hl, ideal, habsent.value?_eq]
    exact ⟨rfl, cells, hm', hideal.symm⟩
  · have hnode : m'.node? (p % m'.ring.size) = some node := hm'.laid.node (p, node) (by simp)
    simp only [get, Ideal.get, hl, Option.bind_some, hnode, ideal, hsplit.value?_eq]
    exact ⟨rfl, _, hm', hideal.symm⟩

/-- A lookup that requires its key fails when the ideal one does, and changes no entry. -/
theorem require_stands (h : Stands c mode m s) (hc : c.Lawful) (key : κ) :
    (m.require key).1 = s.require c key ∧ Stands c mode (m.require key).2 s := by
  obtain ⟨hvalue, hnext⟩ := get_stands h hc key
  unfold require Ideal.require
  rw [← hvalue]
  revert hnext
  rcases m.get key with ⟨⟨⟩ | v, m'⟩ <;> exact fun hnext => ⟨rfl, hnext⟩

/-- A key is found when the ideal map has a value for it. -/
theorem containsKey_stands (h : Stands c mode m s) (hc : c.Lawful) (key : κ) :
    (m.containsKey key).1 = (s.get c key).isSome ∧ Stands c mode (m.containsKey key).2 s := by
  obtain ⟨cells, hm, rfl⟩ := h
  rcases hm.lookup hc key with ⟨m', hl, hm', hideal, habsent⟩ |
    ⟨before, p, node, after, m', hl, rfl, hm', hideal, hsplit⟩
  · simp only [containsKey, Ideal.get, hl, ideal, habsent.value?_eq]
    exact ⟨rfl, cells, hm', hideal.symm⟩
  · simp only [containsKey, Ideal.get, hl, ideal, hsplit.value?_eq]
    exact ⟨rfl, _, hm', hideal.symm⟩

/-- The timestamp of a key is its stamp in the ideal map. -/
theorem timestamp_stands (h : Stands c mode m s) (hc : c.Lawful) (key : κ) :
    (m.timestamp key).1 = (EntryList.value? c key s.entries).map (·.2) ∧
      Stands c mode (m.timestamp key).2 s := by
  obtain ⟨cells, hm, rfl⟩ := h
  rcases hm.lookup hc key with ⟨m', hl, hm', hideal, habsent⟩ |
    ⟨before, p, node, after, m', hl, rfl, hm', hideal, hsplit⟩
  · simp only [timestamp, hl, ideal, habsent.value?_eq]
    exact ⟨rfl, cells, hm', hideal.symm⟩
  · have hnode : m'.node? (p % m'.ring.size) = some node := hm'.laid.node (p, node) (by simp)
    simp only [timestamp, hl, Option.bind_some, hnode, ideal, hsplit.value?_eq]
    exact ⟨rfl, _, hm', hideal.symm⟩

/-- A modification changes the value of the key in the ideal map, and leaves its stamp. -/
theorem modify_stands (h : Stands c mode m s) (hc : c.Lawful) (key : κ) (f : ν → ν) :
    (m.modify key f).1 = (s.get c key).map f ∧
      Stands c mode (m.modify key f).2
        { s with
          entries := EntryList.modify c key (fun (value, stamp) => (f value, stamp))
            s.entries } := by
  obtain ⟨cells, hm, rfl⟩ := h
  rcases hm.lookup hc key with ⟨m', hl, hm', hideal, habsent⟩ |
    ⟨before, p, node, after, m', hl, rfl, hm', hideal, hsplit⟩
  · rw [← hideal]
    have hmodify := habsent.modify_eq fun (value, stamp) => (f value, stamp)
    simp only [modify, Ideal.get, hl, ideal, habsent.value?_eq, hmodify]
    exact ⟨rfl, cells, hm', rfl⟩
  · rw [← hideal]
    have hchanged := hm'.change (f := fun node => { node with value := f node.value }) rfl rfl
    have hring : (m'.change (p % m'.ring.size)
        (fun node => { node with value := f node.value })).ring.size = m'.ring.size := by
      simp [change]
    have hnode := hchanged.laid.node _ (List.mem_append_right _ List.mem_cons_self)
    rw [hring] at hnode
    have hmodify := hsplit.modify_eq fun (value, stamp) => (f value, stamp)
    simp only [modify, Ideal.get, hl, ideal, hsplit.value?_eq, hmodify]
    refine ⟨congrArg (Option.map _) hnode, _, hchanged, ?_⟩
    simp only [ideal, Array.size_modify]
    rw [List.map_append, List.map_cons]
    rfl

/-- A removal returns the value that the ideal map has for the key, and erases the entry. -/
theorem remove_stands (h : Stands c mode m s) (hc : c.Lawful) (key : κ) :
    (m.remove key).1 = s.get c key ∧
      Stands c mode (m.remove key).2
        { s with entries := EntryList.erase c key s.entries } := by
  obtain ⟨cells, hm, rfl⟩ := h
  rcases hm.lookup hc key with ⟨m', hl, hm', hideal, habsent⟩ |
    ⟨before, p, node, after, m', hl, rfl, hm', hideal, hsplit⟩
  · rw [← hideal]
    simp only [remove, Ideal.get, hl, ideal, habsent.value?_eq, habsent.erase_eq]
    exact ⟨rfl, cells, hm', rfl⟩
  · rw [← hideal]
    obtain ⟨m'', hremove, hmodels, hsetup, hring⟩ := hm'.removeAt
    have hafter := ideal_eq (before ++ after) hsetup hring
    simp only [remove, Ideal.get, hl, hremove, ideal, hsplit.value?_eq, hsplit.erase_eq]
    refine ⟨rfl, _, hmodels, ?_⟩
    rw [hafter, ideal, List.map_append]

/-- The entry in the slot of a cell. -/
theorem entryAt_eq (h : Models c mode m cells) {cell : Cell κ ν} (hcell : cell ∈ cells) :
    m.entryAt (cell.1 % m.ring.size) = .ok (cell.2.key, cell.2.value) := by
  have hsize : m.size ≠ 0 := by
    rw [h.laid.size]
    exact fun hnil => by simp [List.length_eq_zero_iff.mp hnil] at hcell
  simp [entryAt, hsize, entry?, h.laid.node cell hcell]

/-- The oldest entry is the first one of the ideal map. -/
theorem oldest_stands (h : Stands c mode m s) : m.oldest = Ideal.entry s.entries.head? := by
  obtain ⟨cells, hm, rfl⟩ := h
  cases cells with
  | nil => simp [oldest, entryAt, hm.laid.size, ideal, Ideal.entry]
  | cons first rest =>
      rw [oldest, show m.head = first.1 % m.ring.size from hm.laid.head,
        entryAt_eq hm List.mem_cons_self]
      rfl

/-- The newest entry is the last one of the ideal map. -/
theorem newest_stands (h : Stands c mode m s) : m.newest = Ideal.entry s.entries.getLast? := by
  obtain ⟨cells, hm, rfl⟩ := h
  rcases List.eq_nil_or_concat cells with rfl | ⟨init, last, rfl⟩
  · simp [newest, entryAt, hm.laid.size, ideal, Ideal.entry]
  · have htail := hm.laid.tail
    simp only [List.concat_eq_append, List.getLast?_append, List.getLast?_singleton, Option.some_or,
      slotOf] at htail
    rw [newest, htail, entryAt_eq hm (by simp)]
    simp [ideal, Ideal.entry, Cell.aged]

/-- Taking the oldest entry off takes off the first one of the ideal map. -/
theorem popOldest_stands (h : Stands c mode m s) :
    m.popOldest.1 = Ideal.entry s.entries.head? ∧
      Stands c mode m.popOldest.2 { s with entries := s.entries.tail } := by
  obtain ⟨cells, hm, rfl⟩ := h
  cases cells with
  | nil =>
      simp only [popOldest, show m.size = 0 from hm.laid.size, ↓reduceIte]
      exact ⟨rfl, [], hm, rfl⟩
  | cons first rest =>
      have hsize : m.size ≠ 0 := by simp [hm.laid.size]
      have hfront : Models c mode m ([] ++ first :: rest) := hm
      obtain ⟨m', hremove, hmodels, hsetup, hring⟩ := hfront.removeAt
      have hhead : m.head = first.1 % m.ring.size := hm.laid.head
      simp only [popOldest, hsize, ↓reduceIte, hhead, hremove]
      refine ⟨rfl, rest, hmodels, ?_⟩
      rw [ideal_eq rest hsetup hring]
      rfl

/-- A cleared map stands for the ideal map without entries. -/
theorem clear_stands (h : Stands c mode m s) :
    Stands c mode m.clear { s with entries := [] } := by
  obtain ⟨cells, hm, rfl⟩ := h
  have hring : m.clear.ring.size = m.ring.size := by simp [clear]
  refine ⟨[], ⟨clear_laid hm.laid.room, by simp, hm.comparer, hm.mode, List.Pairwise.nil⟩, ?_⟩
  simp only [ideal, hring]
  rfl

/-- Every operation answers as the ideal map does. -/
theorem step_stands (h : Stands c mode m s) (hc : c.Lawful) (op : Op κ ν) :
    (m.step op).1 = (s.step c mode op).1 ∧ Stands c mode (m.step op).2 (s.step c mode op).2 := by
  cases op with
  | insert key value =>
      obtain ⟨hreply, hnext⟩ := insert_stands h hc key value
      exact ⟨congrArg Reply.inserted hreply, hnext⟩
  | remove key =>
      obtain ⟨hreply, hnext⟩ := remove_stands h hc key
      exact ⟨congrArg Reply.value hreply, hnext⟩
  | get key =>
      obtain ⟨hreply, hnext⟩ := get_stands h hc key
      exact ⟨congrArg Reply.value hreply, hnext⟩
  | require key =>
      obtain ⟨hreply, hnext⟩ := require_stands h hc key
      exact ⟨congrArg Reply.demanded hreply, hnext⟩
  | modify key f =>
      obtain ⟨hreply, hnext⟩ := modify_stands h hc key f
      exact ⟨congrArg Reply.value hreply, hnext⟩
  | containsKey key =>
      obtain ⟨hreply, hnext⟩ := containsKey_stands h hc key
      exact ⟨congrArg Reply.present hreply, hnext⟩
  | timestamp key =>
      obtain ⟨hreply, hnext⟩ := timestamp_stands h hc key
      exact ⟨congrArg Reply.stamp hreply, hnext⟩
  | oldest => exact ⟨congrArg Reply.entry (oldest_stands h), h⟩
  | newest => exact ⟨congrArg Reply.entry (newest_stands h), h⟩
  | popOldest =>
      obtain ⟨hreply, hnext⟩ := popOldest_stands h
      exact ⟨congrArg Reply.entry hreply, hnext⟩
  | clear => exact ⟨rfl, clear_stands h⟩

/-! ## What a run keeps of the ideal map -/

namespace Ideal

/-- No stamp is ahead of the time, and no more entries were dropped than stamps were given. -/
structure Sound (s : Ideal κ ν) : Prop where
  stamps : ∀ e ∈ s.entries, e.2.2 ≤ s.clock
  evictions : s.evictions ≤ s.clock

/-- Making room takes entries away, drops at most one of them and takes no time. -/
theorem makeRoom_entries {s s' : Ideal κ ν} (h : s.makeRoom mode = .ok s') :
    s'.entries.Sublist s.entries ∧ s'.clock = s.clock ∧ s'.evictions ≤ s.evictions + 1 := by
  unfold makeRoom at h
  split at h
  · cases h
    exact ⟨List.Sublist.refl _, rfl, Nat.le_succ _⟩
  · cases mode with
    | fixed =>
        cases h
        exact ⟨List.tail_sublist _, rfl, Nat.le_refl _⟩
    | dynamic =>
        dsimp only at h
        split at h
        · cases h
          exact ⟨List.Sublist.refl _, rfl, Nat.le_succ _⟩
        · cases h

/-- The stamps of a part of the entries are no further ahead of the time than those of all. -/
theorem Sound.sublist {s : Ideal κ ν} (h : s.Sound) {entries : List (κ × (ν × Nat))}
    (hsub : entries.Sublist s.entries) : Sound { s with entries } :=
  ⟨fun e he => h.stamps e (hsub.subset he), h.evictions⟩

/-- Modifying an entry puts no stamp ahead of the time, if its new stamp is not. -/
theorem Sound.modify {s : Ideal κ ν} (h : s.Sound) (key : κ) {f : ν × Nat → ν × Nat} {clock : Nat}
    (hclock : s.clock ≤ clock) (hf : ∀ v, v.2 ≤ s.clock → (f v).2 ≤ clock) :
    Sound { s with entries := EntryList.modify c key f s.entries, clock } := by
  refine ⟨fun e he => ?_, Nat.le_trans h.evictions hclock⟩
  obtain ⟨old, hold, rfl⟩ := List.mem_map.mp he
  have hstamp := h.stamps old hold
  split
  · exact hf _ hstamp
  · exact Nat.le_trans hstamp hclock

/-- An operation keeps the ideal map sound and takes at most one unit of time. -/
theorem step_sound (c : Comparer κ) (mode : CapacityMode) {s : Ideal κ ν} (h : s.Sound)
    (op : Op κ ν) :
    (s.step c mode op).2.Sound ∧ (s.step c mode op).2.clock ≤ s.clock + 1 := by
  cases op with
  | insert key value =>
      simp only [step, insert]
      split
      · exact ⟨h.modify key (Nat.le_succ _) fun _ _ => Nat.le_refl _, Nat.le_refl _⟩
      · split
        · exact ⟨h, Nat.le_succ _⟩
        · rename_i s' hroom
          obtain ⟨hsub, hclock, hevictions⟩ := makeRoom_entries hroom
          refine ⟨⟨fun e he => ?_, ?_⟩, ?_⟩
          · rcases List.mem_append.mp he with he | he
            · have := h.stamps e (hsub.subset he)
              show _ ≤ s'.clock + 1
              omega
            · rw [List.mem_singleton.mp he]
              exact Nat.le_refl _
          · have := h.evictions
            show s'.evictions ≤ s'.clock + 1
            omega
          · show s'.clock + 1 ≤ _
            omega
  | modify key f => exact ⟨h.modify key (Nat.le_refl _) fun _ hv => hv, Nat.le_succ _⟩
  | remove key => exact ⟨h.sublist List.filter_sublist, Nat.le_succ _⟩
  | popOldest => exact ⟨h.sublist (List.tail_sublist _), Nat.le_succ _⟩
  | clear => exact ⟨h.sublist (List.nil_sublist _), Nat.le_succ _⟩
  | get key | require key | containsKey key | timestamp key | oldest | newest =>
      exact ⟨h, Nat.le_succ _⟩

/-- A run keeps the ideal map sound and takes at most one unit of time for each operation. -/
theorem run_sound (c : Comparer κ) (mode : CapacityMode) {s : Ideal κ ν} (h : s.Sound)
    (ops : List (Op κ ν)) :
    (run (step c mode) s ops).2.Sound ∧
      (run (step c mode) s ops).2.clock ≤ s.clock + ops.length := by
  induction ops generalizing s with
  | nil => exact ⟨h, Nat.le_refl _⟩
  | cons op ops ih =>
      obtain ⟨hsound, hclock⟩ := step_sound c mode h op
      obtain ⟨hfinal, htime⟩ := ih hsound
      refine ⟨hfinal, Nat.le_trans htime ?_⟩
      rw [List.length_cons]
      omega

end Ideal

/-! ## Runs -/

variable {o : TableOptions} {f : Sizing.LoadFactor}

/-- An empty map with checked options stands for an empty one. -/
theorem build_stands (hvalid : o.check = .ok f) (hasher : KeyHasher κ) (journal : Journal) :
    Stands hasher.comparer o.mode (build o f hasher journal : RingMap κ ν)
      ⟨[], o.capacity, 0, 0⟩ := by
  have hcapacity := (TableOptions.check_ok hvalid).1
  refine ⟨[], ⟨?_, by simp, rfl, rfl, List.Pairwise.nil⟩, by simp [ideal, build]⟩
  refine empty_laid (by simpa [build] using hcapacity) (fun i => ?_) rfl
    (ChainIndex.withBuckets_partition _) rfl rfl
  simp only [build, node?, Array.getElem?_replicate]
  split <;> rfl

/-- A new map stands for an empty one. -/
theorem withComparer_stands (hvalid : o.check = .ok f) (c : Comparer κ) :
    ∃ m : RingMap κ ν, withComparer o c = .ok m ∧ Stands c o.mode m ⟨[], o.capacity, 0, 0⟩ := by
  refine ⟨_, ?_, build_stands hvalid (KeyHasher.withComparer o.hashing c).1
    (KeyHasher.withComparer o.hashing c).2⟩
  rw [withComparer, hvalid]
  rfl

/-- A new map stands for an empty one, under the comparer that the policy chooses. -/
theorem new_stands [ByteHash] [ByteKey κ] [DecidableEq κ] {seed : Seed} (h : new o seed = .ok m) :
    Stands (KeyHasher.ofPolicy o.hashing seed).comparer o.mode m ⟨[], o.capacity, 0, 0⟩ := by
  obtain ⟨f, hvalid, h⟩ := exists_ok_of_bind h
  cases h
  exact build_stands hvalid (.ofPolicy o.hashing seed) .empty

/-- The entries are those of the ideal map, oldest first. -/
theorem Stands.toList_eq (h : Stands c mode m s) :
    m.toList = s.entries.map fun e => (e.1, e.2.1) := by
  obtain ⟨cells, hm, rfl⟩ := h
  rw [hm.laid.toList_eq, ideal, List.map_map]
  rfl

/-- The size is the number of entries of the ideal map. -/
theorem Stands.size_eq (h : Stands c mode m s) : m.size = s.entries.length := by
  obtain ⟨cells, hm, rfl⟩ := h
  rw [ideal, List.length_map]
  exact hm.laid.size

/-- The only insertion that is refused is one into a full dynamic ring that cannot double. -/
theorem Stands.insert_error (h : Stands c mode m s) (hc : c.Lawful) {key : κ} {value : ν}
    {e : TableError} (herror : (m.insert key value).1 = .error e) :
    mode = .dynamic ∧ e = .capacityExhausted m.ring.size ∧ m.size = m.ring.size ∧
      Binary64.maxWord < 2 * m.ring.size := by
  obtain ⟨hreply, -⟩ := insert_stands h hc key value
  obtain ⟨cells, hm, rfl⟩ := h
  have hle := hm.laid.length_le
  have hsize := hm.laid.size
  rw [herror] at hreply
  unfold Ideal.insert at hreply
  split at hreply
  · cases hreply
  · split at hreply
    · rename_i e' hroom
      cases hreply
      unfold Ideal.makeRoom at hroom
      simp only [ideal, List.length_map] at hroom
      split at hroom
      · cases hroom
      · cases mode with
        | fixed => cases hroom
        | dynamic =>
            by_cases hfits : 2 * m.ring.size ≤ Binary64.maxWord
            · simp [hfits] at hroom
            · simp only [hfits, ↓reduceIte, Except.error.injEq] at hroom
              exact ⟨rfl, hroom.symm, by omega, by omega⟩
    · cases hreply

/-- An ideal map without entries. -/
def Ideal.empty (o : TableOptions) : Ideal κ ν := ⟨[], o.capacity, 0, 0⟩

/-- What is read off a map is what the ideal map has, and no stamp is ahead of the time. -/
structure Agrees (m : RingMap κ ν) (s : Ideal κ ν) : Prop where
  entries : m.toList = s.entries.map fun e => (e.1, e.2.1)
  size : m.size = s.entries.length
  evictions : m.evictions = s.evictions
  clock : m.clock = s.clock
  stamps : ∀ e ∈ s.entries, e.2.2 ≤ s.clock

/-- A ring map answers every sequence of operations as a list of stamped entries does, and agrees
with it in the end. Time and evictions count at most the operations, and an insertion is only
refused where a full dynamic ring cannot double. -/
theorem refines_aged (hvalid : o.check.isOk) (hc : c.Lawful) :
    ∃ m : RingMap κ ν, withComparer o c = .ok m ∧ ∀ ops : List (Op κ ν),
      (run step m ops).1 = (run (Ideal.step c o.mode) (.empty o) ops).1 ∧
      Agrees (run step m ops).2 (run (Ideal.step c o.mode) (.empty o) ops).2 ∧
      (run step m ops).2.evictions ≤ ops.length ∧ (run step m ops).2.clock ≤ ops.length ∧
      ∀ key value e, ((run step m ops).2.insert key value).1 = .error e →
        o.mode = .dynamic ∧ e = .capacityExhausted (run step m ops).2.ring.size ∧
        (run step m ops).2.size = (run step m ops).2.ring.size ∧
        Binary64.maxWord < 2 * (run step m ops).2.ring.size := by
  obtain ⟨f, hvalid⟩ := exists_ok hvalid
  obtain ⟨m, hm, hstart⟩ : ∃ m : RingMap κ ν, _ := withComparer_stands hvalid c
  refine ⟨m, hm, fun ops => ?_⟩
  obtain ⟨hreplies, hend⟩ := run_simulates
    (fun m s op (h : Stands c o.mode m s) => step_stands h hc op) hstart ops
  have hempty : (Ideal.empty o : Ideal κ ν).Sound :=
    ⟨fun e he => absurd he (List.not_mem_nil), Nat.le_refl 0⟩
  obtain ⟨hsound, htime⟩ := Ideal.run_sound c o.mode hempty ops
  have hagrees : Agrees (run step m ops).2 (run (Ideal.step c o.mode) (.empty o) ops).2 := by
    refine ⟨hend.toList_eq, ?_, ?_, ?_, hsound.stamps⟩ <;> obtain ⟨cells, hcells, heq⟩ := hend
    · rw [show (run (Ideal.step c o.mode) (.empty o) ops).2 = _ from heq, ideal, List.length_map]
      exact hcells.laid.size
    · exact (congrArg Ideal.evictions heq).symm
    · exact (congrArg Ideal.clock heq).symm
  have hlength : (Ideal.empty o : Ideal κ ν).clock + ops.length = ops.length := Nat.zero_add _
  refine ⟨hreplies, hagrees, ?_, ?_, fun key value e => hend.insert_error hc⟩
  · rw [hagrees.evictions]
    exact Nat.le_trans hsound.evictions (hlength ▸ htime)
  · rw [hagrees.clock]
    exact hlength ▸ htime

/-- In a ring of three, a hole is packed away before the fourth key comes in, an update leaves its
key the oldest, and the fifth key then evicts it. -/
theorem insert_packs_and_evicts :
    (⟨3, .fixed, 0.75, .deterministic⟩ : TableOptions).check.isOk ∧
    ∃ m : RingMap UInt64 Nat, withComparer ⟨3, .fixed, 0.75, .deterministic⟩ .natural = .ok m ∧
      (run step m [.insert 1 10, .insert 2 20, .insert 3 30, .remove 2, .insert 4 40, .insert 1 11,
        .insert 5 50]).2.toList = [(3, 30), (4, 40), (5, 50)] ∧
      (run step m [.insert 1 10, .insert 2 20, .insert 3 30, .remove 2, .insert 4 40, .insert 1 11,
        .insert 5 50]).2.evictions = 1 := by
  have hvalid : (⟨3, .fixed, 0.75, .deterministic⟩ : TableOptions).check.isOk := by decide +kernel
  obtain ⟨m, hm, hruns⟩ : ∃ m : RingMap UInt64 Nat, _ :=
    refines_aged hvalid Comparer.natural_lawful
  obtain ⟨-, hagrees, -⟩ := hruns [.insert 1 10, .insert 2 20, .insert 3 30, .remove 2,
    .insert 4 40, .insert 1 11, .insert 5 50]
  refine ⟨hvalid, m, hm, hagrees.entries.trans ?_, hagrees.evictions.trans ?_⟩ <;> decide

end BoundedTables.RingMap
