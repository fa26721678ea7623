import BoundedTables.MultiMap
import BoundedTables.Proofs.Run
import BoundedTables.Proofs.Table.LinkedEntries

/-!
# Multimaps refine a list of keys with their values

`MultiMap.Ideal` is a multimap kept as a plain list of keys, each with the list of its values, in
the order of first insertion. `Stands` relates a map to it: the cells of the linked table are the
entries of the list, no key is without a value, and the counter of the map is the number of all
values. Every operation answers as the list does and keeps the relation (`step_stands`), so a map
answers every sequence of operations as the list does, and its counter, which each operation
adjusts by hand, is right in every state it reaches (`refines_multimap`).
-/

namespace BoundedTables.MultiMap

open Hashing Table

variable {κ ν : Type}

/-- The operations of a multimap. -/
inductive Op (κ ν : Type) where
  | insert (key : κ) (value : ν)
  | remove (key : κ)
  | removeValue (key : κ) (value : ν)
  | get (key : κ)
  | require (key : κ)
  | containsKey (key : κ)
  | containsValue (value : ν)
  | clear

/-- The answers of a multimap. -/
inductive Reply (ν : Type) where
  | values (vs : Option (List ν))
  | demanded (vs : Except TableError (List ν))
  | present (b : Bool)
  | done

/-- Perform one operation. -/
def step [BEq ν] (m : MultiMap κ ν) : Op κ ν → Reply ν × MultiMap κ ν
  | .insert key value => (.done, m.insert key value)
  | .remove key => (m.remove key).map .values id
  | .removeValue key value => (m.removeValue key value).map .present id
  | .get key => (m.get key).map .values id
  | .require key => (m.require key).map .demanded id
  | .containsKey key => (m.containsKey key).map .present id
  | .containsValue value => (.present (m.containsValue value), m)
  | .clear => (.done, m.clear)

/-! ## The ideal multimap -/

/-- The number of values of all keys together. -/
def count (entries : List (κ × List ν)) : Nat := (entries.flatMap (·.2)).length

/-- The values of a list are those of its first entry and of the rest. -/
theorem count_cons (e : κ × List ν) (back : List (κ × List ν)) :
    count (e :: back) = e.2.length + count back :=
  List.length_append

/-- The values of one entry count no matter where it stands. -/
theorem count_split (front back : List (κ × List ν)) (e : κ × List ν) :
    count (front ++ e :: back) = count (front ++ back) + e.2.length := by
  simp only [count, List.flatMap_append, List.flatMap_cons, List.length_append]
  omega

/-- The keys with their values, oldest first, and how many keys were dropped to make room. -/
structure Ideal (κ ν : Type) where
  entries : List (κ × List ν)
  evictions : Nat

namespace Ideal

/-- Drop the oldest key with all its values when a limit is reached. -/
def makeRoom (limit : Option Nat) (s : Ideal κ ν) : Ideal κ ν :=
  if limit.any (· ≤ s.entries.length) then ⟨s.entries.tail, s.evictions + 1⟩ else s

/-- Append a value to those of a present key, or add a new key at the end after making room. -/
def insert (c : Comparer κ) (limit : Option Nat) (s : Ideal κ ν) (key : κ) (value : ν) :
    Ideal κ ν :=
  match EntryList.find? c key s.entries with
  | some _ => { s with entries := EntryList.modify c key (· ++ [value]) s.entries }
  | none =>
      let s := s.makeRoom limit
      { s with entries := s.entries ++ [(key, [value])] }

/-- Delete the first value of a key that is equal to a given one. The key goes with it when it has
no other value. -/
def removeValue [BEq ν] (c : Comparer κ) (s : Ideal κ ν) (key : κ) (value : ν) :
    Bool × Ideal κ ν :=
  match EntryList.value? c key s.entries with
  | some vs =>
      if vs.any (· == value) then
        (true,
          { s with
            entries :=
              if vs.length = 1 then EntryList.erase c key s.entries
              else EntryList.modify c key (List.eraseP (· == value)) s.entries })
      else (false, s)
  | none => (false, s)

/-- The values of a key, or an error. -/
def require (c : Comparer κ) (s : Ideal κ ν) (key : κ) : Except TableError (List ν) :=
  match EntryList.value? c key s.entries with
  | some vs => .ok vs
  | none => .error .keyNotFound

/-- Perform one operation, under a comparer and a limit on the number of keys. -/
def step [BEq ν] (c : Comparer κ) (limit : Option Nat) (s : Ideal κ ν) :
    Op κ ν → Reply ν × Ideal κ ν
  | .insert key value => (.done, s.insert c limit key value)
  | .remove key =>
      (.values (EntryList.value? c key s.entries),
        { s with entries := EntryList.erase c key s.entries })
  | .removeValue key value => (s.removeValue c key value).map .present id
  | .get key => (.values (EntryList.value? c key s.entries), s)
  | .require key => (.demanded (s.require c key), s)
  | .containsKey key => (.present (EntryList.value? c key s.entries).isSome, s)
  | .containsValue value => (.present (s.entries.any fun e => e.2.any (· == value)), s)
  | .clear => (.done, { s with entries := [] })

end Ideal

/-! ## The relation -/

/-- A map stands for an ideal multimap: no key is without a value, and all values are counted. -/
structure Stands (c : Comparer κ) (limit : Option Nat) (m : MultiMap κ ν) (s : Ideal κ ν) :
    Prop where
  models : ∃ cells, LinkedTable.Models c limit m.table cells s.evictions ∧
    s.entries = cells.map (·.2)
  filled : ∀ e ∈ s.entries, e.2 ≠ []
  values : m.values = count s.entries

variable {c : Comparer κ} {limit : Option Nat} {m : MultiMap κ ν} {s : Ideal κ ν} {key : κ}
  {value : ν}

/-- The entries are those of the ideal multimap. -/
theorem Stands.toList_eq (h : Stands c limit m s) : m.toList = s.entries := by
  obtain ⟨cells, hm, hentries⟩ := h.models
  rw [hentries]
  exact hm.spells.toList_eq

/-! ## Each operation -/

/-- Deleting a value leaves one less. -/
theorem length_eraseP [BEq ν] {vs : List ν} (h : vs.any (· == value) = true) :
    (vs.eraseP (· == value)).length + 1 = vs.length := by
  obtain ⟨v, hv, hequal⟩ := List.any_eq_true.mp h
  have hlength : (vs.eraseP (· == value)).length = vs.length - 1 :=
    List.length_eraseP_of_mem hv hequal
  have hpos := List.length_pos_of_mem hv
  omega

/-- The entries around one that is not empty are not empty. -/
theorem filled_split {front back : List (κ × List ν)} {e : κ × List ν}
    (h : ∀ x ∈ front ++ e :: back, x.2 ≠ []) : ∀ x ∈ front ++ back, x.2 ≠ [] :=
  fun x hx => h x (((List.sublist_cons_self e back).append_left front).subset hx)

/-- Other values for a key that is present. -/
theorem Stands.change {t : LinkedTable κ (List ν)} {evictions values : Nat}
    {before after : List (LinkedTable.Cell κ (List ν))} {i : Nat} {e : κ × List ν} {vs : List ν}
    (hm : LinkedTable.Models c limit t (before ++ (i, (e.1, vs)) :: after) evictions)
    (hfilled : ∀ x ∈ before.map (·.2) ++ e :: after.map (·.2), x.2 ≠ []) (hvs : vs ≠ [])
    (hvalues : values + e.2.length =
      count (before.map (·.2) ++ e :: after.map (·.2)) + vs.length) :
    Stands c limit ⟨t, values⟩
      ⟨before.map (·.2) ++ (e.1, vs) :: after.map (·.2), evictions⟩ where
  models := ⟨_, hm, by rw [List.map_append, List.map_cons]⟩
  filled x hx := by
    rw [List.perm_middle.mem_iff, List.mem_cons] at hx
    rcases hx with rfl | hx
    · exact hvs
    · exact filled_split hfilled x hx
  values := by
    rw [count_split] at hvalues ⊢
    dsimp only
    omega

/-- A key less. -/
theorem Stands.forget {t : LinkedTable κ (List ν)} {evictions values : Nat}
    {before after : List (LinkedTable.Cell κ (List ν))} {e : κ × List ν}
    (hm : LinkedTable.Models c limit t (before ++ after) evictions)
    (hfilled : ∀ x ∈ before.map (·.2) ++ e :: after.map (·.2), x.2 ≠ [])
    (hvalues : values + e.2.length = count (before.map (·.2) ++ e :: after.map (·.2))) :
    Stands c limit ⟨t, values⟩ ⟨before.map (·.2) ++ after.map (·.2), evictions⟩ where
  models := ⟨_, hm, by rw [List.map_append]⟩
  filled := filled_split hfilled
  values := by
    rw [count_split] at hvalues
    dsimp only
    omega

/-- A new key with its first value. -/
theorem Stands.add {t : LinkedTable κ (List ν)} {evictions values : Nat}
    {cells : List (LinkedTable.Cell κ (List ν))}
    (hm : LinkedTable.Models c limit t cells evictions)
    (hfilled : ∀ x ∈ cells.map (·.2), x.2 ≠ []) (hvalues : values = count (cells.map (·.2)))
    (hc : c.Lawful) (habsent : EntryList.Absent c key (cells.map (·.2))) (value : ν) :
    Stands c limit ⟨t.attach key [value] (c.code key) .back, values + 1⟩
      ⟨cells.map (·.2) ++ [(key, [value])], evictions⟩ where
  models := by
    obtain ⟨i, hm⟩ := hm.attach hc habsent [value] .back
    exact ⟨_, hm, by rw [End.map_place]; rfl⟩
  filled x hx := by
    rcases List.mem_append.mp hx with hx | hx
    · exact hfilled x hx
    · rw [List.mem_singleton.mp hx]
      exact List.cons_ne_nil value []
  values := by
    rw [count_split, List.append_nil, hvalues]
    rfl

/-- An insertion adds its value where the ideal multimap adds it, and evicts what that evicts. -/
theorem insert_stands (h : Stands c limit m s) (hc : c.Lawful) (hlimit : ∀ n ∈ limit, 0 < n)
    (key : κ) (value : ν) :
    Stands c limit (m.insert key value) (s.insert c limit key value) := by
  obtain ⟨t, values⟩ := m
  obtain ⟨entries, evictions⟩ := s
  obtain ⟨⟨cells, hm, rfl⟩, hfilled, rfl⟩ := h
  have hhash : t.hasher.hash key = c.code key := by rw [KeyHasher.hash, hm.comparer]
  rcases hm.lookup hc key with ⟨t', hl, hm', habsent⟩ |
    ⟨before, i, e, after, t', hl, hm', rfl, hsplit⟩
  · rw [LinkedTable.lookup, hhash] at hl
    simp only [insert, Ideal.insert, Ideal.makeRoom, hhash, hl, habsent.find?_eq, hm'.isFull_eq,
      List.length_map]
    by_cases hfull : limit.any (· ≤ cells.length) = true
    · obtain ⟨i, e, rest, node, t'', rfl, rfl, hevict, hm''⟩ := hm'.evict hlimit hfull .front
      rw [if_pos hfull, if_pos hfull, hevict]
      -- the oldest key goes with its values, and dropping it does not bring the new one in
      refine Stands.add hm'' (fun x hx => hfilled x (List.mem_cons_of_mem _ hx)) ?_ hc
        (fun x hx => habsent x (List.mem_cons_of_mem _ hx)) value
      show count ((node.key, node.value) :: rest.map (·.2)) - node.value.length = _
      rw [count_cons, Nat.add_sub_cancel_left]
    · rw [if_neg hfull, if_neg hfull]
      exact Stands.add hm' hfilled rfl hc habsent value
  · rw [LinkedTable.lookup, hhash] at hl
    simp only [insert, Ideal.insert, hhash, hl, hsplit.find?_eq, hsplit.modify_eq]
    rw [hsplit.eq] at hfilled
    refine .change ((hm'.modifyValue _).same (LinkedTable.touch_sameContents _)) hfilled
      (by simp) ?_
    rw [hsplit.eq, List.length_append, List.length_singleton]
    omega

/-- A removal returns the values that the ideal multimap has for the key, and erases the entry. -/
theorem remove_stands (h : Stands c limit m s) (hc : c.Lawful) (key : κ) :
    (m.remove key).1 = EntryList.value? c key s.entries ∧
      Stands c limit (m.remove key).2
        { s with entries := EntryList.erase c key s.entries } := by
  obtain ⟨t, values⟩ := m
  obtain ⟨entries, evictions⟩ := s
  obtain ⟨⟨cells, hm, rfl⟩, hfilled, rfl⟩ := h
  rcases hm.lookup hc key with ⟨t', hl, hm', habsent⟩ |
    ⟨before, i, e, after, t', hl, hm', rfl, hsplit⟩
  · simp only [remove, hl, habsent.value?_eq, habsent.erase_eq]
    exact ⟨trivial, ⟨cells, hm', rfl⟩, hfilled, rfl⟩
  · obtain ⟨node, t'', hdetach, rfl, hm''⟩ := hm'.detach
    simp only [remove, hl, hdetach, hsplit.value?_eq, hsplit.erase_eq]
    rw [hsplit.eq] at hfilled
    refine ⟨trivial, .forget hm'' hfilled ?_⟩
    rw [hsplit.eq, count_split, Nat.add_sub_cancel]

/-- Taking one value out answers and changes what it does in the ideal multimap. -/
theorem removeValue_stands [BEq ν] (h : Stands c limit m s) (hc : c.Lawful) (key : κ) (value : ν) :
    (m.removeValue key value).1 = (s.removeValue c key value).1 ∧
      Stands c limit (m.removeValue key value).2 (s.removeValue c key value).2 := by
  obtain ⟨t, values⟩ := m
  obtain ⟨entries, evictions⟩ := s
  obtain ⟨⟨cells, hm, rfl⟩, hfilled, rfl⟩ := h
  rcases hm.lookup hc key with ⟨t', hl, hm', habsent⟩ |
    ⟨before, i, e, after, t', hl, hm', rfl, hsplit⟩
  · simp only [removeValue, Ideal.removeValue, hl, habsent.value?_eq]
    exact ⟨trivial, ⟨cells, hm', rfl⟩, hfilled, rfl⟩
  · simp only [removeValue, Ideal.removeValue, hl, hsplit.value?_eq, hm'.entry?_eq,
      Option.map_some, Option.getD_some]
    by_cases hany : e.2.any (· == value) = true
    · have hlength := length_eraseP hany
      rw [if_pos hany, if_pos hany]
      rw [hsplit.eq] at hfilled
      by_cases hone : e.2.length = 1
      · -- the key goes with its last value
        have hnone : (e.2.eraseP (· == value)).isEmpty = true :=
          List.isEmpty_iff_length_eq_zero.mpr (by omega)
        obtain ⟨node, t'', hdetach, rfl, hm''⟩ := hm'.detach
        rw [if_pos hnone, if_pos hone, hdetach, hsplit.erase_eq]
        refine ⟨rfl, .forget hm'' hfilled ?_⟩
        rw [hsplit.eq, count_split, hone, Nat.add_sub_cancel]
      · have hsome : e.2.eraseP (· == value) ≠ [] :=
          List.ne_nil_of_length_pos (by omega)
        rw [if_neg (by simpa using hsome), if_neg hone, hsplit.modify_eq]
        refine ⟨rfl, .change ((hm'.modifyValue fun _ => e.2.eraseP (· == value)).same
          (LinkedTable.touch_sameContents _)) hfilled hsome ?_⟩
        rw [hsplit.eq, count_split]
        omega
    · rw [if_neg hany, if_neg hany]
      exact ⟨rfl, ⟨_, hm', rfl⟩, hfilled, rfl⟩

/-- A lookup returns the values that the ideal multimap has for the key, and changes no entry. -/
theorem get_stands (h : Stands c limit m s) (hc : c.Lawful) (key : κ) :
    (m.get key).1 = EntryList.value? c key s.entries ∧ Stands c limit (m.get key).2 s := by
  obtain ⟨t, values⟩ := m
  obtain ⟨entries, evictions⟩ := s
  obtain ⟨⟨cells, hm, rfl⟩, hfilled, hvalues⟩ := h
  rcases hm.lookup hc key with ⟨t', hl, hm', habsent⟩ |
    ⟨before, i, e, after, t', hl, hm', rfl, hsplit⟩
  · simp only [get, hl, habsent.value?_eq, Option.bind_none, Option.map_none]
    exact ⟨trivial, ⟨cells, hm', rfl⟩, hfilled, hvalues⟩
  · simp only [get, hl, hsplit.value?_eq, Option.bind_some, hm'.entry?_eq, Option.map_some]
    exact ⟨trivial, ⟨_, hm', rfl⟩, hfilled, hvalues⟩

/-- A lookup that requires its key fails when the ideal one does, and changes no entry. -/
theorem require_stands (h : Stands c limit m s) (hc : c.Lawful) (key : κ) :
    (m.require key).1 = s.require c key ∧ Stands c limit (m.require key).2 s := by
  obtain ⟨hvalue, hnext⟩ := get_stands h hc key
  unfold require Ideal.require
  rw [← hvalue]
  revert hnext
  rcases m.get key with ⟨⟨⟩ | vs, m'⟩ <;> exact fun hnext => ⟨rfl, hnext⟩

/-- A key is found when the ideal multimap has values for it. -/
theorem containsKey_stands (h : Stands c limit m s) (hc : c.Lawful) (key : κ) :
    (m.containsKey key).1 = (EntryList.value? c key s.entries).isSome ∧
      Stands c limit (m.containsKey key).2 s := by
  obtain ⟨t, values⟩ := m
  obtain ⟨entries, evictions⟩ := s
  obtain ⟨⟨cells, hm, rfl⟩, hfilled, hvalues⟩ := h
  rcases hm.lookup hc key with ⟨t', hl, hm', habsent⟩ |
    ⟨before, i, e, after, t', hl, hm', rfl, hsplit⟩
  · simp only [containsKey, hl, habsent.value?_eq]
    exact ⟨rfl, ⟨cells, hm', rfl⟩, hfilled, hvalues⟩
  · simp only [containsKey, hl, hsplit.value?_eq]
    exact ⟨rfl, ⟨_, hm', rfl⟩, hfilled, hvalues⟩

/-- A value is found when some key of the ideal multimap has it. -/
theorem containsValue_stands [BEq ν] (h : Stands c limit m s) (value : ν) :
    m.containsValue value = s.entries.any fun e => e.2.any (· == value) := by
  rw [containsValue, h.toList_eq]

/-- A cleared multimap stands for the empty list. -/
theorem clear_stands (h : Stands c limit m s) :
    Stands c limit m.clear { s with entries := [] } := by
  obtain ⟨cells, hm, -⟩ := h.models
  refine ⟨⟨[], hm.next (LinkedTable.clear_sameSetup m.table)
    (LinkedTable.clear_spells m.table) List.Pairwise.nil, rfl⟩, ?_, rfl⟩
  exact fun x hx => absurd hx List.not_mem_nil

/-- Every operation answers as the ideal multimap does. -/
theorem step_stands [BEq ν] (h : Stands c limit m s) (hc : c.Lawful) (hlimit : ∀ n ∈ limit, 0 < n)
    (op : Op κ ν) : (m.step op).1 = (s.step c limit op).1 ∧
      Stands c limit (m.step op).2 (s.step c limit op).2 := by
  cases op with
  | insert key value => exact ⟨rfl, insert_stands h hc hlimit key value⟩
  | remove key =>
      obtain ⟨hreply, hnext⟩ := remove_stands h hc key
      exact ⟨congrArg Reply.values hreply, hnext⟩
  | removeValue key value =>
      obtain ⟨hreply, hnext⟩ := removeValue_stands h hc key value
      exact ⟨congrArg Reply.present hreply, hnext⟩
  | get key =>
      obtain ⟨hreply, hnext⟩ := get_stands h hc key
      exact ⟨congrArg Reply.values hreply, hnext⟩
  | require key =>
      obtain ⟨hreply, hnext⟩ := require_stands h hc key
      exact ⟨congrArg Reply.demanded hreply, hnext⟩
  | containsKey key =>
      obtain ⟨hreply, hnext⟩ := containsKey_stands h hc key
      exact ⟨congrArg Reply.present hreply, hnext⟩
  | containsValue value => exact ⟨congrArg Reply.present (containsValue_stands h value), h⟩
  | clear => exact ⟨rfl, clear_stands h⟩

/-! ## The counter of values -/

/-- What is taken from the counter of values is never more than it counts. -/
structure Counted [BEq ν] (m : MultiMap κ ν) : Prop where
  /-- The values of the oldest key, when an insertion of a new one drops it. -/
  evicted : ∀ key t node t', m.table.lookup key = (none, t) → t.isFull = true →
    t.evict .front = (some node, t') → node.value.length ≤ m.values
  /-- The values of a key that is removed. -/
  removed : ∀ key vs m', m.remove key = (some vs, m') → vs.length ≤ m.values
  /-- A value that is deleted. -/
  deleted : ∀ key value m', m.removeValue key value = (true, m') → 1 ≤ m.values

/-- The values of a key are among all values. -/
theorem length_le_count {entries : List (κ × List ν)} {vs : List ν}
    (h : EntryList.value? c key entries = some vs) : vs.length ≤ count entries := by
  obtain ⟨e, hfind, rfl⟩ := Option.map_eq_some_iff.mp h
  obtain ⟨front, back, rfl⟩ := List.append_of_mem (List.mem_of_find?_eq_some hfind)
  rw [count_split]
  exact Nat.le_add_left ..

/-- A multimap that stands for an ideal one never takes from its counter what that does not count.
-/
theorem Stands.counted [BEq ν] (h : Stands c limit m s) (hc : c.Lawful)
    (hlimit : ∀ n ∈ limit, 0 < n) : m.Counted where
  evicted key t node t' hl hfull hevict := by
    obtain ⟨cells, hm, hentries⟩ := h.models
    rcases hm.lookup hc key with ⟨t₁, hl', hm', -⟩ | ⟨_, _, _, _, _, hl', -⟩ <;>
      cases hl.symm.trans hl'
    rw [hm'.isFull_eq] at hfull
    obtain ⟨i, e, rest, node', t₂, rfl, rfl, hevict', -⟩ := hm'.evict hlimit hfull .front
    cases hevict.symm.trans hevict'
    rw [h.values, hentries]
    show _ ≤ count ((node.key, node.value) :: rest.map (·.2))
    rw [count_cons]
    exact Nat.le_add_right ..
  removed key vs m' hremove := by
    have hreply := (remove_stands h hc key).1
    rw [hremove] at hreply
    rw [h.values]
    exact length_le_count hreply.symm
  deleted key value m' hremove := by
    have hreply := (removeValue_stands h hc key value).1
    rw [hremove, Ideal.removeValue] at hreply
    split at hreply
    · rename_i vs hvs
      split at hreply
      · rename_i hany
        have hlength := length_eraseP hany
        have hle := length_le_count hvs
        rw [h.values]
        omega
      · cases hreply
    · cases hreply

/-! ## Runs -/

variable {o : TableOptions} {f : Sizing.LoadFactor}

/-- A new map stands for an empty multimap. -/
theorem withComparer_stands (hvalid : o.check = .ok f) (c : Comparer κ) :
    ∃ m : MultiMap κ ν, withComparer o c = .ok m ∧ Stands c o.limit? m ⟨[], 0⟩ := by
  refine ⟨⟨LinkedTable.build o f (KeyHasher.withComparer o.hashing c).1
    (KeyHasher.withComparer o.hashing c).2, 0⟩, ?_, ⟨[],
    LinkedTable.build_models o f (KeyHasher.withComparer o.hashing c).1 _, rfl⟩, ?_, rfl⟩
  · rw [withComparer, LinkedTable.withComparer, hvalid]
    rfl
  · exact fun x hx => absurd hx List.not_mem_nil

/-- A new map stands for an empty multimap, under the comparer that the policy chooses. -/
theorem new_stands [ByteHash] [ByteKey κ] [DecidableEq κ] {seed : Seed} (h : new o seed = .ok m) :
    Stands (KeyHasher.ofPolicy o.hashing seed).comparer o.limit? m ⟨[], 0⟩ := by
  obtain ⟨t, ht, rfl⟩ := exists_ok_of_map h
  exact ⟨⟨[], LinkedTable.new_models ht, rfl⟩, fun x hx => absurd hx List.not_mem_nil, rfl⟩

/-- The size is the number of keys of the ideal multimap. -/
theorem Stands.size_eq (h : Stands c limit m s) : m.size = s.entries.length := by
  obtain ⟨cells, hm, hentries⟩ := h.models
  rw [hentries, List.length_map]
  exact hm.spells.size_eq

/-- All pairs are as many as all values. -/
theorem length_pairs (m : MultiMap κ ν) : m.pairs.length = count m.toList := by
  simp [pairs, count, List.length_flatMap]

/-- A multimap answers every sequence of operations as a list of keys with their values does, and
its keys, values and evictions are those of the list. In every state no key is without a value,
the counter of values is right, and nothing takes it below zero. -/
theorem refines_multimap [BEq ν] (hvalid : o.check.isOk) (hc : c.Lawful) :
    ∃ m : MultiMap κ ν, withComparer o c = .ok m ∧ ∀ ops : List (Op κ ν),
      (run step m ops).1 = (run (Ideal.step c o.limit?) ⟨[], 0⟩ ops).1 ∧
      (run step m ops).2.toList = (run (Ideal.step c o.limit?) ⟨[], 0⟩ ops).2.entries ∧
      (run step m ops).2.size = (run step m ops).2.toList.length ∧
      (run step m ops).2.evictions = (run (Ideal.step c o.limit?) ⟨[], 0⟩ ops).2.evictions ∧
      (∀ e ∈ (run step m ops).2.toList, e.2 ≠ []) ∧
      (run step m ops).2.values = count (run step m ops).2.toList ∧
      (run step m ops).2.values = (run step m ops).2.pairs.length ∧
      (run step m ops).2.Counted := by
  obtain ⟨f, hvalid⟩ := exists_ok hvalid
  obtain ⟨m, hm, hstart⟩ : ∃ m : MultiMap κ ν, _ := withComparer_stands hvalid c
  refine ⟨m, hm, fun ops => ?_⟩
  have hlimit := TableOptions.limit_pos hvalid
  obtain ⟨hreplies, hend⟩ := run_simulates
    (fun m s op (h : Stands c o.limit? m s) => step_stands h hc hlimit op) hstart ops
  obtain ⟨cells, hcells, hentries⟩ := hend.models
  refine ⟨hreplies, hend.toList_eq, ?_, hcells.evictions, ?_, ?_, ?_, hend.counted hc hlimit⟩
  · rw [hend.toList_eq, hentries, List.length_map]
    exact hcells.spells.size_eq
  · rw [hend.toList_eq]
    exact hend.filled
  · rw [hend.toList_eq]
    exact hend.values
  · rw [length_pairs, hend.toList_eq]
    exact hend.values

/-- In a full multimap of two keys, a new key drops the oldest one with both of its values, and
the next one goes with its last value. -/
theorem insert_evicts_all_values :
    (⟨2, .fixed, 0.75, .deterministic⟩ : TableOptions).check.isOk ∧
    ∃ m : MultiMap UInt64 Nat, withComparer ⟨2, .fixed, 0.75, .deterministic⟩ .natural = .ok m ∧
      (run step m [.insert 1 10, .insert 1 11, .insert 2 20, .insert 3 30, .insert 3 31,
        .removeValue 2 20]).2.toList = [(3, [30, 31])] ∧
      (run step m [.insert 1 10, .insert 1 11, .insert 2 20, .insert 3 30, .insert 3 31,
        .removeValue 2 20]).2.values = 2 := by
  have hvalid : (⟨2, .fixed, 0.75, .deterministic⟩ : TableOptions).check.isOk := by decide +kernel
  obtain ⟨m, hm, hruns⟩ : ∃ m : MultiMap UInt64 Nat, _ :=
    refines_multimap hvalid Comparer.natural_lawful
  obtain ⟨-, hentries, -, -, -, hvalues, -⟩ := hruns [.insert 1 10, .insert 1 11, .insert 2 20,
    .insert 3 30, .insert 3 31, .removeValue 2 20]
  rw [hentries] at hvalues
  refine ⟨hvalid, m, hm, hentries.trans ?_, hvalues.trans ?_⟩ <;> decide

end BoundedTables.MultiMap
