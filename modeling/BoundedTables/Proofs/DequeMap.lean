import BoundedTables.DequeMap
import BoundedTables.Proofs.Run
import BoundedTables.Proofs.Table.LinkedEntries

/-!
# Deque maps refine a list of entries

`DequeMap.Ideal` is a deque of entries with distinct keys, kept as a plain list, together with the
number of entries dropped so far. `Stands` relates a map to it: the cells of the linked table are
the entries of the list, in order. Every operation answers as the list does and keeps the relation
(`step_stands`), so a map answers every sequence of operations as the list does (`refines_deque`).
-/

namespace BoundedTables.DequeMap

open Hashing Table

variable {κ ν : Type}

/-- The operations of a deque map. -/
inductive Op (κ ν : Type) where
  | insert (key : κ) (value : ν)
  | pushBack (key : κ) (value : ν)
  | pushFront (key : κ) (value : ν)
  | popFront
  | popBack
  | peekFront
  | peekBack
  | moveToFront (key : κ)
  | moveToBack (key : κ)
  | remove (key : κ)
  | modify (key : κ) (f : ν → ν)
  | get (key : κ)
  | require (key : κ)
  | containsKey (key : κ)
  | clear

/-- The answers of a deque map. -/
inductive Reply (κ ν : Type) where
  | value (v : Option ν)
  | entry (e : Except TableError (κ × ν))
  | demanded (v : Except TableError ν)
  | present (b : Bool)
  | done

/-- Perform one operation. -/
def step (m : DequeMap κ ν) : Op κ ν → Reply κ ν × DequeMap κ ν
  | .insert key value => (m.insert key value).map .value id
  | .pushBack key value => (m.pushBack key value).map .value id
  | .pushFront key value => (m.pushFront key value).map .value id
  | .popFront => m.popFront.map .entry id
  | .popBack => m.popBack.map .entry id
  | .peekFront => (.entry m.peekFront, m)
  | .peekBack => (.entry m.peekBack, m)
  | .moveToFront key => (m.moveToFront key).map .present id
  | .moveToBack key => (m.moveToBack key).map .present id
  | .remove key => (m.remove key).map .value id
  | .modify key f => (m.modify key f).map .value id
  | .get key => (m.get key).map .value id
  | .require key => (m.require key).map .demanded id
  | .containsKey key => (m.containsKey key).map .present id
  | .clear => (.done, m.clear)

/-! ## The ideal deque -/

/-- The entries from front to back, and how many were dropped to make room. -/
structure Ideal (κ ν : Type) where
  entries : List (κ × ν)
  evictions : Nat

namespace Ideal

/-- Drop the entry at an end when a limit is reached. -/
def makeRoom (limit : Option Nat) (s : Ideal κ ν) (side : End) : Ideal κ ν :=
  if limit.any (· ≤ s.entries.length) then ⟨side.drop s.entries, s.evictions + 1⟩ else s

/-- Update a present key, moving it to an end if asked to, or add a new key at that end after
making room at the opposite one. -/
def upsert (c : Comparer κ) (limit : Option Nat) (s : Ideal κ ν) (key : κ) (value : ν) (side : End)
    (relocate : Bool) : Option ν × Ideal κ ν :=
  match EntryList.find? c key s.entries with
  | some e =>
      (some e.2,
        { s with
          entries :=
            if relocate then side.place (e.1, value) (EntryList.erase c key s.entries)
            else EntryList.modify c key (fun _ => value) s.entries })
  | none =>
      let s := s.makeRoom limit side.opposite
      (none, { s with entries := side.place (key, value) s.entries })

/-- The entry at an end. -/
def peek (s : Ideal κ ν) (side : End) : Except TableError (κ × ν) :=
  match side.peek s.entries with
  | some e => .ok e
  | none => .error .empty

/-- Take the entry at an end. -/
def pop (s : Ideal κ ν) (side : End) : Except TableError (κ × ν) × Ideal κ ν :=
  (s.peek side, { s with entries := side.drop s.entries })

/-- Move a key to an end. -/
def moveKey (c : Comparer κ) (s : Ideal κ ν) (key : κ) (side : End) : Bool × Ideal κ ν :=
  match EntryList.find? c key s.entries with
  | some e => (true, { s with entries := side.place e (EntryList.erase c key s.entries) })
  | none => (false, s)

/-- The value of a key, or an error. -/
def require (c : Comparer κ) (s : Ideal κ ν) (key : κ) : Except TableError ν :=
  match EntryList.value? c key s.entries with
  | some v => .ok v
  | none => .error .keyNotFound

/-- Perform one operation, under a comparer and a limit on the number of entries. -/
def step (c : Comparer κ) (limit : Option Nat) (s : Ideal κ ν) : Op κ ν → Reply κ ν × Ideal κ ν
  | .insert key value => (s.upsert c limit key value .back false).map .value id
  | .pushBack key value => (s.upsert c limit key value .back true).map .value id
  | .pushFront key value => (s.upsert c limit key value .front true).map .value id
  | .popFront => (s.pop .front).map .entry id
  | .popBack => (s.pop .back).map .entry id
  | .peekFront => (.entry (s.peek .front), s)
  | .peekBack => (.entry (s.peek .back), s)
  | .moveToFront key => (s.moveKey c key .front).map .present id
  | .moveToBack key => (s.moveKey c key .back).map .present id
  | .remove key =>
      (.value (EntryList.value? c key s.entries),
        { s with entries := EntryList.erase c key s.entries })
  | .modify key f =>
      (.value ((EntryList.value? c key s.entries).map f),
        { s with entries := EntryList.modify c key f s.entries })
  | .get key => (.value (EntryList.value? c key s.entries), s)
  | .require key => (.demanded (s.require c key), s)
  | .containsKey key => (.present (EntryList.value? c key s.entries).isSome, s)
  | .clear => (.done, { s with entries := [] })

end Ideal

/-! ## The relation -/

/-- A map stands for an ideal deque. -/
def Stands (c : Comparer κ) (limit : Option Nat) (m : DequeMap κ ν) (s : Ideal κ ν) : Prop :=
  ∃ cells, LinkedTable.Models c limit m.table cells s.evictions ∧ s.entries = cells.map (·.2)

variable {c : Comparer κ} {limit : Option Nat}

/-- Room for one more entry is made at an end exactly when the limit is reached. -/
theorem makeRoom_models {t : LinkedTable κ ν} {cells : List (LinkedTable.Cell κ ν)}
    {evictions : Nat} (h : LinkedTable.Models c limit t cells evictions)
    (hlimit : ∀ n ∈ limit, 0 < n) (side : End) : ∃ cells' evictions',
    LinkedTable.Models c limit (if t.isFull then (t.evict side).2 else t) cells' evictions' ∧
      cells'.Sublist cells ∧
      Ideal.makeRoom limit ⟨cells.map (·.2), evictions⟩ side =
        ⟨cells'.map (·.2), evictions'⟩ := by
  rw [h.isFull_eq]
  unfold Ideal.makeRoom
  rw [List.length_map]
  by_cases hany : limit.any (· ≤ cells.length) = true
  · rw [if_pos hany, if_pos hany]
    obtain ⟨i, e, rest, node, t', rfl, -, hevict, hm⟩ := h.evict hlimit hany side
    refine ⟨rest, evictions + 1, ?_, side.sublist_place (i, e) rest, ?_⟩
    · rw [hevict]
      exact hm
    · rw [End.map_place, End.drop_place]
  · rw [if_neg hany, if_neg hany]
    exact ⟨cells, evictions, h, List.Sublist.refl _, rfl⟩

/-! ## Each operation -/

section Operations

variable {m : DequeMap κ ν} {s : Ideal κ ν} {value : ν} {side : End}

/-- An insertion answers and changes what the ideal insertion does. -/
theorem upsert_stands (h : Stands c limit m s) (hc : c.Lawful) (hlimit : ∀ n ∈ limit, 0 < n)
    (key : κ) (value : ν) (side : End) (relocate : Bool) :
    (m.upsert key value side relocate).1 = (s.upsert c limit key value side relocate).1 ∧
      Stands c limit (m.upsert key value side relocate).2
        (s.upsert c limit key value side relocate).2 := by
  obtain ⟨t⟩ := m
  obtain ⟨entries, evictions⟩ := s
  obtain ⟨cells, hm, rfl⟩ := h
  have hhash : t.hasher.hash key = c.code key := by rw [KeyHasher.hash, hm.comparer]
  rcases hm.lookup hc key with ⟨t', hl, hm', habsent⟩ |
    ⟨before, i, e, after, t', hl, hm', rfl, hsplit⟩
  · rw [LinkedTable.lookup, hhash] at hl
    obtain ⟨cells', evictions', hroom, hsub, hideal⟩ := makeRoom_models hm' hlimit side.opposite
    -- dropping an entry does not bring the key in
    have habsent' : EntryList.Absent c key (cells'.map (·.2)) := fun x hx =>
      habsent x ((hsub.map _).subset hx)
    obtain ⟨i, hattached⟩ := hroom.attach hc habsent' value side
    simp only [upsert, Ideal.upsert, hhash, hl, habsent.find?_eq, hideal]
    exact ⟨trivial, _, hattached, by rw [End.map_place]⟩
  · rw [LinkedTable.lookup, hhash] at hl
    simp only [upsert, Ideal.upsert, hhash, hl, hsplit.find?_eq, hm'.entry?_eq, Option.map_some]
    refine ⟨trivial, ?_⟩
    have hchanged := hm'.modifyValue fun _ => value
    cases relocate with
    | false =>
        refine ⟨_, hchanged.same (LinkedTable.touch_sameContents _), ?_⟩
        rw [if_neg Bool.false_ne_true, hsplit.modify_eq, List.map_append, List.map_cons]
    | true =>
        refine ⟨_, hchanged.moveTo hc side, ?_⟩
        rw [if_pos rfl, hsplit.erase_eq, End.map_place, List.map_append]

/-- The entry at an end is that of the ideal list. -/
theorem peek_stands (h : Stands c limit m s) (side : End) : m.peek side = s.peek side := by
  obtain ⟨t⟩ := m
  obtain ⟨entries, evictions⟩ := s
  obtain ⟨cells, hm, rfl⟩ := h
  simp only [peek, Ideal.peek]
  rcases eq_or_ne cells [] with rfl | hne
  · rw [hm.spells.slotAt_nil]
    cases side <;> rfl
  · obtain ⟨⟨i, e⟩, rest, rfl⟩ := side.exists_place hne
    have hentry := hm.spells.entry (i, e) ((side.place_perm _ _).mem_iff.mpr (by simp))
    rw [hm.spells.detach_end.1, Option.bind_some, hentry, End.map_place, End.peek_place]

/-- Taking an entry off an end takes it off the ideal list. -/
theorem pop_stands (h : Stands c limit m s) (side : End) :
    (m.pop side).1 = (s.pop side).1 ∧ Stands c limit (m.pop side).2 (s.pop side).2 := by
  obtain ⟨t⟩ := m
  obtain ⟨entries, evictions⟩ := s
  obtain ⟨cells, hm, rfl⟩ := h
  simp only [pop, Ideal.pop, Ideal.peek]
  rcases eq_or_ne cells [] with rfl | hne
  · rw [hm.spells.slotAt_nil]
    exact ⟨by cases side <;> rfl, [], hm, by cases side <;> rfl⟩
  · obtain ⟨⟨i, e⟩, rest, rfl⟩ := side.exists_place hne
    obtain ⟨hslot, node, t', hdetach, rfl, hsetup, hspells⟩ := hm.spells.detach_end
    simp only [hslot, hdetach, End.map_place, End.peek_place, End.drop_place]
    refine ⟨trivial, rest, hm.next hsetup hspells ?_, rfl⟩
    exact hm.distinct.sublist ((side.sublist_place _ _).map _)

/-- Moving a key to an end moves it in the ideal list. -/
theorem moveKey_stands (h : Stands c limit m s) (hc : c.Lawful) (key : κ) (side : End) :
    (m.moveKey key side).1 = (s.moveKey c key side).1 ∧
      Stands c limit (m.moveKey key side).2 (s.moveKey c key side).2 := by
  obtain ⟨t⟩ := m
  obtain ⟨entries, evictions⟩ := s
  obtain ⟨cells, hm, rfl⟩ := h
  rcases hm.lookup hc key with ⟨t', hl, hm', habsent⟩ |
    ⟨before, i, e, after, t', hl, hm', rfl, hsplit⟩
  · simp only [moveKey, Ideal.moveKey, hl, habsent.find?_eq]
    exact ⟨trivial, cells, hm', rfl⟩
  · simp only [moveKey, Ideal.moveKey, hl, hsplit.find?_eq]
    refine ⟨trivial, _, hm'.moveTo hc side, ?_⟩
    rw [hsplit.erase_eq, End.map_place, List.map_append]

/-- A removal returns the value that the ideal list has for the key, and erases the entry. -/
theorem remove_stands (h : Stands c limit m s) (hc : c.Lawful) (key : κ) :
    (m.remove key).1 = EntryList.value? c key s.entries ∧
      Stands c limit (m.remove key).2
        { s with entries := EntryList.erase c key s.entries } := by
  obtain ⟨t⟩ := m
  obtain ⟨entries, evictions⟩ := s
  obtain ⟨cells, hm, rfl⟩ := h
  rcases hm.lookup hc key with ⟨t', hl, hm', habsent⟩ |
    ⟨before, i, e, after, t', hl, hm', rfl, hsplit⟩
  · simp only [remove, hl, habsent.value?_eq, habsent.erase_eq]
    exact ⟨trivial, cells, hm', rfl⟩
  · obtain ⟨node, t'', hdetach, rfl, hm''⟩ := hm'.detach
    simp only [remove, hl, hdetach, hsplit.value?_eq, hsplit.erase_eq, Option.map_some]
    exact ⟨trivial, before ++ after, hm'', by simp⟩

/-- A modification changes the value of the key in the ideal list. -/
theorem modify_stands (h : Stands c limit m s) (hc : c.Lawful) (key : κ) (f : ν → ν) :
    (m.modify key f).1 = (EntryList.value? c key s.entries).map f ∧
      Stands c limit (m.modify key f).2
        { s with entries := EntryList.modify c key f s.entries } := by
  obtain ⟨t⟩ := m
  obtain ⟨entries, evictions⟩ := s
  obtain ⟨cells, hm, rfl⟩ := h
  rcases hm.lookup hc key with ⟨t', hl, hm', habsent⟩ |
    ⟨before, i, e, after, t', hl, hm', rfl, hsplit⟩
  · simp only [modify, hl, habsent.value?_eq, habsent.modify_eq, Option.map_none]
    exact ⟨trivial, cells, hm', rfl⟩
  · have hchanged := hm'.modifyValue f
    simp only [modify, hl, hchanged.entry?_eq, hsplit.value?_eq, hsplit.modify_eq,
      Option.map_some]
    exact ⟨trivial, _, hchanged, by simp⟩

/-- A lookup returns the value that the ideal list has for the key, and changes no entry. -/
theorem get_stands (h : Stands c limit m s) (hc : c.Lawful) (key : κ) :
    (m.get key).1 = EntryList.value? c key s.entries ∧ Stands c limit (m.get key).2 s := by
  obtain ⟨t⟩ := m
  obtain ⟨entries, evictions⟩ := s
  obtain ⟨cells, hm, rfl⟩ := h
  rcases hm.lookup hc key with ⟨t', hl, hm', habsent⟩ |
    ⟨before, i, e, after, t', hl, hm', rfl, hsplit⟩
  · simp only [get, hl, habsent.value?_eq, Option.bind_none, Option.map_none]
    exact ⟨trivial, cells, hm', rfl⟩
  · simp only [get, hl, hsplit.value?_eq, Option.bind_some, hm'.entry?_eq, Option.map_some]
    exact ⟨trivial, _, hm', rfl⟩

/-- A lookup that requires its key fails when the ideal one does, and changes no entry. -/
theorem require_stands (h : Stands c limit m s) (hc : c.Lawful) (key : κ) :
    (m.require key).1 = s.require c key ∧ Stands c limit (m.require key).2 s := by
  obtain ⟨hvalue, hnext⟩ := get_stands h hc key
  unfold require Ideal.require
  rw [← hvalue]
  revert hnext
  rcases m.get key with ⟨⟨⟩ | v, m'⟩ <;> exact fun hnext => ⟨rfl, hnext⟩

/-- A key is found when the ideal list has a value for it. -/
theorem containsKey_stands (h : Stands c limit m s) (hc : c.Lawful) (key : κ) :
    (m.containsKey key).1 = (EntryList.value? c key s.entries).isSome ∧
      Stands c limit (m.containsKey key).2 s := by
  obtain ⟨t⟩ := m
  obtain ⟨entries, evictions⟩ := s
  obtain ⟨cells, hm, rfl⟩ := h
  rcases hm.lookup hc key with ⟨t', hl, hm', habsent⟩ |
    ⟨before, i, e, after, t', hl, hm', rfl, hsplit⟩
  · simp only [containsKey, hl, habsent.value?_eq]
    exact ⟨rfl, cells, hm', rfl⟩
  · simp only [containsKey, hl, hsplit.value?_eq]
    exact ⟨rfl, _, hm', rfl⟩

/-- A cleared map stands for the empty list. -/
theorem clear_stands (h : Stands c limit m s) :
    Stands c limit m.clear { s with entries := [] } := by
  obtain ⟨cells, hm, -⟩ := h
  refine ⟨[], hm.next (LinkedTable.clear_sameSetup m.table) (LinkedTable.clear_spells m.table) ?_,
    rfl⟩
  exact List.Pairwise.nil

/-- Every operation answers as the ideal deque does. -/
theorem step_stands (h : Stands c limit m s) (hc : c.Lawful) (hlimit : ∀ n ∈ limit, 0 < n)
    (op : Op κ ν) : (m.step op).1 = (s.step c limit op).1 ∧
      Stands c limit (m.step op).2 (s.step c limit op).2 := by
  cases op with
  | insert key value =>
      obtain ⟨hreply, hnext⟩ := upsert_stands h hc hlimit key value .back false
      exact ⟨congrArg Reply.value hreply, hnext⟩
  | pushBack key value =>
      obtain ⟨hreply, hnext⟩ := upsert_stands h hc hlimit key value .back true
      exact ⟨congrArg Reply.value hreply, hnext⟩
  | pushFront key value =>
      obtain ⟨hreply, hnext⟩ := upsert_stands h hc hlimit key value .front true
      exact ⟨congrArg Reply.value hreply, hnext⟩
  | popFront =>
      obtain ⟨hreply, hnext⟩ := pop_stands h .front
      exact ⟨congrArg Reply.entry hreply, hnext⟩
  | popBack =>
      obtain ⟨hreply, hnext⟩ := pop_stands h .back
      exact ⟨congrArg Reply.entry hreply, hnext⟩
  | peekFront => exact ⟨congrArg Reply.entry (peek_stands h .front), h⟩
  | peekBack => exact ⟨congrArg Reply.entry (peek_stands h .back), h⟩
  | moveToFront key =>
      obtain ⟨hreply, hnext⟩ := moveKey_stands h hc key .front
      exact ⟨congrArg Reply.present hreply, hnext⟩
  | moveToBack key =>
      obtain ⟨hreply, hnext⟩ := moveKey_stands h hc key .back
      exact ⟨congrArg Reply.present hreply, hnext⟩
  | remove key =>
      obtain ⟨hreply, hnext⟩ := remove_stands h hc key
      exact ⟨congrArg Reply.value hreply, hnext⟩
  | modify key f =>
      obtain ⟨hreply, hnext⟩ := modify_stands h hc key f
      exact ⟨congrArg Reply.value hreply, hnext⟩
  | get key =>
      obtain ⟨hreply, hnext⟩ := get_stands h hc key
      exact ⟨congrArg Reply.value hreply, hnext⟩
  | require key =>
      obtain ⟨hreply, hnext⟩ := require_stands h hc key
      exact ⟨congrArg Reply.demanded hreply, hnext⟩
  | containsKey key =>
      obtain ⟨hreply, hnext⟩ := containsKey_stands h hc key
      exact ⟨congrArg Reply.present hreply, hnext⟩
  | clear => exact ⟨rfl, clear_stands h⟩

end Operations

/-! ## Runs -/

variable {o : TableOptions} {f : Sizing.LoadFactor}

/-- A new map stands for an empty deque. -/
theorem withComparer_stands (hvalid : o.check = .ok f) (c : Comparer κ) :
    ∃ m : DequeMap κ ν, withComparer o c = .ok m ∧ Stands c o.limit? m ⟨[], 0⟩ := by
  refine ⟨⟨LinkedTable.build o f (KeyHasher.withComparer o.hashing c).1
    (KeyHasher.withComparer o.hashing c).2⟩, ?_, [],
    LinkedTable.build_models o f (KeyHasher.withComparer o.hashing c).1 _, rfl⟩
  rw [withComparer, LinkedTable.withComparer, hvalid]
  rfl

/-- A new map stands for an empty deque, under the comparer that the policy chooses. -/
theorem new_stands [ByteHash] [ByteKey κ] [DecidableEq κ] {seed : Seed} {m : DequeMap κ ν}
    (h : new o seed = .ok m) :
    Stands (KeyHasher.ofPolicy o.hashing seed).comparer o.limit? m ⟨[], 0⟩ := by
  obtain ⟨t, ht, rfl⟩ := exists_ok_of_map h
  exact ⟨[], LinkedTable.new_models ht, rfl⟩

/-- The entries from front to back are those of the ideal list. -/
theorem Stands.toList_eq {m : DequeMap κ ν} {s : Ideal κ ν} (h : Stands c limit m s) :
    m.toList = s.entries := by
  obtain ⟨cells, hm, hentries⟩ := h
  rw [hentries]
  exact hm.spells.toList_eq

/-- The entries from back to front are those of the ideal list in reverse. -/
theorem Stands.toListBack_eq {m : DequeMap κ ν} {s : Ideal κ ν} (h : Stands c limit m s) :
    m.toListBack = s.entries.reverse := by
  obtain ⟨cells, hm, hentries⟩ := h
  rw [hentries]
  exact hm.spells.toListBack_eq

/-- The size is the length of the ideal list. -/
theorem Stands.size_eq {m : DequeMap κ ν} {s : Ideal κ ν} (h : Stands c limit m s) :
    m.size = s.entries.length := by
  obtain ⟨cells, hm, hentries⟩ := h
  rw [hentries, List.length_map]
  exact hm.spells.size_eq

/-- A deque map answers every sequence of operations as a list of entries does, and its entries
and evictions are those of the list. -/
theorem refines_deque (hvalid : o.check.isOk) (hc : c.Lawful) :
    ∃ m : DequeMap κ ν, withComparer o c = .ok m ∧ ∀ ops : List (Op κ ν),
      (run step m ops).1 = (run (Ideal.step c o.limit?) ⟨[], 0⟩ ops).1 ∧
      (run step m ops).2.toList = (run (Ideal.step c o.limit?) ⟨[], 0⟩ ops).2.entries ∧
      (run step m ops).2.toListBack = (run step m ops).2.toList.reverse ∧
      (run step m ops).2.size = (run step m ops).2.toList.length ∧
      (run step m ops).2.evictions = (run (Ideal.step c o.limit?) ⟨[], 0⟩ ops).2.evictions := by
  obtain ⟨f, hvalid⟩ := exists_ok hvalid
  obtain ⟨m, hm, hstart⟩ : ∃ m : DequeMap κ ν, _ := withComparer_stands hvalid c
  refine ⟨m, hm, fun ops => ?_⟩
  obtain ⟨hreplies, hend⟩ := run_simulates
    (fun m s op (h : Stands c o.limit? m s) => step_stands h hc (TableOptions.limit_pos hvalid) op)
    hstart ops
  refine ⟨hreplies, hend.toList_eq, by rw [hend.toListBack_eq, hend.toList_eq], ?_, ?_⟩
  · obtain ⟨cells, hcells, hentries⟩ := hend
    rw [toList, hcells.spells.toList_eq, List.length_map]
    exact hcells.spells.size_eq
  · obtain ⟨cells, hcells, -⟩ := hend
    exact hcells.evictions

/-- In a full deque of two entries, a key pushed to the front evicts the back entry, and the one
that came before it stays. -/
theorem pushFront_evicts_back :
    (⟨2, .fixed, 0.75, .deterministic⟩ : TableOptions).check.isOk ∧
    ∃ m : DequeMap UInt64 Nat, withComparer ⟨2, .fixed, 0.75, .deterministic⟩ .natural = .ok m ∧
      (run step m [.insert 1 10, .pushBack 2 20, .pushFront 3 30]).2.toList = [(3, 30), (1, 10)] ∧
      (run step m [.insert 1 10, .pushBack 2 20, .pushFront 3 30]).2.evictions = 1 := by
  have hvalid : (⟨2, .fixed, 0.75, .deterministic⟩ : TableOptions).check.isOk := by decide +kernel
  obtain ⟨m, hm, hruns⟩ : ∃ m : DequeMap UInt64 Nat, _ :=
    refines_deque hvalid Comparer.natural_lawful
  obtain ⟨-, hentries, -, -, hevictions⟩ := hruns [.insert 1 10, .pushBack 2 20, .pushFront 3 30]
  refine ⟨hvalid, m, hm, hentries.trans ?_, hevictions.trans ?_⟩ <;> decide

end BoundedTables.DequeMap
