import BoundedTables.Proofs.EntryList
import BoundedTables.Proofs.ProbeMap.Iteration
import BoundedTables.Proofs.ProbeMap.Options
import BoundedTables.Proofs.ProbeMap.Rebuild
import BoundedTables.Proofs.Run

/-!
# Probe maps refine a list of entries

`Stands` relates a map to a list of entries with distinct keys: the table is sound, every hash is
that of its key, and the entries are those of the list, in any order. Every operation that
succeeds answers as the list does and keeps the relation (`step_stands`), so a map answers every
run of operations that succeeds as the list does (`refines_map`). An insertion only fails when the
table cannot grow, and fewer than sixteen operations on a new map succeed whatever they are
(`short_run_succeeds`).
-/

namespace BoundedTables.ProbeMap

open Hashing Sizing

variable {κ ν : Type}

/-- The operations of a probe map. -/
inductive Op (κ ν : Type) where
  | insert (key : κ) (value : ν)
  | remove (key : κ)
  | get (key : κ)
  | require (key : κ)
  | modify (key : κ) (f : ν → ν)
  | containsKey (key : κ)
  | clear

/-- The answers of a probe map. -/
inductive Reply (ν : Type) where
  | value (v : Option ν)
  | demanded (v : Except TableError ν)
  | present (b : Bool)
  | done

/-- Perform one operation, unless it is refused or has no result. -/
def step (m : ProbeMap κ ν) : Op κ ν → Option (Reply ν × ProbeMap κ ν)
  | .insert key value =>
      match m.insert key value with
      | (.ok v, m) => some (.value v, m)
      | (.error _, _) => none
  | .remove key => (m.remove key).map (Prod.map .value id)
  | .get key => some ((m.get key).map .value id)
  | .require key => some ((m.require key).map .demanded id)
  | .modify key f => some ((m.modify key f).map .value id)
  | .containsKey key => some ((m.containsKey key).map .present id)
  | .clear => some (.done, m.clear)

/-! ## The ideal map -/

namespace Ideal

/-- Change the value of a present key, or add a new one. -/
def insert (c : Comparer κ) (key : κ) (value : ν) (s : List (κ × ν)) : List (κ × ν) :=
  match EntryList.find? c key s with
  | some _ => EntryList.modify c key (fun _ => value) s
  | none => (key, value) :: s

/-- The value of a key, or an error. -/
def require (c : Comparer κ) (key : κ) (s : List (κ × ν)) : Except TableError ν :=
  match EntryList.value? c key s with
  | some v => .ok v
  | none => .error .keyNotFound

/-- Perform one operation on the entries, under a comparer. -/
def step (c : Comparer κ) (s : List (κ × ν)) : Op κ ν → Reply ν × List (κ × ν)
  | .insert key value => (.value (EntryList.value? c key s), insert c key value s)
  | .remove key => (.value (EntryList.value? c key s), EntryList.erase c key s)
  | .get key => (.value (EntryList.value? c key s), s)
  | .require key => (.demanded (require c key s), s)
  | .modify key f => (.value ((EntryList.value? c key s).map f), EntryList.modify c key f s)
  | .containsKey key => (.present (EntryList.value? c key s).isSome, s)
  | .clear => (.done, [])

/-- Inserting an absent key puts its entry in front. -/
theorem insert_of_absent {c : Comparer κ} {key : κ} {s : List (κ × ν)}
    (h : EntryList.Absent c key s) (value : ν) : insert c key value s = (key, value) :: s := by
  rw [insert, h.find?_eq]

/-- Inserting a present key replaces its value. -/
theorem insert_of_present {c : Comparer κ} {key : κ} {s : List (κ × ν)} {v : ν}
    (h : EntryList.value? c key s = some v) (value : ν) :
    insert c key value s = EntryList.modify c key (fun _ => value) s := by
  obtain ⟨e, hfind, -⟩ := Option.map_eq_some_iff.mp h
  rw [insert, hfind]

end Ideal

/-! ## The relation -/

/-- A map stands for a list of entries. -/
structure Stands (c : Comparer κ) (m : ProbeMap κ ν) (s : List (κ × ν)) : Prop where
  sound : m.Sound
  comparer : m.hasher.comparer = c
  hashed : ∀ e ∈ m.entries, e.hash = c.code e.key
  distinct : EntryList.Distinct c m.pairs
  perm : m.pairs.Perm s

variable {c : Comparer κ} {m m' : ProbeMap κ ν} {s s' : List (κ × ν)} {e e' : ProbeEntry κ ν}
  {front back : List (ProbeEntry κ ν)} {key : κ} {value : ν} {i : Nat}

/-- The list has for a key what the slots have for it. -/
theorem Stands.value?_eq (h : Stands c m s) (hc : c.Lawful) (key : κ) :
    EntryList.value? c key s = EntryList.value? c key m.pairs := by
  rw [EntryList.value?, EntryList.value?, h.distinct.find?_perm hc h.perm]

/-- A lookup leaves a map that stands for the same list. -/
theorem Stands.same (h : Stands c m s) (hs : m.SameTable m') : Stands c m' s := by
  have hsound := h.sound.same hs
  obtain ⟨_, _, _, hcomparer, rfl⟩ := hs
  exact ⟨hsound, hcomparer.trans h.comparer, h.hashed, h.distinct, h.perm⟩

/-- The same entries in other slots stand for the same list. -/
theorem Stands.moved (h : Stands c m s) (hc : c.Lawful) (hsound : m'.Sound)
    (hhasher : m'.hasher = m.hasher) (hentries : m'.entries.Perm m.entries) : Stands c m' s where
  sound := hsound
  comparer := by rw [hhasher, h.comparer]
  hashed e he := h.hashed e (hentries.mem_iff.mp he)
  distinct := h.distinct.perm hc (hentries.map _).symm
  perm := (hentries.map _).trans h.perm

/-- The entry of a key stands between two parts of the entries without it. -/
theorem Stands.split (h : Stands c m s) (hc : c.Lawful) (hentries : m.entries = front ++ e :: back)
    (hkey : c.equals e.key key = true) :
    EntryList.Split c key m.pairs (front.map ProbeEntry.pair) e.pair
      (back.map ProbeEntry.pair) := by
  have hdistinct := h.distinct
  rw [pairs, hentries, List.map_append, List.map_cons] at hdistinct ⊢
  exact hdistinct.split hc hkey

/-- The list has the value of any slot that holds the key. -/
theorem Stands.value?_of_slot (h : Stands c m s) (hc : c.Lawful)
    (hi : m.slots[i]? = some (.occupied e)) (hkey : c.equals e.key key = true) :
    EntryList.value? c key s = some e.value := by
  obtain ⟨front, back, hentries⟩ := List.append_of_mem (mem_entriesOf.mpr ⟨i, hi⟩)
  rw [h.value?_eq hc, (h.split hc hentries hkey).value?_eq]
  rfl

/-- A lookup finds the slot of a key, or tells that it is absent. -/
theorem Stands.lookup (h : Stands c m s) (hc : c.Lawful) (key : κ) :
    ∃ m', m.SameTable m' ∧ Stands c m' s ∧
      ((m.lookup key = (none, m') ∧ EntryList.Absent c key s) ∨
        ∃ i e, m.lookup key = (some i, m') ∧ m'.slots[i]? = some (.occupied e) ∧
          c.equals e.key key = true) := by
  have hcomparer := h.comparer
  obtain ⟨m', hs, hfind⟩ := h.sound.searchable.find key (m.hasher.hash key)
  refine ⟨m', hs, h.same hs, ?_⟩
  rw [hcomparer] at hfind
  rcases hfind with ⟨hfind, hmissed⟩ | ⟨i, e, hfind, hi, -, hequals⟩
  · refine .inl ⟨hfind, fun pair hpair => ?_⟩
    obtain ⟨e, he, rfl⟩ := List.mem_map.mp (h.perm.mem_iff.mpr hpair)
    rw [Comparer.hasKey, ProbeEntry.pair]
    by_contra hequals
    rw [Bool.not_eq_false] at hequals
    -- an equal key has the same hash, so the search would have seen its entry
    have hhash : e.hash = m.hasher.hash key := by
      rw [h.hashed e he, hc.code_eq hequals, KeyHasher.hash, hcomparer]
    rw [hmissed e he hhash] at hequals
    cases hequals
  · obtain ⟨_, _, _, _, rfl⟩ := hs
    exact .inr ⟨i, e, hfind, hi, hequals⟩

/-! ## Each operation -/

/-- Changing the value in a slot changes the value of its key. -/
theorem Stands.modifySlot (h : Stands c m s) (hc : c.Lawful)
    (hi : m.slots[i]? = some (.occupied e)) (hkey : c.equals e.key key = true) (f : ν → ν)
    (version : UInt64) :
    Stands c { m with slots := ProbeMap.modifySlot m.slots i f, version }
      (EntryList.modify c key f s) := by
  obtain ⟨hsound, front, back, hentries, hwrite⟩ := h.sound.modifySlot hi f version
  have hsplit := h.split hc hentries hkey
  have hpairs : ({ m with slots := ProbeMap.modifySlot m.slots i f, version } :
      ProbeMap κ ν).pairs = EntryList.modify c key f m.pairs := by
    rw [hsplit.modify_eq, pairs, entries, ← entriesOf, hwrite, List.map_append, List.map_cons]
    rfl
  refine ⟨hsound, h.comparer, fun a ha => ?_, ?_, ?_⟩
  · rw [entries, ← entriesOf, hwrite] at ha
    have hhashed := h.hashed
    rw [hentries] at hhashed
    rcases List.mem_append.mp ha with ha | ha
    · exact hhashed a (List.mem_append_left _ ha)
    · rcases List.mem_cons.mp ha with rfl | ha
      · exact hhashed e (by simp)
      · exact hhashed a (List.mem_append_right _ (List.mem_cons_of_mem _ ha))
  · rw [hpairs]
    exact h.distinct.modify key f
  · rw [hpairs]
    exact h.perm.map _

/-- A new key joins the others. -/
theorem Stands.add (h : Stands c m s) (hc : c.Lawful) (habsent : EntryList.Absent c key s)
    (hsound : m'.Sound) (hhasher : m'.hasher = m.hasher)
    (hentries : m'.entries.Perm (⟨key, value, c.code key⟩ :: m.entries)) :
    Stands c m' ((key, value) :: s) := by
  have hpairs : m'.pairs.Perm ((key, value) :: m.pairs) := hentries.map ProbeEntry.pair
  refine ⟨hsound, by rw [hhasher, h.comparer], fun e he => ?_, ?_, ?_⟩
  · rcases List.mem_cons.mp (hentries.mem_iff.mp he) with rfl | he
    · rfl
    · exact h.hashed e he
  · refine (h.distinct.cons hc (fun pair hpair => ?_) value).perm hc hpairs.symm
    exact habsent pair (h.perm.mem_iff.mp hpair)
  · exact hpairs.trans (h.perm.cons _)

/-- Removing the key in a slot removes its entry. -/
theorem Stands.vacate (h : Stands c m s) (hc : c.Lawful) (hi : m.slots[i]? = some (.occupied e))
    (hkey : c.equals e.key key = true) : Stands c (m.vacate i) (EntryList.erase c key s) := by
  obtain ⟨hsound, front, back, hentries, hrest⟩ := h.sound.vacate hi
  have hpairs : (m.vacate i).pairs = EntryList.erase c key m.pairs := by
    rw [(h.split hc hentries hkey).erase_eq, pairs, hrest, List.map_append]
  refine ⟨hsound, h.comparer, fun a ha => h.hashed a ?_, ?_, ?_⟩
  · rw [hrest] at ha
    rw [hentries]
    exact (List.Sublist.append_left (List.sublist_cons_self e back) front).subset ha
  · rw [hpairs]
    exact h.distinct.erase key
  · rw [hpairs]
    exact h.perm.filter _

/-- Inserting a key that was not found takes a new entry in. -/
theorem insert_of_missed {m₁ : ProbeMap κ ν} (hl : m.lookup key = (none, m₁)) (value : ν) :
    m.insert key value = m₁.insertNew ⟨key, value, m.hasher.hash key⟩ := by
  rw [lookup] at hl
  rw [insert, hl]

/-- Inserting a key that was found replaces the value in its slot and returns the old one. -/
theorem insert_of_found {m₁ : ProbeMap κ ν} (hl : m.lookup key = (some i, m₁)) (value : ν) :
    m.insert key value = (.ok (m₁.value? i), { m₁ with
      slots := ProbeMap.modifySlot m₁.slots i fun _ => value
      version := m₁.version + 1 }) := by
  rw [lookup] at hl
  rw [insert, hl]

/-- An insertion updates or adds its key, or the table cannot grow and nothing changes. -/
theorem insert_stands (h : Stands c m s) (hc : c.Lawful) (key : κ) (value : ν) : ∃ m',
    m'.removals = m.removals ∧ m'.slots.size ≤ 4 * m.slots.size ∧
    ((m.insert key value = (.ok (EntryList.value? c key s), m') ∧
        Stands c m' (Ideal.insert c key value s)) ∨
      (m.insert key value = (.error (.capacityExhausted m'.slots.size), m') ∧ Stands c m' s ∧
        EntryList.Absent c key s ∧ maxPowerOfTwo < 2 * m'.slots.size)) := by
  have hhash : m.hasher.hash key = c.code key := by rw [KeyHasher.hash, h.comparer]
  obtain ⟨m₁, hs, h₁, ⟨hl, habsent⟩ | ⟨i, e, hl, hi, hkey⟩⟩ := h.lookup hc key
  · obtain ⟨m', hsound, hhasher, hremovals, -, hsize, hnew⟩ :=
      h₁.sound.insertNew ⟨key, value, m.hasher.hash key⟩
    rw [hs.slots_eq] at hsize
    rw [insert_of_missed hl]
    rw [hhash] at hnew ⊢
    refine ⟨m', hremovals.trans hs.removals_eq, hsize, ?_⟩
    rcases hnew with ⟨hnew, -, hentries⟩ | ⟨hnew, -, hentries, hfull⟩
    · refine .inl ⟨?_, ?_⟩
      · rw [hnew, habsent.value?_eq]
      · rw [Ideal.insert_of_absent habsent]
        exact h₁.add hc habsent hsound hhasher hentries
    · exact .inr ⟨hnew, h₁.moved hc hsound hhasher hentries, habsent, hfull⟩
  · have hvalue := h₁.value?_of_slot hc hi hkey
    refine ⟨_, ?_, ?_, .inl ⟨(insert_of_found hl value).trans (by rw [value?_eq hi, hvalue]), ?_⟩⟩
    · exact hs.removals_eq
    · rw [modifySlot_size, hs.slots_eq]
      omega
    · rw [Ideal.insert_of_present hvalue]
      exact h₁.modifySlot hc hi hkey (fun _ => value) _

/-- A removal that has a result removes its key. -/
theorem remove_stands (h : Stands c m s) (hc : c.Lawful) {v : Option ν}
    (hremove : m.remove key = some (v, m')) :
    v = EntryList.value? c key s ∧ Stands c m' (EntryList.erase c key s) := by
  unfold ProbeMap.remove at hremove
  obtain ⟨m₁, -, h₁, ⟨hl, habsent⟩ | ⟨i, e, hl, hi, hkey⟩⟩ := h.lookup hc key
  · rw [hl] at hremove
    cases hremove
    exact ⟨habsent.value?_eq.symm, by rwa [habsent.erase_eq]⟩
  · rw [hl] at hremove
    dsimp only at hremove
    rw [value?_eq hi, ← h₁.value?_of_slot hc hi hkey] at hremove
    have hvacated := h₁.vacate hc hi hkey
    split at hremove
    · obtain ⟨m₂, hmaintain, heq⟩ := Option.map_eq_some_iff.mp hremove
      cases heq
      obtain ⟨hsound, hmoved⟩ := hvacated.sound.maintain hmaintain
      exact ⟨rfl, hvacated.moved hc hsound hmoved.hasher_eq hmoved.entries⟩
    · cases hremove
      exact ⟨rfl, hvacated⟩

/-- A lookup returns the value that the list has for the key, and changes no entry. -/
theorem get_stands (h : Stands c m s) (hc : c.Lawful) (key : κ) :
    (m.get key).1 = EntryList.value? c key s ∧ Stands c (m.get key).2 s := by
  unfold ProbeMap.get
  obtain ⟨m₁, -, h₁, ⟨hl, habsent⟩ | ⟨i, e, hl, hi, hkey⟩⟩ := h.lookup hc key
  · rw [hl, habsent.value?_eq]
    exact ⟨rfl, h₁⟩
  · rw [hl, h₁.value?_of_slot hc hi hkey]
    exact ⟨value?_eq hi, h₁⟩

/-- A lookup that requires its key fails when the list has none, and changes no entry. -/
theorem require_stands (h : Stands c m s) (hc : c.Lawful) (key : κ) :
    (m.require key).1 = Ideal.require c key s ∧ Stands c (m.require key).2 s := by
  obtain ⟨hvalue, hnext⟩ := get_stands h hc key
  unfold ProbeMap.require Ideal.require
  rw [← hvalue]
  revert hnext
  rcases m.get key with ⟨⟨⟩ | v, m'⟩ <;> exact fun hnext => ⟨rfl, hnext⟩

/-- A modification changes the value of the key in the list. -/
theorem modify_stands (h : Stands c m s) (hc : c.Lawful) (key : κ) (f : ν → ν) :
    (m.modify key f).1 = (EntryList.value? c key s).map f ∧
      Stands c (m.modify key f).2 (EntryList.modify c key f s) := by
  unfold ProbeMap.modify
  obtain ⟨m₁, -, h₁, ⟨hl, habsent⟩ | ⟨i, e, hl, hi, hkey⟩⟩ := h.lookup hc key
  · rw [hl, habsent.value?_eq, habsent.modify_eq]
    exact ⟨rfl, h₁⟩
  · rw [hl, h₁.value?_of_slot hc hi hkey]
    have hchanged : ({ m₁ with slots := ProbeMap.modifySlot m₁.slots i f } :
        ProbeMap κ ν).slots[i]? = some (.occupied { e with value := f e.value }) :=
      modifySlot_getElem? hi f
    exact ⟨value?_eq hchanged, h₁.modifySlot hc hi hkey f m₁.version⟩

/-- A key is found when the list has a value for it. -/
theorem containsKey_stands (h : Stands c m s) (hc : c.Lawful) (key : κ) :
    (m.containsKey key).1 = (EntryList.value? c key s).isSome ∧
      Stands c (m.containsKey key).2 s := by
  unfold ProbeMap.containsKey
  obtain ⟨m₁, -, h₁, ⟨hl, habsent⟩ | ⟨i, e, hl, hi, hkey⟩⟩ := h.lookup hc key
  · rw [hl, habsent.value?_eq]
    exact ⟨rfl, h₁⟩
  · rw [hl, h₁.value?_of_slot hc hi hkey]
    exact ⟨rfl, h₁⟩

/-- A cleared map stands for the empty list. -/
theorem clear_stands (h : Stands c m s) : Stands c m.clear [] := by
  have hentries : m.clear.entries = [] := entriesOf_emptySlots m.slots.size
  refine ⟨h.sound.clear, h.comparer, ?_, ?_, ?_⟩
  · rw [hentries]
    nofun
  · rw [pairs, hentries]
    exact List.Pairwise.nil
  · rw [pairs, hentries]
    exact .rfl

/-- Every operation that succeeds answers as the ideal map does. -/
theorem step_stands (h : Stands c m s) (hc : c.Lawful) {op : Op κ ν} {answer : Reply ν}
    (hstep : m.step op = some (answer, m')) :
    answer = (Ideal.step c s op).1 ∧ Stands c m' (Ideal.step c s op).2 := by
  cases op with
  | insert key value =>
      rw [step] at hstep
      obtain ⟨m₁, -, -, ⟨hinsert, hnext⟩ | ⟨hinsert, -⟩⟩ := insert_stands h hc key value
      · rw [hinsert] at hstep
        cases hstep
        exact ⟨rfl, hnext⟩
      · rw [hinsert] at hstep
        cases hstep
  | remove key =>
      obtain ⟨⟨v, m₁⟩, hremove, heq⟩ := Option.map_eq_some_iff.mp hstep
      cases heq
      obtain ⟨hreply, hnext⟩ := remove_stands h hc hremove
      exact ⟨congrArg Reply.value hreply, hnext⟩
  | get key =>
      cases hstep
      obtain ⟨hreply, hnext⟩ := get_stands h hc key
      exact ⟨congrArg Reply.value hreply, hnext⟩
  | require key =>
      cases hstep
      obtain ⟨hreply, hnext⟩ := require_stands h hc key
      exact ⟨congrArg Reply.demanded hreply, hnext⟩
  | modify key f =>
      cases hstep
      obtain ⟨hreply, hnext⟩ := modify_stands h hc key f
      exact ⟨congrArg Reply.value hreply, hnext⟩
  | containsKey key =>
      cases hstep
      obtain ⟨hreply, hnext⟩ := containsKey_stands h hc key
      exact ⟨congrArg Reply.present hreply, hnext⟩
  | clear =>
      cases hstep
      exact ⟨rfl, clear_stands h⟩

/-! ## Runs -/

variable {o : ProbeOptions} {f : LoadFactor}

/-- The empty map that checked options construct. -/
def initial (o : ProbeOptions) (f : LoadFactor) (hasher : KeyHasher κ) (journal : Journal) :
    ProbeMap κ ν :=
  build o f (ceilPowerOfTwo o.initialCapacity)
    (filterFor (ceilPowerOfTwo o.initialCapacity) o.falsePositiveRate) hasher journal

/-- A map is built from every set of options that passes its check. -/
theorem withComparer_eq (hvalid : o.check = .ok f) (c : Comparer κ) :
    (withComparer o c : Except TableError (ProbeMap κ ν)) =
      .ok (initial o f (KeyHasher.withComparer o.hashing c).1
        (KeyHasher.withComparer o.hashing c).2) := by
  obtain ⟨hnext, hfilter⟩ := ProbeOptions.construction_ok hvalid
  rw [withComparer, hvalid]
  simp only [bind, Except.bind, hnext, hfilter]
  rfl

/-- A new map is sound. -/
theorem initial_sound (hvalid : o.check = .ok f) (hasher : KeyHasher κ) (journal : Journal) :
    (initial o f hasher journal : ProbeMap κ ν).Sound :=
  build_sound o f hasher journal (BloomFilter.build_shaped _)
    (ProbeOptions.construction_ok hvalid).1

/-- A new map has its initial capacity, rounded up to a power of two, as its slots. -/
theorem initial_size (o : ProbeOptions) (f : LoadFactor) (hasher : KeyHasher κ)
    (journal : Journal) : (initial o f hasher journal : ProbeMap κ ν).slots.size =
      ceilPowerOfTwo o.initialCapacity :=
  Array.size_replicate

/-- A new map stands for no entries. -/
theorem initial_stands (hvalid : o.check = .ok f) (hasher : KeyHasher κ) (journal : Journal) :
    Stands hasher.comparer (initial o f hasher journal : ProbeMap κ ν) [] := by
  have hentries : (initial o f hasher journal : ProbeMap κ ν).entries = [] :=
    entriesOf_emptySlots _
  refine ⟨initial_sound hvalid hasher journal, rfl, ?_, ?_, ?_⟩
  · rw [hentries]
    nofun
  · rw [pairs, hentries]
    exact List.Pairwise.nil
  · rw [pairs, hentries]
    exact .rfl

/-- A new map stands for the empty list, has counted no removal and is no larger than allowed. -/
theorem withComparer_stands (hvalid : o.check = .ok f) (c : Comparer κ) :
    ∃ m : ProbeMap κ ν, withComparer o c = .ok m ∧ Stands c m [] ∧ m.removals = 0 ∧
      m.slots.size ≤ maxCapacity := by
  have hcapacity := (ProbeOptions.check_ok hvalid).1.2
  refine ⟨_, withComparer_eq hvalid c,
    initial_stands hvalid (KeyHasher.withComparer o.hashing c).1 _, rfl, ?_⟩
  rw [initial_size]
  exact ceilPowerOfTwo_le hcapacity

/-- A new map has its initial capacity, rounded up to a power of two, as its slots. -/
theorem withComparer_size (hvalid : o.check = .ok f) (hm : withComparer o c = .ok m) :
    m.slots.size = ceilPowerOfTwo o.initialCapacity := by
  cases (withComparer_eq hvalid c).symm.trans hm
  exact initial_size ..

/-- A new map is empty, with the comparer that the policy chooses. -/
theorem new_eq [ByteHash] [ByteKey κ] [DecidableEq κ] (hvalid : o.check = .ok f) (seed : Seed) :
    (new o seed : Except TableError (ProbeMap κ ν)) =
      .ok (initial o f (.ofPolicy o.hashing seed) .empty) := by
  obtain ⟨hnext, hfilter⟩ := ProbeOptions.construction_ok hvalid
  rw [new, hvalid]
  simp only [bind, Except.bind, hnext, hfilter]
  rfl

/-- A new map stands for no entries, under the comparer that the policy chooses. -/
theorem new_stands [ByteHash] [ByteKey κ] [DecidableEq κ] {seed : Seed} (h : new o seed = .ok m) :
    Stands (KeyHasher.ofPolicy o.hashing seed).comparer m [] := by
  obtain ⟨f, hvalid, -⟩ := exists_ok_of_bind h
  cases (new_eq hvalid seed).symm.trans h
  exact initial_stands hvalid (.ofPolicy o.hashing seed) .empty

/-- The entries counted are those of the list. -/
theorem Stands.live_eq (h : Stands c m s) : m.live = s.length := by
  rw [← h.perm.length_eq, pairs, List.length_map, h.sound.live]

/-- A probe map answers every run of operations that succeeds as a list of entries does. Its size
is that of the list, and it yields each entry of the list once. -/
theorem refines_map (hvalid : o.check.isOk) (hc : c.Lawful) :
    ∃ m : ProbeMap κ ν, withComparer o c = .ok m ∧
      ∀ (ops : List (Op κ ν)) (answers : List (Reply ν)) (final : ProbeMap κ ν),
        run? step m ops = some (answers, final) →
        answers = (run (Ideal.step c) [] ops).1 ∧
        final.size = (run (Ideal.step c) [] ops).2.length ∧
        final.toList.Perm (run (Ideal.step c) [] ops).2 ∧
        EntryList.Distinct c final.toList := by
  obtain ⟨f, hvalid⟩ := exists_ok hvalid
  obtain ⟨m, hm, hstart, -⟩ : ∃ m : ProbeMap κ ν, _ := withComparer_stands hvalid c
  refine ⟨m, hm, fun ops answers final hrun => ?_⟩
  obtain ⟨hanswers, hend⟩ := run?_simulates
    (fun m s op answer next (h : Stands c m s) (hstep : m.step op = some (answer, next)) =>
      step_stands h hc hstep) hstart hrun
  have hlist : final.toList = final.pairs := toList_eq hend.sound.live
  refine ⟨hanswers, ?_, ?_, ?_⟩
  · rw [← hend.perm.length_eq, pairs, List.length_map, hend.sound.live]
    rfl
  · rw [hlist]
    exact hend.perm
  · rw [hlist]
    exact hend.distinct

/-! ## Runs that succeed -/

/-- An operation grows the table and counts a removal at most so far. -/
def Near (m m' : ProbeMap κ ν) : Prop :=
  m'.slots.size ≤ 4 * m.slots.size ∧ m'.removals ≤ m.removals + 1

/-- A lookup neither grows the table nor counts a removal. -/
theorem SameTable.near (h : m.SameTable m') : m.Near m' := by
  rw [Near, h.slots_eq, h.removals_eq]
  omega

/-- A lookup that requires its key neither grows the table nor counts a removal. -/
theorem require_near (m : ProbeMap κ ν) (key : κ) : m.Near (m.require key).2 := by
  have hs : m.SameTable (m.get key).2 := m.find_sameTable key _
  unfold ProbeMap.require
  revert hs
  rcases m.get key with ⟨⟨⟩ | v, m'⟩ <;> exact fun hs => hs.near

/-- A modification neither grows the table nor counts a removal. -/
theorem modify_near (m : ProbeMap κ ν) (key : κ) (f : ν → ν) : m.Near (m.modify key f).2 := by
  have hs := m.find_sameTable key (m.hasher.hash key)
  unfold ProbeMap.modify lookup
  revert hs
  rcases m.find key (m.hasher.hash key) with ⟨_ | i, m₁⟩ <;> intro hs
  · exact hs.near
  · rw [Near, modifySlot_size]
    exact hs.near

/-- A removal that is not the sixteenth always has a result. -/
theorem remove_succeeds (h : Stands c m s) (hc : c.Lawful) (key : κ)
    (hremovals : ¬(m.removals + 1) % maintenanceInterval = 0) :
    ∃ v m', m.remove key = some (v, m') ∧ m.Near m' := by
  unfold ProbeMap.remove
  obtain ⟨m₁, hs, h₁, ⟨hl, -⟩ | ⟨i, e, hl, -, -⟩⟩ := h.lookup hc key
  · rw [hl]
    exact ⟨none, m₁, rfl, hs.near⟩
  · have hcount : (m₁.vacate i).removals = m.removals + 1 := congrArg (· + 1) hs.removals_eq
    rw [hl]
    dsimp only
    rw [hcount, if_neg hremovals]
    refine ⟨_, _, rfl, ?_, Nat.le_of_eq hcount⟩
    rw [vacate_size, hs.slots_eq]
    omega

/-- Operations on a table that is far from its largest size succeed, except for the maintenance
that every sixteenth removal does. -/
theorem step_succeeds (h : Stands c m s) (hc : c.Lawful) (hsize : 8 * m.slots.size ≤ maxPowerOfTwo)
    (hremovals : m.removals + 1 < maintenanceInterval) (op : Op κ ν) :
    ∃ answer m', m.step op = some (answer, m') ∧ m.Near m' := by
  cases op with
  | insert key value =>
      obtain ⟨m', hremovals', hsize', ⟨hinsert, -⟩ | ⟨-, -, -, hfull⟩⟩ :=
        insert_stands h hc key value
      · exact ⟨_, m', by rw [step, hinsert], hsize', by omega⟩
      · omega
  | remove key =>
      obtain ⟨v, m', hremove, hnear⟩ := remove_succeeds h hc key (by
        rw [Nat.mod_eq_of_lt hremovals]
        omega)
      exact ⟨.value v, m', by rw [step, hremove]; rfl, hnear⟩
  | get key => exact ⟨_, _, rfl, (m.find_sameTable key _).near⟩
  | require key => exact ⟨_, _, rfl, m.require_near key⟩
  | modify key f => exact ⟨_, _, rfl, m.modify_near key f⟩
  | containsKey key => exact ⟨_, _, rfl, (m.find_sameTable key _).near⟩
  | clear =>
      refine ⟨_, _, rfl, ?_, Nat.le_succ _⟩
      rw [ProbeMap.clear, emptySlots, Array.size_replicate]
      omega

/-- A map that can do some more operations: they cannot take its table to the largest size, and
none of them is the sixteenth removal. -/
structure Spare (c : Comparer κ) (n : Nat) (m : ProbeMap κ ν) : Prop where
  stands : ∃ s, Stands c m s
  growth : 2 * (4 ^ n * m.slots.size) ≤ maxPowerOfTwo
  removals : m.removals + n < maintenanceInterval

variable {n : Nat}

/-- A map that can do one operation more than some number returns from it and can do that number. -/
theorem Spare.step (h : Spare c (n + 1) m) (hc : c.Lawful) (op : Op κ ν) :
    ∃ answer m', m.step op = some (answer, m') ∧ Spare c n m' := by
  obtain ⟨⟨s, hs⟩, hgrowth, hremovals⟩ := h
  rw [Nat.pow_succ, Nat.mul_assoc] at hgrowth
  have hpow : 1 ≤ 4 ^ n := Nat.one_le_pow _ _ (by decide)
  have hfirst : 8 * m.slots.size ≤ 2 * (4 ^ n * (4 * m.slots.size)) := by
    calc 8 * m.slots.size = 2 * (1 * (4 * m.slots.size)) := by omega
      _ ≤ 2 * (4 ^ n * (4 * m.slots.size)) := by gcongr
  obtain ⟨answer, next, hstep, hgrown, hcounted⟩ :=
    step_succeeds hs hc (hfirst.trans hgrowth) (by omega) op
  refine ⟨answer, next, hstep, ⟨_, (step_stands hs hc hstep).2⟩, ?_, by omega⟩
  calc 2 * (4 ^ n * next.slots.size) ≤ 2 * (4 ^ n * (4 * m.slots.size)) := by gcongr
    _ ≤ maxPowerOfTwo := hgrowth

/-- A run that is too short to reach the largest size or a maintenance succeeds. -/
theorem Spare.run {ops : List (Op κ ν)} (h : Spare c ops.length m) (hc : c.Lawful) :
    ∃ answers final, run? ProbeMap.step m ops = some (answers, final) := by
  induction ops generalizing m with
  | nil => exact ⟨[], m, rfl⟩
  | cons op ops ih =>
      obtain ⟨answer, next, hstep, hnext⟩ := h.step hc op
      obtain ⟨answers, final, hrun⟩ := ih hnext
      exact ⟨_, final, run?_cons.mpr ⟨answer, next, answers, hstep, hrun, rfl⟩⟩

/-- A new map can do any fifteen operations. -/
theorem initial_spare (hvalid : o.check = .ok f) (hasher : KeyHasher κ) (journal : Journal)
    (hn : n < maintenanceInterval) :
    Spare hasher.comparer n (initial o f hasher journal : ProbeMap κ ν) where
  stands := ⟨[], initial_stands hvalid hasher journal⟩
  growth := by
    have hcapacity : ceilPowerOfTwo o.initialCapacity ≤ maxCapacity :=
      ceilPowerOfTwo_le (ProbeOptions.check_ok hvalid).1.2
    have hpow : 4 ^ n ≤ 4 ^ 15 := Nat.pow_le_pow_right (by decide) (Nat.le_of_lt_succ hn)
    rw [initial_size]
    calc 2 * (4 ^ n * ceilPowerOfTwo o.initialCapacity) ≤ 2 * (4 ^ 15 * maxCapacity) := by gcongr
      _ ≤ maxPowerOfTwo := by decide
  removals := by
    show 0 + n < maintenanceInterval
    omega

/-- Fewer than sixteen operations on a new map succeed. -/
theorem short_run_succeeds (hvalid : o.check.isOk) (hc : c.Lawful) :
    ∃ m : ProbeMap κ ν, withComparer o c = .ok m ∧ ∀ ops : List (Op κ ν),
      ops.length < maintenanceInterval → ∃ answers final,
        run? step m ops = some (answers, final) := by
  obtain ⟨f, hvalid⟩ := exists_ok hvalid
  refine ⟨_, withComparer_eq hvalid c, fun ops hlength => ?_⟩
  exact (initial_spare hvalid (KeyHasher.withComparer o.hashing c).1 _ hlength).run hc

/-- A key that was removed makes room for another one, and an insertion of a present key returns
its previous value. -/
theorem insert_returns_previous :
    (ProbeOptions.standard.check.isOk ∧ (Comparer.natural : Comparer UInt64).Lawful) ∧
    ∃ m final : ProbeMap UInt64 Nat, withComparer .standard .natural = .ok m ∧
      run? step m [.insert 1 10, .insert 2 20, .remove 1, .insert 2 21, .insert 3 30, .get 2] =
        some ([.value none, .value none, .value (some 10), .value (some 20), .value none,
          .value (some 21)], final) ∧
      final.size = 2 ∧ final.toList.Perm [(3, 30), (2, 21)] := by
  have hvalid : ProbeOptions.standard.check.isOk := by decide +kernel
  have hlawful : (Comparer.natural : Comparer UInt64).Lawful := Comparer.natural_lawful
  obtain ⟨m, hm, hruns⟩ : ∃ m : ProbeMap UInt64 Nat, _ := refines_map hvalid hlawful
  obtain ⟨m', hm', hsucceeds⟩ : ∃ m : ProbeMap UInt64 Nat, _ := short_run_succeeds hvalid hlawful
  cases hm.symm.trans hm'
  obtain ⟨answers, final, hrun⟩ := hsucceeds
    [.insert 1 10, .insert 2 20, .remove 1, .insert 2 21, .insert 3 30, .get 2] (by decide)
  obtain ⟨rfl, hsize, hentries, -⟩ := hruns _ _ _ hrun
  exact ⟨⟨hvalid, hlawful⟩, m, final, hm, hrun, hsize, hentries⟩

end BoundedTables.ProbeMap
