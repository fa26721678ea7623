import BoundedTables.Proofs.EntryList
import BoundedTables.Proofs.Hashing.Policy
import Mathlib.Data.Finset.Card

/-!
# The keys of a list of entries

Under a comparer that takes no two keys for equal, a list of entries with distinct keys is a set of
keys as far as lookups go. `Keyed c l S` says which set it is, and every operation on the list has
its counterpart on the set.
-/

namespace BoundedTables.EntryList

open Hashing

variable {κ α : Type} {c : Comparer κ} {l l' : List (κ × α)} {S : Finset κ}
  {key : κ}

/-- The entries of a list have the keys of a set, one entry for each. -/
structure Keyed (c : Comparer κ) (l : List (κ × α)) (S : Finset κ) : Prop where
  distinct : Distinct c l
  mem_iff : ∀ key, key ∈ S ↔ ∃ e ∈ l, e.1 = key

/-- The empty list has the empty set of keys. -/
theorem Keyed.nil (c : Comparer κ) : Keyed c ([] : List (κ × α)) ∅ :=
  ⟨List.Pairwise.nil, fun key => by simp⟩

/-- A modification changes no set of keys. -/
theorem Keyed.modify (h : Keyed c l S) (key : κ) (f : α → α) :
    Keyed c (EntryList.modify c key f l) S where
  distinct := h.distinct.modify key f
  mem_iff other := by
    have hkeys := modify_keys c key f l
    have hlisted (l : List (κ × α)) : (∃ e ∈ l, e.1 = other) ↔ other ∈ l.map (·.1) :=
      List.mem_map.symm
    rw [h.mem_iff, hlisted, hlisted, hkeys]

variable [DecidableEq κ]

/-- An exact comparer finds the entries whose key is equal. -/
theorem hasKey_iff (hc : c.Exact) (key : κ) (e : κ × α) : c.hasKey key e = true ↔ e.1 = key := by
  rw [Comparer.hasKey, hc, decide_eq_true_iff]

/-- Nothing is found exactly for the keys that the set does not have. -/
theorem Keyed.absent_iff (h : Keyed c l S) (hc : c.Exact) (key : κ) :
    Absent c key l ↔ key ∉ S := by
  rw [h.mem_iff]
  constructor
  · rintro habsent ⟨e, he, hkey⟩
    have hnone := habsent e he
    rw [(hasKey_iff hc key e).mpr hkey] at hnone
    cases hnone
  · intro hnone e he
    rw [← Bool.not_eq_true, hasKey_iff hc]
    exact fun hkey => hnone ⟨e, he, hkey⟩

/-- A key has no entry exactly if it is not in the set. -/
theorem Keyed.find?_none_iff (h : Keyed c l S) (hc : c.Exact) (key : κ) :
    find? c key l = none ↔ key ∉ S :=
  find?_eq_none_iff.trans (h.absent_iff hc key)

/-- A key has an entry exactly if it is in the set. -/
theorem Keyed.find?_isSome (h : Keyed c l S) (hc : c.Exact) (key : κ) :
    (find? c key l).isSome = decide (key ∈ S) := by
  rw [Bool.eq_iff_iff, Option.isSome_iff_ne_none, decide_eq_true_iff, ne_eq, h.find?_none_iff hc,
    not_not]

/-- A key has a value exactly if it is in the set. -/
theorem Keyed.value?_isSome (h : Keyed c l S) (hc : c.Exact) (key : κ) :
    (value? c key l).isSome = decide (key ∈ S) := by
  rw [value?, Option.isSome_map]
  exact h.find?_isSome hc key

/-- What is found for a key has the key. -/
theorem Keyed.find?_some (h : Keyed c l S) (hc : c.Exact) {e : κ × α}
    (hfind : find? c key l = some e) : e.1 = key ∧ key ∈ S := by
  have hkey := (hasKey_iff hc key e).mp (List.find?_some hfind)
  exact ⟨hkey, (h.mem_iff key).mpr ⟨e, List.mem_of_find?_eq_some hfind, hkey⟩⟩

/-- The order of the entries does not matter for the set of their keys. -/
theorem Keyed.perm (h : Keyed c l S) (hc : c.Exact) (hp : l.Perm l') : Keyed c l' S where
  distinct := h.distinct.perm hc.lawful hp
  mem_iff key := by simp only [h.mem_iff, hp.mem_iff]

/-- Erasing a key takes it out of the set. -/
theorem Keyed.erase (h : Keyed c l S) (hc : c.Exact) (key : κ) :
    Keyed c (EntryList.erase c key l) (S.erase key) where
  distinct := h.distinct.erase key
  mem_iff other := by
    simp only [EntryList.erase, List.mem_filter, Finset.mem_erase, h.mem_iff, Bool.not_eq_true',
      ← Bool.not_eq_true, hasKey_iff hc]
    constructor
    · rintro ⟨hne, e, he, rfl⟩
      exact ⟨e, ⟨he, hne⟩, rfl⟩
    · rintro ⟨e, ⟨he, hne⟩, rfl⟩
      exact ⟨hne, e, he, rfl⟩

/-- A new key in front. -/
theorem Keyed.cons (h : Keyed c l S) (hc : c.Exact) (hkey : key ∉ S) (value : α) :
    Keyed c ((key, value) :: l) (insert key S) where
  distinct := h.distinct.cons hc.lawful ((h.absent_iff hc key).mpr hkey) value
  mem_iff other := by
    rw [Finset.mem_insert, h.mem_iff]
    simp [eq_comm]

/-- There are as many keys as entries. -/
theorem Keyed.card_eq (h : Keyed c l S) (hc : c.Exact) : S.card = l.length := by
  have hset : S = (l.map (·.1)).toFinset := by
    ext key
    rw [h.mem_iff, List.mem_toFinset, List.mem_map]
  have hnodup : (l.map (·.1)).Nodup :=
    ((distinct_iff c l).mp h.distinct).imp fun {a b} hne => by
      rwa [hc, decide_eq_false_iff_not] at hne
  rw [hset, List.toFinset_card_of_nodup hnodup, List.length_map]

end BoundedTables.EntryList
