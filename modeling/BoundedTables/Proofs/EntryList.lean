import BoundedTables.Hashing.Comparer
import Mathlib.Data.List.Nodup

/-!
# Lists of entries as maps

A list of entries with distinct keys is the plainest map there is. The refinement theorems compare
every container with such lists, and the operations here are the ones they are compared with. Keys
are told apart by a comparer, which may identify keys that differ; an update keeps the key that
was stored first.

`Split c key l front e back` says that an entry with the key stands between two parts of the list
without it. A lawful comparer gives such a split for every entry of a list with distinct keys, and
every operation is then plain list surgery.
-/

namespace BoundedTables

open Hashing

variable {κ α : Type}

/-- Whether an entry has a key. -/
def Hashing.Comparer.hasKey (c : Comparer κ) (key : κ) (e : κ × α) : Bool := c.equals e.1 key

namespace EntryList

/-- No two entries have equal keys. -/
def Distinct (c : Comparer κ) (l : List (κ × α)) : Prop :=
  l.Pairwise fun a b => c.equals a.1 b.1 = false

/-- No entry has the key. -/
def Absent (c : Comparer κ) (key : κ) (l : List (κ × α)) : Prop :=
  ∀ e ∈ l, c.hasKey key e = false

/-- The entry of a key. -/
def find? (c : Comparer κ) (key : κ) (l : List (κ × α)) : Option (κ × α) := l.find? (c.hasKey key)

/-- The value of a key. -/
def value? (c : Comparer κ) (key : κ) (l : List (κ × α)) : Option α := (find? c key l).map (·.2)

/-- The entries without that of a key. -/
def erase (c : Comparer κ) (key : κ) (l : List (κ × α)) : List (κ × α) :=
  l.filter fun e => !c.hasKey key e

/-- Change the value of a key in place. -/
def modify (c : Comparer κ) (key : κ) (f : α → α) (l : List (κ × α)) : List (κ × α) :=
  l.map fun e => if c.hasKey key e then (e.1, f e.2) else e

/-- An entry with the key between two parts of the list without it. -/
structure Split (c : Comparer κ) (key : κ) (l front : List (κ × α)) (e : κ × α)
    (back : List (κ × α)) : Prop where
  eq : l = front ++ e :: back
  here : c.hasKey key e = true
  front_absent : Absent c key front
  back_absent : Absent c key back

variable {c : Comparer κ} {key : κ} {l front back : List (κ × α)} {e : κ × α}

/-- Under a lawful comparer, an entry with a key is the only one with it. -/
theorem Distinct.split (hc : c.Lawful) (h : Distinct c (front ++ e :: back))
    (he : c.hasKey key e = true) : Split c key (front ++ e :: back) front e back := by
  have hpairs := List.pairwise_append.mp h
  refine ⟨rfl, he, fun x hx => ?_, fun x hx => ?_⟩
  · have hne := hpairs.2.2 x hx e (by simp)
    by_contra htrue
    rw [Bool.not_eq_false] at htrue
    rw [hc.trans _ _ _ htrue (hc.symm _ _ he)] at hne
    cases hne
  · have hne := (List.pairwise_cons.mp hpairs.2.1).1 x hx
    by_contra htrue
    rw [Bool.not_eq_false] at htrue
    rw [hc.trans _ _ _ he (hc.symm _ _ htrue)] at hne
    cases hne

/-! ## The operations at a split -/

/-- The entry at which a list is split is found. -/
theorem Split.find?_eq (h : Split c key l front e back) : find? c key l = some e := by
  have hfront : front.find? (c.hasKey key) = none :=
    List.find?_eq_none.mpr fun x hx => by simp [h.front_absent x hx]
  rw [find?, h.eq, List.find?_append, hfront]
  simp [h.here]

/-- The value of the entry at which a list is split is found. -/
theorem Split.value?_eq (h : Split c key l front e back) : value? c key l = some e.2 := by
  rw [value?, h.find?_eq, Option.map_some]

/-- No key is in the empty list. -/
theorem absent_nil (c : Comparer κ) (key : κ) : Absent c key ([] : List (κ × α)) :=
  fun _ he => absurd he List.not_mem_nil

/-- Erasing an absent key changes nothing. -/
theorem Absent.erase_eq (h : Absent c key l) : erase c key l = l :=
  List.filter_eq_self.mpr fun e he => by simp [h e he]

/-- Modifying the value of an absent key changes nothing. -/
theorem Absent.modify_eq (h : Absent c key l) (f : α → α) : modify c key f l = l := by
  refine (List.map_congr_left fun e he => ?_).trans (List.map_id l)
  simp [h e he]

/-- An absent key has no entry. -/
theorem Absent.find?_eq (h : Absent c key l) : find? c key l = none :=
  List.find?_eq_none.mpr fun e he => by simp [h e he]

/-- An absent key has no value. -/
theorem Absent.value?_eq (h : Absent c key l) : value? c key l = none := by
  rw [value?, h.find?_eq, Option.map_none]

/-- Erasing a key leaves the entries in front of and behind its own. -/
theorem Split.erase_eq (h : Split c key l front e back) : erase c key l = front ++ back := by
  have hfront := h.front_absent.erase_eq
  have hback := h.back_absent.erase_eq
  unfold erase at hfront hback ⊢
  rw [h.eq, List.filter_append, hfront, List.filter_cons_of_neg (by simp [h.here]), hback]

/-- A modification changes the value of the entry and leaves the others alone. -/
theorem Split.modify_eq (h : Split c key l front e back) (f : α → α) :
    modify c key f l = front ++ (e.1, f e.2) :: back := by
  have hfront := h.front_absent.modify_eq f
  have hback := h.back_absent.modify_eq f
  unfold modify at hfront hback ⊢
  rw [h.eq, List.map_append, hfront, List.map_cons, hback, if_pos h.here]

/-- Among distinct keys, an entry with the key is the one that is found. -/
theorem Distinct.find?_eq_some_iff (hc : c.Lawful) (h : Distinct c l) :
    find? c key l = some e ↔ e ∈ l ∧ c.hasKey key e = true := by
  constructor
  · intro hfind
    exact ⟨List.mem_of_find?_eq_some hfind, List.find?_some hfind⟩
  · rintro ⟨hmem, hkey⟩
    obtain ⟨front, back, rfl⟩ := List.append_of_mem hmem
    exact (h.split hc hkey).find?_eq

/-- Nothing is found exactly when no entry has the key. -/
theorem find?_eq_none_iff : find? c key l = none ↔ Absent c key l := by
  simp [find?, Absent]

/-! ## Distinct keys stay distinct -/

/-- The keys of a part of a list are as distinct as those of the list. -/
theorem Distinct.sublist {l' : List (κ × α)} (h : Distinct c l) (hsub : l'.Sublist l) :
    Distinct c l' :=
  List.Pairwise.sublist hsub h

/-- Distinctness only depends on the keys. -/
theorem distinct_iff (c : Comparer κ) (l : List (κ × α)) :
    Distinct c l ↔ (l.map (·.1)).Pairwise fun a b => c.equals a b = false := by
  rw [List.pairwise_map]
  rfl

/-- A lawful comparer compares two keys in either order. -/
theorem equals_comm (hc : c.Lawful) (a b : κ) : c.equals a b = c.equals b a :=
  Bool.eq_iff_iff.mpr ⟨hc.symm a b, hc.symm b a⟩

/-- Keys that are distinct are so in any order. -/
theorem Distinct.perm {l' : List (κ × α)} (hc : c.Lawful) (h : Distinct c l) (hp : l.Perm l') :
    Distinct c l' :=
  (hp.pairwise_iff fun {a b} hab => by rw [equals_comm hc]; exact hab).mp h

/-- A new key in front. -/
theorem Distinct.cons (hc : c.Lawful) (h : Distinct c l) (hkey : Absent c key l) (value : α) :
    Distinct c ((key, value) :: l) :=
  List.pairwise_cons.mpr ⟨fun e he => by
    rw [equals_comm hc]
    exact hkey e he, h⟩

/-- A new key at the back. -/
theorem Distinct.concat (hc : c.Lawful) (h : Distinct c l) (hkey : Absent c key l) (value : α) :
    Distinct c (l ++ [(key, value)]) :=
  (h.cons hc hkey value).perm hc (List.perm_append_singleton _ _).symm

/-- Erasing a key keeps the others distinct. -/
theorem Distinct.erase (h : Distinct c l) (key : κ) : Distinct c (EntryList.erase c key l) :=
  h.sublist List.filter_sublist

/-- A modification changes no key. -/
theorem modify_keys (c : Comparer κ) (key : κ) (f : α → α) (l : List (κ × α)) :
    (EntryList.modify c key f l).map (·.1) = l.map (·.1) := by
  rw [EntryList.modify, List.map_map]
  refine List.map_congr_left fun e _ => ?_
  simp only [Function.comp_apply]
  split <;> rfl

/-- A modification keeps the keys distinct. -/
theorem Distinct.modify (h : Distinct c l) (key : κ) (f : α → α) :
    Distinct c (EntryList.modify c key f l) := by
  rw [distinct_iff, modify_keys, ← distinct_iff]
  exact h

/-- What is found does not depend on the order of the entries. -/
theorem Distinct.find?_perm {l' : List (κ × α)} (hc : c.Lawful) (h : Distinct c l)
    (hp : l.Perm l') : find? c key l = find? c key l' := by
  cases hfind : find? c key l with
  | none =>
      rw [eq_comm, find?_eq_none_iff]
      intro e he
      exact find?_eq_none_iff.mp hfind e (hp.mem_iff.mpr he)
  | some e =>
      obtain ⟨hmem, hkey⟩ := (h.find?_eq_some_iff hc).mp hfind
      exact (((h.perm hc hp).find?_eq_some_iff hc).mpr ⟨hp.mem_iff.mp hmem, hkey⟩).symm

end EntryList

end BoundedTables
