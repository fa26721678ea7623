import BoundedTables.Proofs.ProbeMap.Search

/-!
# Iterating over a probe table

Every search for the next entry continues behind the last one, so an iterator yields the entries
in slot order, each of them once (`toList_eq`).
-/

namespace BoundedTables

/-- The key and the value of an entry. -/
def ProbeEntry.pair {κ ν : Type} (e : ProbeEntry κ ν) : κ × ν := (e.key, e.value)

namespace ProbeMap

variable {κ ν : Type} {m : ProbeMap κ ν} {i count : Nat}

/-- The keys and the values in slot order. -/
def pairs (m : ProbeMap κ ν) : List (κ × ν) := m.entries.map ProbeEntry.pair

/-- The entries from a slot on. -/
def entriesFrom (m : ProbeMap κ ν) (i : Nat) : List (ProbeEntry κ ν) :=
  (m.slots.toList.drop i).filterMap Slot.entry?

/-- There are no entries past the last slot. -/
theorem entriesFrom_eq_nil (h : m.slots.size ≤ i) : m.entriesFrom i = [] := by
  rw [entriesFrom, List.drop_eq_nil_of_le (by simpa using h)]
  rfl

/-- The entries from a slot on are its own, if it has one, and those from the next slot on. -/
theorem entriesFrom_eq_append (h : i < m.slots.size) :
    m.entriesFrom i = ( Slot.entry? m.slots[i]).toList ++ m.entriesFrom (i + 1) := by
  rw [entriesFrom, List.drop_eq_getElem_cons (by simpa using h), List.filterMap_cons,
    Array.getElem_toList]
  cases m.slots[i] <;> rfl

/-- The first entry found is the first one, and the others are behind it. -/
theorem entryFrom_spec (h : m.slots.size - i = count) :
    (m.entryFrom count i = none ∧ m.entriesFrom i = []) ∨
      ∃ j e, m.entryFrom count i = some (j, e) ∧ m.entriesFrom i = e :: m.entriesFrom (j + 1) := by
  induction count generalizing i with
  | zero => exact .inl ⟨rfl, entriesFrom_eq_nil (by omega)⟩
  | succ count ih =>
      have hi : i < m.slots.size := by omega
      rw [entryFrom, entriesFrom_eq_append hi, Array.getElem?_eq_getElem hi, Option.bind_some]
      cases Slot.entry? m.slots[i] with
      | some e => exact .inr ⟨i, e, rfl, rfl⟩
      | none => exact ih (by omega)

/-- Taking as many entries as there are left yields all of them. -/
theorem drain_eq (h : (m.entriesFrom i).length = count) :
    m.drain count ⟨i, count⟩ = (m.entriesFrom i).map ProbeEntry.pair := by
  induction count generalizing i with
  | zero =>
      rw [List.length_eq_zero_iff.mp h]
      rfl
  | succ count ih =>
      rcases entryFrom_spec (m := m) (i := i) rfl with ⟨-, hnil⟩ | ⟨j, e, hseek, hcons⟩
      · rw [hnil] at h
        cases h
      · rw [hcons, List.length_cons] at h
        rw [drain, next, if_neg (Nat.succ_ne_zero count), seek, hseek, hcons, List.map_cons,
          ← ih (Nat.succ.inj h)]
        rfl

/-- An iterator yields the entries in slot order. -/
theorem toList_eq (h : m.entries.length = m.live) : m.toList = m.pairs := drain_eq h

end ProbeMap

end BoundedTables
