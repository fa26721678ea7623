import BoundedTables.Proofs.ProbeMap.Reachable
import BoundedTables.Proofs.Table.Cursor

/-!
# Cursors over probe maps

A probe map with its cursors is sound in the sense of `Enumerable.Sound`, whatever its comparer: a
cursor seeks from entry to entry through the slots, and what each operation does to the version and
to the table is known from `Sound.perform` (`enumerable_sound`). Probe maps never evict.
-/

namespace BoundedTables.ProbeMap

open Hashing Table

variable {κ ν : Type} {m m' : ProbeMap κ ν}

/-- Probe maps with their cursors. -/
def enumerable :
    Enumerable (ProbeMap κ ν) (Op κ ν) (Except TableError (Reply ν)) (κ × ν) where
  step := perform
  toList := toList
  size := size
  version := version
  evictions _ := 0
  cursor := cursor
  advance := advance
  changes := changes
  looks := looks

/-- The entry that a cursor finds from a slot on, with the slot behind it. -/
def seekEntry (m : ProbeMap κ ν) (start : Nat) : Option ((κ × ν) × Option Nat) :=
  (m.seek start).map fun (i, e) => ((e.key, e.value), some (i + 1))

/-- A slot yields the entries from it on. -/
theorem yields_entriesFrom (m : ProbeMap κ ν) {entries : List (ProbeEntry κ ν)} {i : Nat}
    (h : m.entriesFrom i = entries) :
    Yields m.seekEntry (some i) (entries.map ProbeEntry.pair) := by
  induction entries generalizing i with
  | nil => exact trivial
  | cons e rest ih =>
      rcases entryFrom_spec (m := m) (i := i) rfl with ⟨-, hnil⟩ | ⟨j, e', hseek, hcons⟩
      · cases h.symm.trans hnil
      · cases h.symm.trans hcons
        refine ⟨some (j + 1), ?_, ih rfl⟩
        rw [Option.bind_some, seekEntry, seek, hseek]
        rfl

/-- A new cursor has all entries before it. -/
theorem Sound.cursor_at (h : m.Sound) : m.cursor.At m.version m.seekEntry m.toList := by
  rw [toList_eq h.live]
  refine ⟨rfl, ?_, m.yields_entriesFrom (i := 0) rfl⟩
  show m.live = _
  rw [pairs, List.length_map, h.live]

/-- Where the next entry stands depends on the slots only. -/
theorem entryFrom_congr (h : m'.slots = m.slots) (count i : Nat) :
    m'.entryFrom count i = m.entryFrom count i := by
  induction count generalizing i with
  | zero => rfl
  | succ count ih => simp only [entryFrom, h, ih]

/-- A lookup changes nothing for a cursor. -/
theorem SameTable.advance_eq (hs : m.SameTable m') : m'.advance = m.advance := by
  funext c
  simp only [advance, seek, hs.version_eq, hs.slots_eq, entryFrom_congr hs.slots_eq]

/-- Probe maps keep their cursors in step. -/
theorem enumerable_sound : (enumerable : Enumerable (ProbeMap κ ν) _ _ _).Sound Sound where
  step {m op answer m'} h hstep := by
    have hupkept := h.perform hstep
    refine ⟨hupkept.sound, ⟨Nat.le_refl 0, ?_⟩, fun hlooks => ?_⟩
    · show m'.version = m.version + .ofNat ((changes op answer).toNat + 0)
      rw [hupkept.version]
      cases changes op answer <;> rfl
    · have hs := hupkept.same hlooks
      refine ⟨?_, hs.advance_eq⟩
      show m'.toList = m.toList
      rw [toList_eq hupkept.sound.live, toList_eq h.live, pairs, pairs, entries, hs.slots_eq]
      rfl
  size {m} h := by
    show m.live = m.toList.length
    rw [toList_eq h.live, pairs, List.length_map, h.live]
  cursor h := ⟨_, fun _ => rfl, h.cursor_at⟩

/-- A new probe map guards its cursors, whatever the comparer. -/
theorem enumerable_guards {o : ProbeOptions} {f : Sizing.LoadFactor} (hvalid : o.check = .ok f)
    (c : Comparer κ) :
    (enumerable : Enumerable (ProbeMap κ ν) _ _ _).Guards (withComparer o c) := by
  obtain ⟨m, hm, hstart, -⟩ : ∃ m : ProbeMap κ ν, _ := withComparer_stands hvalid c
  exact enumerable_sound.guards hm hstart.sound

end BoundedTables.ProbeMap
