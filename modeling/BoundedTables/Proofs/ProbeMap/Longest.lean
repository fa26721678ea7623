import BoundedTables.Proofs.ProbeMap.Reachable
import Mathlib.Data.Finset.Lattice.Fold
import Mathlib.Data.Nat.ModEq
import Mathlib.Order.Lattice.Nat

/-!
# The longest distance of an entry from its home

`longest m` is the longest distance of any entry from its home slot, and zero when there is none.
Putting an entry into a free slot raises it to the distance of that slot if need be
(`longest_place`), taking one out may lower it. A rebuild starts from a table without entries, so
the bound that it leaves is the longest distance itself (`Sound.rebuild_longest`).
-/

namespace BoundedTables.ProbeMap

open Hashing Sizing

variable {κ ν : Type} {m m' : ProbeMap κ ν} {e e' : ProbeEntry κ ν} {hash : UInt32}
  {capacity distance i j n : Nat}

/-- How far the entry in a slot is from its home, and zero when there is none. -/
def reach (m : ProbeMap κ ν) (i : Nat) : Nat :=
  match (m.slots[i]?).bind Slot.entry? with
  | some e => m.displacement e.hash i
  | none => 0

/-- The longest distance of any entry from its home. -/
def longest (m : ProbeMap κ ν) : Nat := (Finset.range m.slots.size).sup m.reach

/-- The longest distance is at most a number when every entry's distance is. -/
theorem longest_le_iff : m.longest ≤ n ↔ ∀ (i : Nat) (e : ProbeEntry κ ν),
    m.slots[i]? = some (.occupied e) → m.displacement e.hash i ≤ n := by
  rw [longest, Finset.sup_le_iff]
  constructor
  · intro h i e hi
    have hreach := h i (Finset.mem_range.mpr (Array.getElem?_eq_some_iff.mp hi).1)
    rw [reach, hi] at hreach
    exact hreach
  · intro h i _
    unfold reach
    split
    · rename_i e he
      obtain ⟨slot, hi, hslot⟩ := Option.bind_eq_some_iff.mp he
      exact h i e (hi.trans (congrArg some (entry?_eq_some.mp hslot)))
    · exact Nat.zero_le n

/-- No entry is further from its home than the longest distance. -/
theorem displacement_le_longest (hi : m.slots[i]? = some (.occupied e)) :
    m.displacement e.hash i ≤ m.longest :=
  longest_le_iff.mp (Nat.le_refl _) i e hi

/-- Distances depend on the number of slots only. -/
theorem displacement_congr (hsize : m'.slots.size = m.slots.size) (hash : UInt32) (i : Nat) :
    m'.displacement hash i = m.displacement hash i := by
  rw [displacement, displacement, home, home, hsize]

/-- The bound of a sound table covers every entry. -/
theorem Sound.longest_le (h : m.Sound) : m.longest ≤ m.maxDisplacement :=
  longest_le_iff.mpr h.intact.near

/-- Without entries the longest distance is zero. -/
theorem longest_of_vacant (h : ∀ (i : Nat) (e : ProbeEntry κ ν), m.slots[i]? ≠ some (.occupied e)) :
    m.longest = 0 :=
  Nat.le_zero.mp (longest_le_iff.mpr fun i e hi => absurd hi (h i e))

/-- A table without entries has none that is away from its home. -/
theorem Sound.longest_of_empty (h : m.Sound) (hempty : m.live = 0) : m.longest = 0 := by
  refine longest_of_vacant ?_
  intro i e hi
  have hlive := h.live_pos hi
  omega

/-- Fresh slots have no entry. -/
theorem emptySlots_vacant (capacity i : Nat) (e : ProbeEntry κ ν) :
    (emptySlots capacity : Array (Slot κ ν))[i]? ≠ some (.occupied e) := by
  rw [emptySlots, Array.getElem?_replicate]
  split <;> simp

/-- In a fresh table the longest distance is zero. -/
theorem longest_emptied (m : ProbeMap κ ν) (capacity : Nat) : (m.emptied capacity).longest = 0 :=
  longest_of_vacant (emptySlots_vacant capacity)

/-- In a cleared table the longest distance is zero. -/
theorem longest_clear (m : ProbeMap κ ν) : m.clear.longest = 0 :=
  longest_of_vacant (emptySlots_vacant m.slots.size)

/-- Of two entries with the same hash, one is away from its home. -/
theorem longest_pos (hi : m.slots[i]? = some (.occupied e)) (hj : m.slots[j]? = some (.occupied e'))
    (hne : i ≠ j) (hhash : e.hash = e'.hash) : 0 < m.longest := by
  have hi_lt := (Array.getElem?_eq_some_iff.mp hi).1
  have hj_lt := (Array.getElem?_eq_some_iff.mp hj).1
  have hle := displacement_le_longest hi
  have hle' := displacement_le_longest hj
  rw [hhash] at hle
  -- two slots at the same distance from a home are the same
  by_contra hzero
  have hsame : m.displacement e'.hash i = m.displacement e'.hash j := by omega
  have hhome : m.home e'.hash ≤ m.slots.size - 1 := Nat.and_le_right
  refine hne ?_
  have hmod : i + m.slots.size - m.home e'.hash ≡ j + m.slots.size - m.home e'.hash
      [MOD m.slots.size] := hsame
  have hshift := hmod.add_right (m.home e'.hash)
  rw [Nat.sub_add_cancel (by omega), Nat.sub_add_cancel (by omega)] at hshift
  exact Nat.ModEq.eq_of_lt_of_lt (Nat.ModEq.add_right_cancel' _ hshift) hi_lt hj_lt

/-! ## Writing a slot -/

/-- An entry in a free slot reaches as far as the slot is from its home. -/
theorem longest_place (hpow : ∃ k, m.slots.size = 2 ^ k) (hfree : Free m.slots e.hash i distance) :
    (m.place i distance e).longest = max m.longest distance := by
  have hsize : (m.place i distance e).slots.size = m.slots.size := Array.size_setIfInBounds
  have hhere : m.displacement e.hash i = distance :=
    displacement_of_position hpow hfree.lt hfree.position
  refine Nat.le_antisymm ?_ (Nat.max_le.mpr ⟨?_, ?_⟩)
  · refine longest_le_iff.mpr ?_
    intro j a hj
    rw [displacement_congr hsize]
    obtain ⟨rfl, heq⟩ | hj := getElem?_write_eq_occupied hj
    · cases heq
      exact hhere ▸ Nat.le_max_right ..
    · exact (displacement_le_longest hj).trans (Nat.le_max_left ..)
  · refine longest_le_iff.mpr ?_
    intro j a hj
    have hne : i ≠ j := by
      rintro rfl
      have hvacant := hfree.vacant
      rw [hj] at hvacant
      cases hvacant
    have hkept : (m.place i distance e).slots[j]? = some (.occupied a) :=
      (Array.getElem?_setIfInBounds_ne hne).trans hj
    rw [← displacement_congr hsize]
    exact displacement_le_longest hkept
  · have hplaced : (m.place i distance e).slots[i]? = some (.occupied e) :=
      Array.getElem?_setIfInBounds_self_of_lt hfree.index_lt
    rw [← hhere, ← displacement_congr hsize]
    exact displacement_le_longest hplaced

/-- A removal does not lengthen the distance of any entry. -/
theorem longest_vacate_le (m : ProbeMap κ ν) (i : Nat) : (m.vacate i).longest ≤ m.longest := by
  refine longest_le_iff.mpr ?_
  intro j a hj
  rw [displacement_congr (vacate_size m i)]
  obtain ⟨-, heq⟩ | hj := getElem?_write_eq_occupied hj
  · cases heq
  · exact displacement_le_longest hj

/-- Values have no part in the distances. -/
theorem longest_modifySlot (hi : m.slots[i]? = some (.occupied e)) (f : ν → ν)
    (hslots : m'.slots = ProbeMap.modifySlot m.slots i f) : m'.longest = m.longest := by
  have hsize : m'.slots.size = m.slots.size := by rw [hslots, modifySlot_size]
  rw [modifySlot_eq hi] at hslots
  refine Nat.le_antisymm (longest_le_iff.mpr ?_) (longest_le_iff.mpr ?_)
  · intro j a hj
    rw [displacement_congr hsize]
    rw [hslots] at hj
    obtain ⟨rfl, heq⟩ | hj := getElem?_write_eq_occupied hj
    · cases heq
      have hle := displacement_le_longest hi
      exact hle
    · exact displacement_le_longest hj
  · intro j a hj
    rw [← displacement_congr hsize]
    by_cases hne : i = j
    · subst hne
      cases hi.symm.trans hj
      have hchanged : m'.slots[i]? = some (.occupied { e with value := f e.value }) := by
        rw [hslots]
        exact Array.getElem?_setIfInBounds_self_of_lt (Array.getElem?_eq_some_iff.mp hi).1
      have hle := displacement_le_longest hchanged
      exact hle
    · refine displacement_le_longest ?_
      rw [hslots, Array.getElem?_setIfInBounds_ne hne]
      exact hj

/-! ## Rebuilding -/

/-- Moving an entry keeps a bound that is the longest distance. -/
theorem Tidy.reinsert_longest (h : m.Tidy) (hroom : m.entries.length < m.slots.size)
    (hpow : ∃ k, m.slots.size = 2 ^ k) (hlongest : m.longest = m.maxDisplacement)
    (e : ProbeEntry κ ν) : (m.reinsert e).longest = (m.reinsert e).maxDisplacement := by
  obtain ⟨i, distance, hslot⟩ := exists_freeSlot hroom e.hash
  have hfree := freeSlot_free h.searchable.slots_pos hslot
  unfold ProbeMap.reinsert
  dsimp only
  rw [hslot]
  refine (longest_place (m := { m with filter := _ }) hpow hfree).trans ?_
  exact congrArg (max · distance) hlongest

/-- Reinserting entries keeps the bound on the distances equal to the longest one. -/
theorem Tidy.foldl_reinsert_longest (h : m.Tidy) (moved : List (ProbeEntry κ ν))
    (hroom : m.entries.length + moved.length ≤ m.slots.size)
    (hpow : ∃ k, m.slots.size = 2 ^ k) (hlongest : m.longest = m.maxDisplacement) :
    (moved.foldl ProbeMap.reinsert m).longest =
      (moved.foldl ProbeMap.reinsert m).maxDisplacement := by
  induction moved generalizing m with
  | nil => exact hlongest
  | cons e moved ih =>
      rw [List.length_cons] at hroom
      obtain ⟨htidy, hsize, hentries, -⟩ := h.reinsert (by omega) e
      have hnext := h.reinsert_longest (by omega) hpow hlongest e
      refine ih htidy ?_ (hsize ▸ hpow) hnext
      rw [hentries.length_eq, List.length_cons, hsize]
      omega

/-- The bound of a table that was just rebuilt is the longest distance. -/
theorem Sound.rebuild_longest (h : m.Sound) (hsuits : m.Suits capacity) (reason : RebuildReason) :
    (m.rebuild capacity reason).longest = (m.rebuild capacity reason).maxDisplacement := by
  obtain ⟨_, _, _, _, hrebuild⟩ := m.rebuild_eq capacity reason
  rw [hrebuild]
  refine (m.emptied_tidy hsuits.pos).foldl_reinsert_longest m.entries ?_ ?_
    (m.longest_emptied capacity)
  · rw [emptied_entries, emptied_size, h.live, List.length_nil, Nat.zero_add]
    exact Nat.le_of_lt hsuits.room
  · rw [emptied_size]
    exact hsuits.pow

end BoundedTables.ProbeMap
