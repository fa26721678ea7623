import BoundedTables.Proofs.BloomFilter
import BoundedTables.Proofs.Table.Options
import Mathlib.Logic.Function.Basic

/-!
# Families of Bloom filters

Several filters stand at named places. Hashes are added to them, and they are united, copied and
cleared in any order. What these events keep of single filters, all filters of a family keep
(`Stable.after`). `Held` says how a hash came into a filter since that filter was last cleared:
it was added, it was held by a filter that was united into it, or by the one it was copied from.
Whatever the shapes of the filters, a hash that is held is a member (`containsHash_of_held`).
-/

namespace BoundedTables.BloomFilter

variable {ι : Type} [DecidableEq ι]

/-- A number of bits and a number of probes, at least one of each. -/
structure Shape where
  bitCount : Nat
  hashCount : Nat
  bits_pos : 1 ≤ bitCount
  probes_pos : 1 ≤ hashCount

/-- What happens to the filters of a family. -/
inductive Event (ι : Type) where
  | insert (place : ι) (hash : UInt64)
  /-- Unite the filter at another place into that at the first. -/
  | union (place other : ι)
  /-- Make the filter at the first place a copy of that at another. -/
  | clone (place other : ι)
  | clear (place : ι)

/-- The place of the filter that an event changes. -/
def Event.place : Event ι → ι
  | .insert i _ | .union i _ | .clone i _ | .clear i => i

/-- What an event makes of the filter that it changes. -/
def Event.result (filters : ι → BloomFilter) : Event ι → BloomFilter
  | .insert i hash => ((filters i).insertHash hash).2
  | .union i j => ((filters i).union (filters j)).2
  | .clone _ j => filters j
  | .clear i => (filters i).clear

/-- The filters after one event. -/
def Event.apply (filters : ι → BloomFilter) (event : Event ι) : ι → BloomFilter :=
  Function.update filters event.place (event.result filters)

/-- Empty filters of given shapes. -/
def fresh (options : ι → BloomOptions) (shapes : ι → Shape) (i : ι) : BloomFilter :=
  ofShape (options i) (shapes i).bitCount (shapes i).hashCount

/-- The filters after a history, which has the latest event first. -/
def after (start : ι → BloomFilter) : List (Event ι) → ι → BloomFilter
  | [] => start
  | event :: past => event.apply (after start past)

/-- Whether an event replaces the contents of the filter at a place. -/
def Event.Resets (i : ι) : Event ι → Prop
  | .clear j => j = i
  | .clone j _ => j = i
  | .insert _ _ | .union _ _ => False

/-- How a hash came into the filter at a place, in a history that has the latest event first. -/
inductive Held (start : ι → BloomFilter) : List (Event ι) → ι → UInt64 → Prop where
  | inserted (past : List (Event ι)) (i : ι) (hash : UInt64) :
      Held start (.insert i hash :: past) i hash
  | united {past : List (Event ι)} {i j : ι} {hash : UInt64}
      (hunion : ((after start past i).union (after start past j)).1.isOk)
      (hother : Held start past j hash) : Held start (.union i j :: past) i hash
  | copied {past : List (Event ι)} {j : ι} {hash : UInt64} (i : ι)
      (hother : Held start past j hash) : Held start (.clone i j :: past) i hash
  | kept {past : List (Event ι)} {i : ι} {hash : UInt64} {event : Event ι}
      (hpast : Held start past i hash) (hevent : ¬event.Resets i) :
      Held start (event :: past) i hash

variable {start filters : ι → BloomFilter} {past : List (Event ι)} {i : ι} {hash : UInt64}

/-- A property that filters keep when hashes are added to them, and when they are united and
cleared. -/
structure Stable (P : BloomFilter → Prop) : Prop where
  insertHash {f : BloomFilter} (hf : P f) (hash : UInt64) : P (f.insertHash hash).2
  union {f g u : BloomFilter} (hf : P f) (hg : P g) (h : f.union g = (.ok (), u)) : P u
  clear {f : BloomFilter} (hf : P f) : P f.clear

omit [DecidableEq ι] in
/-- An event gives the filter that it changes what all filters have. -/
theorem Stable.result {P : BloomFilter → Prop} (hP : Stable P) (h : ∀ i, P (filters i))
    (event : Event ι) : P (event.result filters) := by
  cases event with
  | insert i hash => exact hP.insertHash (h i) hash
  | union i j =>
      obtain ⟨u, hu⟩ | ⟨e, he⟩ := union_cases (filters i) (filters j)
      · rw [Event.result, hu]
        exact hP.union (h i) (h j) hu
      · rw [Event.result, he]
        exact h i
  | clone i j => exact h j
  | clear i => exact hP.clear (h i)

/-- What all filters of a family have at the start, they have after any history. -/
theorem Stable.after {P : BloomFilter → Prop} (hP : Stable P) (h : ∀ i, P (start i))
    (past : List (Event ι)) (i : ι) : P (after start past i) := by
  induction past generalizing i with
  | nil => exact h i
  | cons event past ih =>
      rw [BloomFilter.after, Event.apply, Function.update_apply]
      split
      · exact hP.result ih event
      · exact ih i

/-- Filters keep a word for each bit. -/
theorem shaped_stable : Stable Shaped := ⟨Shaped.insertHash, Shaped.union, Shaped.clear⟩

omit [DecidableEq ι] in
/-- An event that does not reset its filter forgets none of its members. -/
theorem Event.result_keeps (h : ∀ i, (filters i).Shaped) {event : Event ι}
    (hevent : ¬event.Resets event.place)
    (hmember : (filters event.place).containsHash hash = true) :
    (event.result filters).containsHash hash = true := by
  cases event with
  | insert i other => exact (h i).containsHash_insertHash hmember other
  | union i j =>
      obtain ⟨u, hu⟩ | ⟨e, he⟩ := union_cases (filters i) (filters j)
      · rw [Event.result, hu]
        exact (h i).containsHash_union (h j) hu (.inl hmember)
      · rw [Event.result, he]
        exact hmember
  | clone i j => exact absurd rfl hevent
  | clear i => exact absurd rfl hevent

/-- A hash that is held is a member when the filters had a word for each bit from the start. -/
theorem Held.containsHash (h : Held start past i hash) (hstart : ∀ i, (start i).Shaped) :
    (after start past i).containsHash hash = true := by
  have hshaped := shaped_stable.after hstart
  -- along the reason why the hash is held, which ends at an insertion
  induction h with
  | inserted past i hash =>
      rw [after, Event.apply, Event.place, Function.update_self]
      exact (hshaped past i).containsHash_insertHash_self hash
  | @united past i j hash hunion hother ih =>
      obtain ⟨u, hu⟩ := exists_union hunion
      rw [after, Event.apply, Event.place, Function.update_self, Event.result, hu]
      exact (hshaped past i).containsHash_union (hshaped past j) hu (.inr ih)
  | copied i hother ih =>
      rw [after, Event.apply, Event.place, Function.update_self]
      exact ih
  | @kept past i hash event hpast hevent ih =>
      rw [after, Event.apply, Function.update_apply]
      split
      · rename_i hplace
        subst hplace
        exact event.result_keeps (hshaped past) hevent ih
      · exact ih

/-- Whatever the shapes of the filters of a family and whatever happens to them, a filter has every
hash that came into it since it was last cleared. -/
theorem containsHash_of_held (options : ι → BloomOptions) (shapes : ι → Shape)
    (h : Held (fresh options shapes) past i hash) :
    (after (fresh options shapes) past i).containsHash hash = true :=
  h.containsHash fun i => ofShape_shaped (options i) (shapes i).bits_pos _

/-- The hash that was added to one filter is a member of the copy of another that the filter was
united into, although the filter itself was cleared before the copy was made. -/
theorem containsHash_of_united_copy :
    Held (fresh (fun _ => .standard) fun _ : Fin 3 => ⟨100, 3, by decide, by decide⟩)
      [.insert 0 5, .clone 2 0, .clear 1, .union 0 1, .insert 1 7] 2 7 ∧
    (after (fresh (fun _ => .standard) fun _ : Fin 3 => ⟨100, 3, by decide, by decide⟩)
      [.insert 0 5, .clone 2 0, .clear 1, .union 0 1, .insert 1 7] 2).containsHash 7 = true := by
  have hheld : Held
      (fresh (fun _ => .standard) fun _ : Fin 3 => ⟨100, 3, by decide, by decide⟩)
      [.insert 0 5, .clone 2 0, .clear 1, .union 0 1, .insert 1 7] 2 7 := by
    refine .kept (.copied 2 (.kept (.united ?_ (.inserted [] 1 7)) ?_)) ?_
    · rfl
    · show ¬(1 : Fin 3) = 0
      decide
    · exact fun h => h
  exact ⟨hheld, containsHash_of_held _ _ hheld⟩

end BoundedTables.BloomFilter
