import BoundedTables.Proofs.DequeMap
import BoundedTables.Proofs.EntryList.Keys
import BoundedTables.Proofs.LruCache.Coherent
import BoundedTables.Proofs.MultiMap
import BoundedTables.Proofs.ProbeMap
import BoundedTables.Proofs.RingMap
import BoundedTables.Proofs.Settings.Acceptance
import BoundedTables.Proofs.Workload.KeySet

/-!
# Containers with room follow a set of keys

Each container stands for a list of entries, and with room for the whole key space none of these
lists ever drops an entry. So each of them holds the same keys as a plain set that is put to the
same use, whatever it does to their order: the ring keeps it, the deque and the cache change it
with every read, and the probe map has none.
-/

namespace BoundedTables.Workload

open Hashing EntryList

/-! ## Looking at a container -/

section Agreement

variable {C κ ν : Type} {keys : List κ}

end Agreement

variable {c : Comparer UInt64} {mode : CapacityMode} {limit : Option Nat} {n : Nat}
  {S : Finset UInt64} {key value : UInt64} {o : TableOptions} {seed : Seed}

/-! ## Options -/

/-- What was built has a positive limit. -/
theorem limit_pos {C : Type} {build : Except TableError C} {m : C} (hbuild : build = .ok m)
    (hchecked : build.isOk = o.check.isOk) : ∀ k ∈ o.limit?, 0 < k := by
  rw [hbuild] at hchecked
  obtain ⟨f, hvalid⟩ := exists_ok hchecked.symm
  exact TableOptions.limit_pos hvalid

/-- Entries have the keys of a set, and none was dropped. -/
structure Keeps {α : Type} (c : Comparer UInt64) (entries : List (UInt64 × α)) (evictions : Nat)
    (S : Finset UInt64) : Prop where
  keyed : Keyed c entries S
  evictions : evictions = 0

/-! ## The ring map -/

/-- A ring keeps the keys of a set, and has room for some number of keys. -/
structure RingKeeps (c : Comparer UInt64) (mode : CapacityMode) (n : Nat)
    (s : RingMap.Ideal UInt64 UInt64) (S : Finset UInt64) : Prop
    extends Keeps c s.entries s.evictions S where
  room : mode = .dynamic ∨ n ≤ s.room

section Ring

variable {s s' : RingMap.Ideal UInt64 UInt64}

/-- Where there is room, making room drops nothing. -/
theorem RingKeeps.makeRoom (h : RingKeeps c mode n s S) (hc : c.Exact) (hroom : S.card < n)
    (hmake : s.makeRoom mode = .ok s') : RingKeeps c mode n s' S := by
  have hcard := h.keyed.card_eq hc
  unfold RingMap.Ideal.makeRoom at hmake
  split at hmake
  · cases hmake
    exact h
  · rename_i hfull
    rcases h.room with rfl | hn
    · dsimp only at hmake
      split at hmake
      · cases hmake
        exact ⟨⟨h.keyed, h.evictions⟩, .inl rfl⟩
      · cases hmake
    · omega

/-- A write adds its key to the keys that a ring keeps. -/
theorem RingKeeps.write (h : RingKeeps c mode n s S) (hc : c.Exact)
    (hroom : key ∉ S → S.card < n) (hwrite : (s.insert c mode key value).1.isOk) :
    RingKeeps c mode n (s.insert c mode key value).2 (insert key S) := by
  have hpresent := h.keyed.value?_isSome hc key
  unfold RingMap.Ideal.insert at hwrite ⊢
  rcases hvalue : value? c key s.entries with _ | old <;> rw [hvalue] at hwrite hpresent
  · have hkey : key ∉ S := of_decide_eq_false hpresent.symm
    rcases hmake : s.makeRoom mode with e | s' <;> rw [hmake] at hwrite
    · cases hwrite
    · have hmade := h.makeRoom hc (hroom hkey) hmake
      refine ⟨⟨?_, hmade.evictions⟩, hmade.room⟩
      exact (hmade.keyed.cons hc hkey _).perm hc (List.perm_append_singleton _ _).symm
  · rw [Finset.insert_eq_of_mem (of_decide_eq_true hpresent.symm)]
    exact ⟨⟨h.keyed.modify key fun _ => (value, s.clock + 1), h.evictions⟩, h.room⟩

end Ring

/-! ## The deque map -/

section Deque

variable {s : DequeMap.Ideal UInt64 UInt64}

end Deque

/-! ## The multimap -/

section Multi

variable {s : MultiMap.Ideal UInt64 UInt64}

end Multi

/-! ## The cache -/

section Cache

variable {s : LruCache.Ideal UInt64 UInt64}

end Cache

/-! ## The probe map -/

section Probe

variable {s : List (UInt64 × UInt64)}

end Probe

end BoundedTables.Workload
