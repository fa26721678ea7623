import BoundedTables.Table.Options

/-!
# What checked options promise

A container is only built from options that passed their check. `limit?` is the largest number of
entries that a mode and a capacity allow, and a limit that passed the check is positive.
-/

namespace BoundedTables

/-! ### Checks in sequence -/

section Sequence

variable {ε α β : Type} {x : Except ε α} {y : Except ε β}

/-- A check that passes has a result. -/
theorem exists_ok (h : x.isOk) : ∃ a, x = .ok a := by
  cases x with
  | error e => cases h
  | ok a => exact ⟨a, rfl⟩

/-- A check whose result passes a test has a result that does. -/
theorem exists_ok_of_any {p : α → Bool} (h : x.toOption.any p) : ∃ a, x = .ok a ∧ p a = true := by
  cases x with
  | error e => cases h
  | ok a => exact ⟨a, rfl, h⟩

/-- What follows a result goes on from it. -/
theorem bind_ok {a : α} {f : α → Except ε β} : (Except.ok a >>= f) = f a := rfl

/-- What has a result after a check, has passed the check. -/
theorem exists_ok_of_bind {f : α → Except ε β} {b : β} (h : (x >>= f) = .ok b) :
    ∃ a, x = .ok a ∧ f a = .ok b := by
  cases x with
  | error e => cases h
  | ok a => exact ⟨a, rfl, h⟩

/-- A mapped result comes from a result. -/
theorem exists_ok_of_map {g : α → β} {b : β} (h : x.map g = .ok b) : ∃ a, x = .ok a ∧ g a = b := by
  cases x with
  | error e => cases h
  | ok a => exact ⟨a, rfl, Except.ok.inj h⟩

/-- A check before another one passes when both do. -/
theorem isOk_then_iff : (x >>= fun _ => y).isOk ↔ x.isOk ∧ y.isOk := by
  cases x <;> simp [bind, Except.bind, Except.isOk, Except.toBool]

/-- What is made of a result does not change whether there is one. -/
theorem isOk_bind_pure {g : α → β} : (x >>= fun a => pure (g a)).isOk = x.isOk := by
  cases x <;> rfl

/-- Mapping a result does not change whether there is one. -/
theorem isOk_map {g : α → β} : (x.map g).isOk = x.isOk := by
  cases x <;> rfl

/-- A check of every member of a list passes when each member passes. -/
theorem isOk_forM_iff {checks : α → Except ε Unit} {l : List α} :
    (l.forM checks).isOk ↔ ∀ a ∈ l, (checks a).isOk := by
  induction l with
  | nil => simp [pure, Except.pure, Except.isOk, Except.toBool]
  | cons a l ih =>
      have hstep : (a :: l).forM checks = (checks a >>= fun _ => l.forM checks) := rfl
      rw [hstep, isOk_then_iff, ih, List.forall_mem_cons]

end Sequence

/-! ### What passed the check -/

/-- The largest number of entries, if there is one. -/
def CapacityMode.limit? (mode : CapacityMode) (capacity : Nat) : Option Nat :=
  match mode with
  | .fixed => some capacity
  | .dynamic => none

/-- The largest number of entries that options allow, if there is one. -/
def TableOptions.limit? (o : TableOptions) : Option Nat := o.mode.limit? o.capacity

/-- There is no room left exactly when the number of entries has reached the limit of the mode. -/
theorem CapacityMode.isFull_eq (mode : CapacityMode) (capacity n : Nat) :
    decide (mode = .fixed ∧ capacity ≤ n) = (mode.limit? capacity).any (· ≤ n) := by
  cases mode <;> simp [limit?]

/-- A capacity that passes its check is positive and not too large. -/
theorem checkCapacity_ok {name : String} {capacity : Nat} {u : Unit}
    (h : checkCapacity name capacity = .ok u) : 0 < capacity ∧ capacity ≤ Sizing.maxCapacity := by
  unfold checkCapacity at h
  split at h
  · cases h
  · split at h
    · cases h
    · omega

/-- Checked options have a positive capacity within bounds. -/
theorem TableOptions.check_ok {o : TableOptions} {f : Sizing.LoadFactor} (h : o.check = .ok f) :
    0 < o.capacity ∧ o.capacity ≤ Sizing.maxCapacity := by
  cases hcheck : checkCapacity "capacity" o.capacity with
  | error e =>
      rw [check, hcheck] at h
      cases h
  | ok u => exact checkCapacity_ok hcheck

/-- A limit that passed the check leaves room for an entry. -/
theorem TableOptions.limit_pos {o : TableOptions} {f : Sizing.LoadFactor} (h : o.check = .ok f) :
    ∀ n ∈ o.limit?, 0 < n := by
  have hpos := (check_ok h).1
  rw [limit?]
  cases o.mode <;> simp [CapacityMode.limit?, hpos]

end BoundedTables
