import BoundedTables.Workload
import Mathlib.Data.Finset.Card
import Mathlib.Data.UInt

/-!
# The workload on a set of keys

What the workload counts does not depend on values or on the order of entries: it is what the same
operations do to a plain set of keys (`KeySet.after`). `Follows` collects what a container has to
do for that, operation by operation, as long as it has room for the whole key space. Then every
drive of it that does not fail reports what the set of keys says (`BuildsFollower.drive`).
-/

namespace BoundedTables.Workload

/-! ## Sets of keys -/

/-- A set of keys, and what the operations on it did. -/
structure KeySet where
  keys : Finset UInt64
  tally : Tally

namespace KeySet

/-- No keys, and nothing done. -/
def empty : KeySet := ⟨∅, .zero⟩

/-- Do one operation on a key. -/
def act (d : KeySet) (op : Operation) (key : UInt64) : KeySet :=
  match op with
  | .read => { d with tally := d.tally.read (key ∈ d.keys) }
  | .insert => ⟨insert key d.keys, d.tally.insert⟩
  | .remove => ⟨d.keys.erase key, d.tally.remove (key ∈ d.keys)⟩

/-- Do the operation with an index, if it has a key. -/
def step (s : WorkloadSettings) (d : KeySet) (i : Nat) : KeySet :=
  match keyAt? i s.keySpace with
  | some key => d.act (operationAt s i) (UInt64.ofNat key)
  | none => d

/-- What the workload does to a set of keys that is empty at first. -/
def after (s : WorkloadSettings) : KeySet := (List.range s.operations).foldl (step s) empty

/-- What a container reports that does the same as the set of keys, and drops nothing. -/
def report (s : WorkloadSettings) (name : String) : ContainerReport :=
  ⟨name, s.operations, (after s).tally, (after s).keys.card, 0, true⟩

/-- Every key is in the key space. -/
def Within (n : Nat) (d : KeySet) : Prop := ∀ key ∈ d.keys, key.toNat < n

/-- An operation on a key of the key space keeps the keys within it. -/
theorem Within.act {n : Nat} {d : KeySet} (h : Within n d) {key : UInt64} (hkey : key.toNat < n)
    (op : Operation) : Within n (d.act op key) := by
  cases op with
  | read => exact h
  | insert =>
      intro other hother
      rcases Finset.mem_insert.mp hother with rfl | hother
      · exact hkey
      · exact h other hother
  | remove => exact fun other hother => h other (Finset.mem_of_mem_erase hother)

/-- A key outside the set leaves less than the key space in it. -/
theorem Within.card_lt {n : Nat} {d : KeySet} (h : Within n d) {key : UInt64}
    (hkey : key.toNat < n) (hnew : key ∉ d.keys) : d.keys.card < n := by
  have hinj : Set.InjOn UInt64.toNat (insert key d.keys : Finset UInt64) := by
    intro a _ b _ hab
    exact UInt64.toNat_inj.mp hab
  have hsub : (insert key d.keys).image UInt64.toNat ⊆ Finset.range n := by
    intro i hi
    obtain ⟨other, hother, rfl⟩ := Finset.mem_image.mp hi
    exact Finset.mem_range.mpr (h.act hkey .insert other hother)
  have hcard := Finset.card_le_card hsub
  rw [Finset.card_image_of_injOn hinj, Finset.card_insert_of_notMem hnew, Finset.card_range]
    at hcard
  exact hcard

end KeySet

/-- A key of the sequence is in the key space. -/
theorem keyAt?_lt {i n key : Nat} (h : keyAt? i n = some key) : (UInt64.ofNat key).toNat < n := by
  unfold keyAt? at h
  split at h
  · cases h
  · cases h
    rw [UInt64.toNat_ofNat']
    exact (Nat.mod_le _ _).trans_lt (Nat.mod_lt _ (Nat.pos_of_ne_zero ‹n ≠ 0›))

/-! ## One operation on a container -/

section Follows

variable {C ν : Type} [Container C UInt64 ν] [Exercised C]

/-- What an operation leaves of a container and its tally, and whether it failed. -/
inductive Done (c : C) (tally : Tally) (key value : UInt64) : Operation → Driven C → Prop where
  | read : Done c tally key value .read
      ⟨(Exercised.read c key).2, tally.read (Exercised.read c key).1, none⟩
  | insert {c' : C} (written : Exercised.write c key value = (.ok (), c')) :
      Done c tally key value .insert ⟨c', tally.insert, none⟩
  | refused {c' : C} {e : TableError} (refused : Exercised.write c key value = (.error e, c')) :
      Done c tally key value .insert ⟨c', tally, some e⟩
  | remove {c' : C} {removed : Option ν} (removes : Container.remove c key = some (removed, c')) :
      Done c tally key value .remove ⟨c', tally.remove removed.isSome, none⟩

variable {s : WorkloadSettings} {c : C} {tally : Tally} {d d' : Driven C} {k : KeySet} {i : Nat}

/-- A step of a container that has not failed does one operation. -/
theorem exists_done (h : step s ⟨c, tally, none⟩ i = some d') : ∃ key,
    keyAt? i s.keySpace = some key ∧
      Done c tally (UInt64.ofNat key) (UInt64.ofNat i) (operationAt s i) d' := by
  unfold step at h
  obtain ⟨key, hkey, h⟩ := Option.bind_eq_some_iff.mp h
  refine ⟨key, hkey, ?_⟩
  cases hop : operationAt s i with
  | read =>
      rw [hop] at h
      cases h
      exact .read
  | insert =>
      rw [hop] at h
      dsimp only at h
      rcases hwrite : Exercised.write c (UInt64.ofNat key) (UInt64.ofNat i) with ⟨e | ⟨⟩, c'⟩
      · rw [hwrite] at h
        cases h
        exact .refused hwrite
      · rw [hwrite] at h
        cases h
        exact .insert hwrite
  | remove =>
      rw [hop] at h
      obtain ⟨⟨removed, c'⟩, hremove, h⟩ := Option.bind_eq_some_iff.mp h
      cases h
      exact .remove hremove

/-! ## Containers that follow a set of keys -/

/-- A container related to a set of keys acts as it does under the workload, and drops nothing,
while the set has room for a new key. -/
structure Follows (keySpace : Nat) (R : C → Finset UInt64 → Prop) : Prop where
  read : ∀ c S key, R c S →
    (Exercised.read c key).1 = decide (key ∈ S) ∧ R (Exercised.read c key).2 S
  write : ∀ c S key value c', R c S → (key ∉ S → S.card < keySpace) →
    Exercised.write c key value = (.ok (), c') → R c' (insert key S)
  remove : ∀ c S key removed c', R c S → Container.remove c key = some (removed, c') →
    removed.isSome = decide (key ∈ S) ∧ R c' (S.erase key)
  size : ∀ c S, R c S → Container.size c = S.card
  evictions : ∀ c S, R c S → Container.evictions c = 0
  consistent : ∀ c S, R c S → (Exercised.consistent c).1 = true

variable {R : C → Finset UInt64 → Prop}

/-- A container that has not failed is related to the keys, and did what the set of keys did. -/
def Matches (R : C → Finset UInt64 → Prop) (d : Driven C) (k : KeySet) : Prop :=
  d.failure = none → R d.container k.keys ∧ d.tally = k.tally

/-- A container that follows a set of keys does what one operation does to the set. -/
theorem Follows.act {n : Nat} (h : Follows n R) (hrel : R c k.keys) {key value : UInt64}
    (hroom : key ∉ k.keys → k.keys.card < n) {op : Operation}
    (hdone : Done c k.tally key value op d') : Matches R d' (k.act op key) := by
  intro halive
  cases hdone with
  | read =>
      obtain ⟨hfound, hnext⟩ := h.read c _ key hrel
      exact ⟨hnext, congrArg k.tally.read hfound⟩
  | insert hwritten => exact ⟨h.write c _ _ _ _ hrel hroom hwritten, rfl⟩
  | refused => cases halive
  | remove hremoves =>
      obtain ⟨hremoved, hnext⟩ := h.remove c _ _ _ _ hrel hremoves
      exact ⟨hnext, congrArg k.tally.remove hremoved⟩

/-- A container that follows a set of keys does what one step of the workload does to the set. -/
theorem Follows.step (h : Follows s.keySpace R) (hk : k.Within s.keySpace) (hd : Matches R d k)
    (hstep : Workload.step s d i = some d') :
    Matches R d' (k.step s i) ∧ (k.step s i).Within s.keySpace := by
  have hwithin : (k.step s i).Within s.keySpace := by
    unfold KeySet.step
    split
    · exact hk.act (keyAt?_lt ‹_›) _
    · exact hk
  refine ⟨?_, hwithin⟩
  obtain ⟨c, tally, _ | e⟩ := d
  · obtain ⟨hrel, rfl⟩ := hd rfl
    obtain ⟨key, hkey, hdone⟩ := exists_done hstep
    rw [KeySet.step, hkey]
    exact h.act hrel (hk.card_lt (keyAt?_lt hkey)) hdone
  · -- a container that has failed stays as it is
    cases hstep
    exact nofun

/-- A container follows the keys through any indices. -/
theorem Follows.steps (h : Follows s.keySpace R) {indices : List Nat}
    (hk : k.Within s.keySpace) (hd : Matches R d k)
    (hsteps : indices.foldlM (Workload.step s) d = some d') :
    Matches R d' (indices.foldl (KeySet.step s) k) := by
  induction indices generalizing d k with
  | nil =>
      cases hsteps
      exact hd
  | cons i indices ih =>
      obtain ⟨next, hfirst, hrest⟩ := Option.bind_eq_some_iff.mp hsteps
      obtain ⟨hnext, hwithin⟩ := h.step hk hd hfirst
      exact ih hwithin hnext hrest

/-- A container that follows a set of keys reports its number of keys, and that nothing was dropped.
-/
theorem Follows.inspect {n : Nat} (h : Follows n R) (hrel : R c k.keys) :
    (Workload.inspect s ⟨c, k.tally, none⟩).1 =
      ⟨Container.name C, s.operations, k.tally, k.keys.card, 0, true⟩ := by
  dsimp only [Workload.inspect]
  rw [h.size c _ hrel, h.evictions c _ hrel, h.consistent c _ hrel]

/-- What a construction builds follows a set of keys that is empty at first. -/
def BuildsFollower (keySpace : Nat) (build : Except TableError C) : Prop :=
  ∀ c, build = .ok c → ∃ R, Follows keySpace R ∧ R c ∅

/-- A drive that does not fail reports what the workload does to a set of keys. -/
theorem BuildsFollower.drive {build : Except TableError C} (h : BuildsFollower s.keySpace build)
    {report : ContainerReport} {journal : Journal}
    (hdrive : Workload.drive s build (List.range s.operations) = some (.ok report, journal)) :
    report = KeySet.report s (Container.name C) := by
  cases build with
  | error e => cases hdrive
  | ok c =>
      obtain ⟨R, hfollows, hempty⟩ := h c rfl
      obtain ⟨⟨final, tally, failure⟩, hsteps, hreport⟩ := Option.map_eq_some_iff.mp hdrive
      have hmatches := hfollows.steps (k := .empty) (by nofun) (fun _ => ⟨hempty, rfl⟩) hsteps
      cases failure with
      | some e => cases hreport
      | none =>
          obtain ⟨hrel, rfl⟩ := hmatches rfl
          cases hreport
          exact hfollows.inspect hrel

end Follows

end BoundedTables.Workload
