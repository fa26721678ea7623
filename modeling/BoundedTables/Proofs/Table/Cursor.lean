import BoundedTables.Proofs.Run
import BoundedTables.Table.Cursor

/-!
# Cursors that notice every change

A detached cursor walks over a container that other operations go on using. `FailFast E m` says
what every cursor that is created in the state `m` of a container `E` does, whatever happens to the
container meanwhile: as long as nothing but looking happens, it yields the entries in order and
then nothing more, and once anything changed it refuses to step, whether or not it had finished.

Two facts about a container give this (`Enumerable.Sound.failFast`). `Kept` is about one operation:
it moves the version on by one for its change and by one for each eviction, and leaves every cursor
alone if it only looks. `Cursor.At` is about one cursor: looking up entries from its position on
yields those of a list.
-/

namespace BoundedTables.Table

variable {σ ι ρ α : Type}

/-! ## Versions -/

/-- A version that moved on by one for each of some changes, and for each eviction counted between
two numbers of them. -/
structure Bumped (v v' : UInt64) (e e' changes : Nat) : Prop where
  evictions : e ≤ e'
  version : v' = v + .ofNat (changes + (e' - e))

section Bumped

variable {v v' v'' : UInt64} {e e' e'' n k : Nat}

/-- Without changes and evictions a version stays. -/
theorem Bumped.refl (v : UInt64) (e : Nat) : Bumped v v e e 0 := by
  refine ⟨Nat.le_refl e, ?_⟩
  rw [Nat.sub_self]
  exact (UInt64.add_zero v).symm

/-- The changes of two stretches add up. -/
theorem Bumped.trans (h : Bumped v v' e e' n) (h' : Bumped v' v'' e' e'' k) :
    Bumped v v'' e e'' (n + k) := by
  have hle := h.evictions
  have hle' := h'.evictions
  refine ⟨Nat.le_trans hle hle', ?_⟩
  have hsum : n + k + (e'' - e) = (n + (e' - e)) + (k + (e'' - e')) := by omega
  rw [h'.version, h.version, UInt64.add_assoc, hsum, UInt64.ofNat_add (n + (e' - e))]

/-- A change. -/
theorem Bumped.change (v : UInt64) (e : Nat) : Bumped v (v + 1) e e 1 := by
  refine ⟨Nat.le_refl e, ?_⟩
  rw [Nat.sub_self]
  rfl

/-- A change that is counted as an eviction. -/
theorem Bumped.evicted (h : Bumped v v' e e' (n + 1)) : Bumped v v' e (e' + 1) n := by
  have hle := h.evictions
  refine ⟨Nat.le_succ_of_le hle, ?_⟩
  have hsum : n + 1 + (e' - e) = n + (e' + 1 - e) := by omega
  rw [h.version, hsum]

/-- A version only comes back to itself after as many changes and evictions as there are
versions. -/
theorem Bumped.version_ne (h : Bumped v v' e e' n) (hpos : 0 < n + (e' - e))
    (hlt : n + (e' - e) < UInt64.size) : v ≠ v' := by
  intro heq
  have hsum := congrArg UInt64.toNat h.version
  rw [← heq, UInt64.toNat_add, UInt64.toNat_ofNat_of_lt' hlt] at hsum
  have hv := v.toNat_lt
  unfold UInt64.size at hlt
  omega

end Bumped

/-! ## Positions -/

/-- Looking up entries from a position on yields those of a list, one after the other. -/
def Yields (seek : Nat → Option (α × Option Nat)) : Option Nat → List α → Prop
  | _, [] => True
  | position, e :: rest =>
      ∃ next, position.bind seek = some (e, next) ∧ Yields seek next rest

namespace Cursor

/-- A cursor of a version that has the entries of a list before it. -/
structure At (c : Cursor) (version : UInt64) (seek : Nat → Option (α × Option Nat))
    (left : List α) : Prop where
  version : c.version = version
  remaining : c.remaining = left.length
  yields : Yields seek c.position left

variable {c : Cursor} {version : UInt64} {seek : Nat → Option (α × Option Nat)} {left : List α}

/-- A cursor yields the entries before it, and nothing more behind the last one. -/
theorem At.advance (h : c.At version seek left) : ∃ c',
    c.advance version seek = (.ok left.head?, c') ∧ c'.At version seek left.tail := by
  have hcheck : c.check version = .ok () := if_pos h.version
  unfold Cursor.advance
  rw [hcheck]
  cases left with
  | nil =>
      have hfinished : c.isFinished = true := by simp [isFinished, h.remaining]
      exact ⟨c, if_pos hfinished, h⟩
  | cons e rest =>
      obtain ⟨next, hseek, hyields⟩ := h.yields
      have hposition : c.position ≠ none := by
        intro hnone
        rw [hnone] at hseek
        cases hseek
      have hfinished : ¬ c.isFinished = true := by simp [isFinished, h.remaining, hposition]
      refine ⟨c.step next, ?_, h.version, ?_, hyields⟩
      · rw [hseek]
        exact if_neg hfinished
      · show c.remaining - 1 = rest.length
        rw [h.remaining, List.length_cons, Nat.add_sub_cancel]

/-- A cursor keeps the version it was created with. -/
theorem advance_version (c : Cursor) (version : UInt64) (seek : Nat → Option (α × Option Nat)) :
    (c.advance version seek).2.version = c.version := by
  unfold Cursor.advance
  split
  · rfl
  · split
    · rfl
    · split <;> rfl

/-- A cursor of another version refuses to step, and stays where it is. -/
theorem advance_stale (h : c.version ≠ version) :
    c.advance version seek = (.error (.concurrentModification c.version version), c) := by
  have hcheck : c.check version = .error (.concurrentModification c.version version) := if_neg h
  unfold Cursor.advance
  rw [hcheck]

end Cursor

/-! ## Containers with cursors -/

/-- What a container with cursors offers. Its operations may fail to have a result. -/
structure Enumerable (σ ι ρ α : Type) where
  step : σ → ι → Option (ρ × σ)
  toList : σ → List α
  size : σ → Nat
  version : σ → UInt64
  /-- How many entries were dropped to make room. -/
  evictions : σ → Nat
  cursor : σ → Cursor
  advance : σ → Cursor → Except TableError (Option α) × Cursor
  /-- Whether an operation that was answered so changed the container. -/
  changes : ι → ρ → Bool
  /-- Whether an operation that was answered so was a read or a miss. -/
  looks : ι → ρ → Bool

/-- An operation on a container, or a step of a cursor. -/
inductive Turn (ι : Type) where
  | perform (op : ι)
  | advance

/-- How a turn was answered. -/
inductive Answer (ι ρ α : Type) where
  | performed (op : ι) (reply : ρ)
  | yielded (e : Except TableError (Option α))

/-- What a cursor yielded. -/
def yields : List (Answer ι ρ α) → List (Except TableError (Option α)) :=
  List.filterMap fun
    | .performed _ _ => none
    | .yielded e => some e

namespace Enumerable

variable (E : Enumerable σ ι ρ α)

/-- What happens to a container and to a cursor over it. -/
def watch : σ × Cursor → Turn ι → Option (Answer ι ρ α × (σ × Cursor))
  | (m, c), .perform op => (E.step m op).map fun (reply, m) => (.performed op reply, (m, c))
  | (m, c), .advance =>
      let (e, c) := E.advance m c
      some (.yielded e, (m, c))

/-- Whether an answer is that of an operation that changed the container. -/
def changed : Answer ι ρ α → Bool
  | .performed op reply => E.changes op reply
  | .yielded _ => false

/-- How many operations changed the container. -/
def changeCount (answers : List (Answer ι ρ α)) : Nat := answers.countP E.changed

/-- Nothing but reads and misses happened. -/
def OnlyLooks (answers : List (Answer ι ρ α)) : Prop :=
  ∀ op reply, .performed op reply ∈ answers → E.looks op reply = true

/-- How often the version moved on: once for every change and once for every eviction. -/
def bumps (m final : σ) (answers : List (Answer ι ρ α)) : Nat :=
  E.changeCount answers + (E.evictions final - E.evictions m)

/-- What every cursor that is created in a state of a container does, whatever happens to the
container and whenever the cursor is advanced. -/
structure FailFast (m : σ) : Prop where
  size : E.size m = (E.toList m).length
  /-- While nothing but reads and misses happens, the cursor yields the entries in order and counts
  down to nothing, and then yields nothing more. -/
  complete : ∀ turns answers final c,
    run? E.watch (m, E.cursor m) turns = some (answers, (final, c)) → E.OnlyLooks answers →
    yields answers = (List.range (yields answers).length).map (fun k => .ok (E.toList m)[k]?) ∧
    c.remaining = E.size m - (yields answers).length ∧ E.toList final = E.toList m
  /-- The version tells how often the container changed or evicted. -/
  version : ∀ turns answers final c,
    run? E.watch (m, E.cursor m) turns = some (answers, (final, c)) →
    E.version final = E.version m + .ofNat (E.bumps m final answers)
  /-- After a change or an eviction, and before the version has come back to itself, the cursor
  refuses to step wherever it is, and stays there. -/
  stale : ∀ turns answers final c,
    run? E.watch (m, E.cursor m) turns = some (answers, (final, c)) →
    0 < E.bumps m final answers → E.bumps m final answers < UInt64.size →
    E.advance final c = (.error (.concurrentModification (E.version m) (E.version final)), c)

/-- Every cursor that is ever created over a container from its start on fails fast. -/
def Guards (start : Except TableError σ) : Prop :=
  ∃ m, start = .ok m ∧ ∀ ops answers final,
    run? E.step m ops = some (answers, final) → E.FailFast final

/-! ## What containers have to show -/

/-- What one operation with a given answer does to the version, and to cursors. -/
structure Kept (m : σ) (op : ι) (reply : ρ) (m' : σ) : Prop where
  bumped : Bumped (E.version m) (E.version m') (E.evictions m) (E.evictions m')
    (E.changes op reply).toNat
  same : E.looks op reply = true → E.toList m' = E.toList m ∧ E.advance m' = E.advance m

/-- An invariant of a container that its operations keep, and under which a new cursor has the
entries of the container before it. -/
structure Sound (Inv : σ → Prop) : Prop where
  step : ∀ {m op reply m'}, Inv m → E.step m op = some (reply, m') →
    Inv m' ∧ E.Kept m op reply m'
  size : ∀ {m}, Inv m → E.size m = (E.toList m).length
  cursor : ∀ {m}, Inv m → ∃ seek,
    (∀ c, E.advance m c = Cursor.advance c (E.version m) seek) ∧
    (E.cursor m).At (E.version m) seek (E.toList m)

variable {E} {Inv : σ → Prop} {m m' final : σ} {op : ι} {reply : ρ} {c c' : Cursor}
  {turns : List (Turn ι)} {answers : List (Answer ι ρ α)} {left : List α}
  {seek : Nat → Option (α × Option Nat)} {version : UInt64}

/-- An operation that is neither a read nor a miss. -/
theorem Kept.of_bumped (hlooks : E.looks op reply = false)
    (hbumped : Bumped (E.version m) (E.version m') (E.evictions m) (E.evictions m')
      (E.changes op reply).toNat) : E.Kept m op reply m' :=
  ⟨hbumped, fun h => absurd (hlooks.symm.trans h) Bool.false_ne_true⟩

/-- An operation that leaves every cursor alone. -/
theorem Kept.of_same (hchanges : E.changes op reply = false)
    (hbumped : Bumped (E.version m) (E.version m') (E.evictions m) (E.evictions m') 0)
    (hlist : E.toList m' = E.toList m) (hadvance : E.advance m' = E.advance m) :
    E.Kept m op reply m' := by
  refine ⟨?_, fun _ => ⟨hlist, hadvance⟩⟩
  rw [hchanges]
  exact hbumped

/-- Along a run of reads and misses, a cursor yields what it has before it. -/
theorem Sound.complete (hE : E.Sound Inv) (h : Inv m)
    (hadvance : ∀ c, E.advance m c = c.advance version seek) (hc : c.At version seek left)
    (hrun : run? E.watch (m, c) turns = some (answers, (final, c')))
    (hlooks : E.OnlyLooks answers) :
    yields answers = (List.range (yields answers).length).map (fun k => .ok left[k]?) ∧
    c'.remaining = left.length - (yields answers).length ∧ E.toList final = E.toList m := by
  induction turns generalizing m c left answers with
  | nil =>
      cases hrun
      exact ⟨rfl, hc.remaining, rfl⟩
  | cons turn turns ih =>
      obtain ⟨answer, ⟨m₁, c₁⟩, rest, hfirst, hrest, rfl⟩ := run?_cons.mp hrun
      have hlooks' : E.OnlyLooks rest := fun op reply hmem =>
        hlooks op reply (List.mem_cons_of_mem _ hmem)
      cases turn with
      | perform op =>
          obtain ⟨⟨reply, m₂⟩, hstep, heq⟩ := Option.map_eq_some_iff.mp hfirst
          cases heq
          obtain ⟨hnext, hkept⟩ := hE.step h hstep
          obtain ⟨hlist, hsame⟩ := hkept.same (hlooks op reply List.mem_cons_self)
          -- after a look, cursors seek as in the state that the cursor was created in
          have hadvance' : ∀ c, E.advance m₁ c = c.advance version seek := by
            intro c
            rw [hsame, hadvance]
          obtain ⟨hyields, hremaining, hfinal⟩ := ih hnext hadvance' hc hrest hlooks'
          exact ⟨hyields, hremaining, hfinal.trans hlist⟩
      | advance =>
          obtain ⟨c₂, hstep, hc₂⟩ := hc.advance
          rw [watch, hadvance, hstep] at hfirst
          cases hfirst
          obtain ⟨hyields, hremaining, hfinal⟩ := ih h hadvance hc₂ hrest hlooks'
          have hcons : yields (.yielded (.ok left.head?) :: rest) =
              .ok left.head? :: yields rest := rfl
          rw [hcons, List.length_cons, List.range_succ_eq_map, List.map_cons, List.map_map]
          refine ⟨?_, ?_, hfinal⟩
          · -- what comes next is yielded from the tail, one place behind
            simp only [List.getElem?_tail] at hyields
            rw [List.head?_eq_getElem?]
            exact congrArg (.ok left[0]? :: ·) hyields
          · rw [hremaining, List.length_tail]
            omega

/-- The changes are those of the first operation and of the answers behind it. -/
theorem changeCount_performed (op : ι) (reply : ρ) (answers : List (Answer ι ρ α)) :
    E.changeCount (.performed op reply :: answers) =
      (E.changes op reply).toNat + E.changeCount answers := by
  rw [changeCount, List.countP_cons, changed, Nat.add_comm]
  cases E.changes op reply <;> rfl

/-- Along any run, the version counts the changes and the evictions, and a cursor keeps the one it
was created with. -/
theorem Sound.bumped (hE : E.Sound Inv) (h : Inv m)
    (hrun : run? E.watch (m, c) turns = some (answers, (final, c'))) :
    Inv final ∧ c'.version = c.version ∧
      Bumped (E.version m) (E.version final) (E.evictions m) (E.evictions final)
        (E.changeCount answers) := by
  induction turns generalizing m c answers with
  | nil =>
      cases hrun
      exact ⟨h, rfl, .refl _ _⟩
  | cons turn turns ih =>
      obtain ⟨answer, ⟨m₁, c₁⟩, rest, hfirst, hrest, rfl⟩ := run?_cons.mp hrun
      cases turn with
      | perform op =>
          obtain ⟨⟨reply, m₂⟩, hstep, heq⟩ := Option.map_eq_some_iff.mp hfirst
          cases heq
          obtain ⟨hnext, hkept⟩ := hE.step h hstep
          obtain ⟨hinv, hversion, hbumped⟩ := ih hnext hrest
          rw [changeCount_performed]
          exact ⟨hinv, hversion, hkept.bumped.trans hbumped⟩
      | advance =>
          obtain ⟨seek, hadvance, -⟩ := hE.cursor h
          rw [watch, hadvance] at hfirst
          cases hfirst
          obtain ⟨hinv, hversion, hbumped⟩ := ih h hrest
          exact ⟨hinv, hversion.trans (Cursor.advance_version ..), hbumped⟩

/-- A sound container has cursors that fail fast. -/
theorem Sound.failFast (hE : E.Sound Inv) (h : Inv m) : E.FailFast m where
  size := hE.size h
  complete turns answers final c hrun hlooks := by
    obtain ⟨seek, hadvance, hcursor⟩ := hE.cursor h
    rw [hE.size h]
    exact hE.complete h hadvance hcursor hrun hlooks
  version turns answers final c hrun := (hE.bumped h hrun).2.2.version
  stale turns answers final c hrun hpos hlt := by
    obtain ⟨hinv, hversion, hbumped⟩ := hE.bumped h hrun
    obtain ⟨seek, -, hcursor⟩ := hE.cursor h
    obtain ⟨seek', hadvance, -⟩ := hE.cursor hinv
    -- the cursor still has the version of the state it was created in
    rw [hcursor.version] at hversion
    rw [hadvance, Cursor.advance_stale (by rw [hversion]; exact hbumped.version_ne hpos hlt),
      hversion]

/-- A container whose start is sound guards its cursors. -/
theorem Sound.guards (hE : E.Sound Inv) {start : Except TableError σ} (hstart : start = .ok m)
    (h : Inv m) : E.Guards start := by
  refine ⟨m, hstart, fun ops answers final hrun => hE.failFast ?_⟩
  clear hstart
  induction ops generalizing m answers with
  | nil =>
      cases hrun
      exact h
  | cons op ops ih =>
      obtain ⟨answer, next, rest, hfirst, hrest, rfl⟩ := run?_cons.mp hrun
      exact ih (hE.step h hfirst).1 rest hrest

end Enumerable

end BoundedTables.Table
