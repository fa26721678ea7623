import BoundedTables.Proofs.RingMap.Cursor
import BoundedTables.Proofs.DequeMap.Cursor
import BoundedTables.Proofs.MultiMap.Cursor
import BoundedTables.Proofs.ProbeMap.Cursor

/-!
# Cursors over all containers

Every container with detached cursors guards them, however its comparer equates and hashes keys
(`containers_guard_cursors`). Writing through a reference to a present value (`modify`) is neither a
change nor a look: it does not move the version on, and nothing is said about the values that a
cursor yields afterwards.
-/

namespace BoundedTables

open Hashing Table

/-- Every cursor that is ever created over a container with checked options fails fast. -/
theorem containers_guard_cursors {κ ν : Type} [BEq ν] {o : TableOptions} {p : ProbeOptions}
    (ho : o.check.isOk) (hp : p.check.isOk) (c : Comparer κ) :
    (RingMap.enumerable : Enumerable (RingMap κ ν) _ _ _).Guards (RingMap.withComparer o c) ∧
    (DequeMap.enumerable : Enumerable (DequeMap κ ν) _ _ _).Guards (DequeMap.withComparer o c) ∧
    (MultiMap.enumerable : Enumerable (MultiMap κ ν) _ _ _).Guards (MultiMap.withComparer o c) ∧
    (ProbeMap.enumerable : Enumerable (ProbeMap κ ν) _ _ _).Guards (ProbeMap.withComparer p c) := by
  obtain ⟨f, hf⟩ := exists_ok ho
  obtain ⟨g, hg⟩ := exists_ok hp
  exact ⟨RingMap.enumerable_guards hf c, DequeMap.enumerable_guards hf c,
    MultiMap.enumerable_guards hf c, ProbeMap.enumerable_guards hg c⟩

/-- Over a full deque map of two entries, a cursor yields both around a read and then nothing more.
A cursor that yielded the first of them refuses to step after an insertion that evicted it. -/
theorem cursor_refuses_after_eviction :
    (⟨2, .fixed, 0.75, .deterministic⟩ : TableOptions).check.isOk ∧
    ProbeOptions.standard.check.isOk ∧
    ∃ start m : DequeMap UInt64 Nat, ∃ replies,
      DequeMap.withComparer ⟨2, .fixed, 0.75, .deterministic⟩ .natural = .ok start ∧
      run? DequeMap.enumerable.step start [.insert 1 10, .insert 2 20] = some (replies, m) ∧
      (∃ answers final c,
        run? DequeMap.enumerable.watch (m, m.cursor) [.advance, .perform (.get 1), .advance,
          .advance] = some (answers, (final, c)) ∧
        yields answers = [.ok (some (1, 10)), .ok (some (2, 20)), .ok none] ∧ c.remaining = 0) ∧
      ∃ answers final c,
        run? DequeMap.enumerable.watch (m, m.cursor) [.advance, .perform (.insert 3 30)] =
          some (answers, (final, c)) ∧
        final.advance c = (.error (.concurrentModification 2 4), c) := by
  have hvalid : (⟨2, .fixed, 0.75, .deterministic⟩ : TableOptions).check.isOk := by decide +kernel
  have hprobe : ProbeOptions.standard.check.isOk := by decide +kernel
  obtain ⟨-, ⟨start, hstart, hguards⟩, -⟩ :
      _ ∧ (DequeMap.enumerable : Enumerable (DequeMap UInt64 Nat) _ _ _).Guards _ ∧ _ :=
    containers_guard_cursors hvalid hprobe .natural
  obtain ⟨replies, m, hm⟩ : ∃ replies m, run? DequeMap.enumerable.step start
    [.insert 1 10, .insert 2 20] = some (replies, m) := ⟨_, _, rfl⟩
  have hfast := hguards _ _ _ hm
  obtain ⟨e₁, e₂, e₃, e₄, final, c, hread⟩ : ∃ e₁ e₂ e₃ e₄ final c,
      run? DequeMap.enumerable.watch (m, m.cursor) [.advance, .perform (.get 1), .advance,
        .advance] = some ([.yielded e₁, .performed (.get 1) e₂, .yielded e₃, .yielded e₄],
          (final, c)) := ⟨_, _, _, _, _, _, rfl⟩
  obtain ⟨answers, final', c', hinsert⟩ : ∃ answers final c,
      run? DequeMap.enumerable.watch (m, m.cursor) [.advance, .perform (.insert 3 30)] =
        some (answers, (final, c)) := ⟨_, _, _, rfl⟩
  have hcomputed : (DequeMap.withComparer ⟨2, .fixed, 0.75, .deterministic⟩
      .natural).toOption.bind (fun start : DequeMap UInt64 Nat =>
        (run? DequeMap.enumerable.step start [.insert 1 10, .insert 2 20]).bind fun (_, m) =>
        (run? DequeMap.enumerable.watch (m, m.cursor) [.advance, .perform (.insert 3 30)]).map
          fun (answers, (final, _)) => (m.toList, m.table.version, final.table.version,
            DequeMap.enumerable.bumps m final answers)) =
      some ([(1, 10), (2, 20)], 2, 4, 2) := by decide +kernel
  rw [hstart] at hcomputed
  simp only [Except.toOption, Option.bind_some, hm, hinsert, Option.map_some, Option.some.injEq,
    Prod.mk.injEq] at hcomputed
  obtain ⟨hlist, hversion, hversion', hbumps⟩ := hcomputed
  refine ⟨hvalid, hprobe, start, m, replies, hstart, hm, ⟨_, final, c, hread, ?_⟩, answers, final',
    c', hinsert, ?_⟩
  · have hlooks : DequeMap.enumerable.OnlyLooks
        [.yielded e₁, .performed (.get 1) e₂, .yielded e₃, .yielded e₄] := by
      intro op reply hmem
      obtain ⟨rfl, rfl⟩ : op = .get 1 ∧ reply = e₂ := by simpa using hmem
      rfl
    obtain ⟨hyields, hremaining, -⟩ := hfast.complete _ _ _ _ hread hlooks
    rw [show DequeMap.enumerable.toList m = _ from hlist] at hyields
    rw [hfast.size, show DequeMap.enumerable.toList m = _ from hlist] at hremaining
    exact ⟨hyields, hremaining⟩
  · have hstale := hfast.stale _ _ _ _ hinsert
    rw [hbumps] at hstale
    rw [← hversion, ← hversion']
    exact hstale (by decide) (by decide)

end BoundedTables
