import BoundedTables.Proofs.DequeMap.Lookups
import BoundedTables.Proofs.LruCache.Lookups
import BoundedTables.Proofs.MultiMap.Lookups
import BoundedTables.Proofs.ProbeMap.Lookups
import BoundedTables.Proofs.RingMap.Lookups

/-!
# Lookups in all containers

Every container with a collision threshold accounts for its lookups, each of them once
(`containers_account_for_lookups`). Iterators and cursors only read a container and return no other
one, so they are not among the operations of a run.
-/

namespace BoundedTables

open Hashing

variable {κ ν : Type}

/-- Over every run from a new container, whatever its comparer, each operation with a key leaves one
note and no other operation leaves any, and the monitor has heard the lengths in the notes and
nothing else. -/
theorem containers_account_for_lookups [BEq ν] {o : TableOptions} {p : ProbeOptions}
    {threshold probeThreshold : Nat} (ho : o.check.isOk) (hp : p.check.isOk)
    (hthreshold : o.hashing.collisionThreshold = some threshold)
    (hprobe : p.hashing.collisionThreshold = some probeThreshold) :
    (∀ c : Comparer κ,
      RingMap.watched.Accounts threshold o.hashing.hasCallback
        (RingMap.withComparer o c : Except _ (RingMap κ ν)) ∧
      DequeMap.watched.Accounts threshold o.hashing.hasCallback
        (DequeMap.withComparer o c : Except _ (DequeMap κ ν)) ∧
      MultiMap.watched.Accounts threshold o.hashing.hasCallback
        (MultiMap.withComparer o c : Except _ (MultiMap κ ν)) ∧
      LruCache.watched.Accounts threshold o.hashing.hasCallback
        (LruCache.withComparer o c : Except _ (LruCache κ ν)) ∧
      ProbeMap.watched.Accounts probeThreshold p.hashing.hasCallback
        (ProbeMap.withComparer p c : Except _ (ProbeMap κ ν))) ∧
    ∀ [ByteHash] [ByteKey κ] [DecidableEq κ] (seed : Seed),
      RingMap.watched.Accounts threshold o.hashing.hasCallback
        (RingMap.new o seed : Except _ (RingMap κ ν)) ∧
      DequeMap.watched.Accounts threshold o.hashing.hasCallback
        (DequeMap.new o seed : Except _ (DequeMap κ ν)) ∧
      MultiMap.watched.Accounts threshold o.hashing.hasCallback
        (MultiMap.new o seed : Except _ (MultiMap κ ν)) ∧
      LruCache.watched.Accounts threshold o.hashing.hasCallback
        (LruCache.new o seed : Except _ (LruCache κ ν)) ∧
      ProbeMap.watched.Accounts probeThreshold p.hashing.hasCallback
        (ProbeMap.new p seed : Except _ (ProbeMap κ ν)) := by
  obtain ⟨f, hf⟩ := exists_ok ho
  obtain ⟨g, hg⟩ := exists_ok hp
  constructor
  · intro c
    exact ⟨RingMap.withComparer_accounts hf hthreshold c,
      DequeMap.withComparer_accounts hf hthreshold c,
      MultiMap.withComparer_accounts hf hthreshold c,
      LruCache.withComparer_accounts hf hthreshold c,
      ProbeMap.withComparer_accounts hg hprobe c⟩
  · intro _ _ _ seed
    exact ⟨RingMap.new_accounts hf hthreshold seed, DequeMap.new_accounts hf hthreshold seed,
      MultiMap.new_accounts hf hthreshold seed, LruCache.new_accounts hf hthreshold seed,
      ProbeMap.new_accounts hg hprobe seed⟩

/-- Where all keys collide, the callback of a deque map hears of the two lookups that visit two
nodes, the later one a miss that evicts. A probe map has its two lookups counted by the monitor and
the filter together. -/
theorem lookups_accounted_colliding :
    (⟨2, .fixed, 0.75, ⟨false, some 1, true⟩⟩ : TableOptions).check.isOk ∧
    { ProbeOptions.standard with hashing := .secure }.check.isOk ∧
    (∃ m answers final notes,
      DequeMap.withComparer ⟨2, .fixed, 0.75, ⟨false, some 1, true⟩⟩
        { (Comparer.natural : Comparer UInt64) with hash := fun _ => 7 } = .ok m ∧
      run? DequeMap.watched.step m [.pushBack 1 10, .pushBack 2 20, .get 1, .pushBack 3 30,
        .popFront, .get 9] = some (answers, final) ∧
      DequeMap.watched.Follows m [.pushBack 1 (10 : Nat), .pushBack 2 20, .get 1, .pushBack 3 30,
        .popFront, .get 9] notes final ∧
      reportsOn 1 (notes.filterMap Note.length?) = [(2, 1, 1), (2, 1, 2)]) ∧
    ∃ m answers final stats,
      ProbeMap.withComparer { ProbeOptions.standard with hashing := .secure }
        { (Comparer.natural : Comparer UInt64) with hash := fun _ => 7 } = .ok m ∧
      run? ProbeMap.watched.step m [.insert 1 (10 : Nat), .clear, .get 1] = some (answers, final) ∧
      final.hasher.monitor = some ⟨100, false, stats⟩ ∧
      stats.lookups.toNat + final.filteredLookups = 2 := by
  have hvalid : (⟨2, .fixed, 0.75, ⟨false, some 1, true⟩⟩ : TableOptions).check.isOk := by
    decide +kernel
  have hprobe : { ProbeOptions.standard with hashing := .secure }.check.isOk := by decide +kernel
  obtain ⟨-, ⟨m, hm, hdeque⟩, -, -, m', hm', hmap⟩ :=
    (containers_account_for_lookups (ν := Nat) hvalid hprobe rfl rfl).1
      { (Comparer.natural : Comparer UInt64) with hash := fun _ => 7 }
  refine ⟨hvalid, hprobe, ?_, ?_⟩
  · have hcomputed : (DequeMap.withComparer ⟨2, .fixed, 0.75, ⟨false, some 1, true⟩⟩
        { (Comparer.natural : Comparer UInt64) with hash := fun _ => 7 }).toOption.bind
      (fun m : DequeMap UInt64 Nat => (run? DequeMap.watched.step m [.pushBack 1 10,
        .pushBack 2 20, .get 1, .pushBack 3 30, .popFront, .get 9]).map fun run =>
          run.2.table.watch.called.reverse.map (·.numbers)) = some [(2, 1, 1), (2, 1, 2)] := by
      decide +kernel
    rw [hm, Except.toOption, Option.bind_some, Option.map_eq_some_iff] at hcomputed
    obtain ⟨⟨answers, final⟩, hrun, hreports⟩ := hcomputed
    obtain ⟨notes, hfollows, hheard, -⟩ := hdeque _ _ _ (by decide) hrun
    exact ⟨m, answers, final, notes, hm, hrun, hfollows, hheard.called.symm.trans hreports⟩
  · obtain ⟨answers, final, hrun⟩ : ∃ answers final, run? ProbeMap.watched.step m'
      [.insert 1 10, .clear, .get 1] = some (answers, final) := ⟨_, _, rfl⟩
    obtain ⟨notes, hfollows, hheard, hfiltered⟩ := hmap _ _ _ (by decide) hrun
    obtain ⟨stats, hmonitor, htallies⟩ := hheard.monitor
    refine ⟨m', answers, final, stats, hm', hrun, hmonitor, ?_⟩
    rw [htallies.lookups, show final.filteredLookups = _ from hfiltered, hfollows.count]
    rfl

end BoundedTables
