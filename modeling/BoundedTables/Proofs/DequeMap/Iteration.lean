import BoundedTables.Proofs.DequeMap.Cursor
import BoundedTables.Proofs.Table.LinkedIteration

/-!
# Double-ended iteration over deque maps

Calls at the two ends of one iterator, in any order, meet every entry at most once and in the end
exactly once (`Iterated`). This holds of every map that operations lead to, whatever its comparer
says (`iterators_meet`).
-/

namespace BoundedTables.DequeMap

open Hashing Table LinkedTable

variable {κ ν : Type}

/-- The answers to calls at the two ends of a new iterator, and the iterator that they leave. -/
def iterate (m : DequeMap κ ν) (calls : List End) :
    List (Option (κ × ν)) × LinkedTable.Iter :=
  run m.table.pull m.table.iter calls

/-- What calls at the two ends of a new iterator are answered with. -/
structure Iterated (m : DequeMap κ ν) (calls : List End) : Prop where
  /-- The front yields the entries in order. -/
  front : End.taken .front calls (m.iterate calls).1 <+: m.toList
  /-- The back yields the entries in reverse order. -/
  back : End.taken .back calls (m.iterate calls).1 <+: m.toList.reverse
  /-- No entry is yielded at both ends. -/
  apart : ∃ between, m.toList = End.taken .front calls (m.iterate calls).1 ++ between ++
    (End.taken .back calls (m.iterate calls).1).reverse
  /-- The iterator counts what it has not yielded yet. -/
  remaining : (m.iterate calls).1.countP Option.isSome + (m.iterate calls).2.remaining = m.size
  /-- It yields an entry as long as there is one. -/
  yields : ∀ side, (m.table.pull (m.iterate calls).2 side).1 = none ↔
    (m.iterate calls).2.remaining = 0
  /-- Once none is left, all of them have been yielded, and nothing is any more. -/
  exhausted : (m.iterate calls).2.remaining = 0 →
    m.toList = End.taken .front calls (m.iterate calls).1 ++
      (End.taken .back calls (m.iterate calls).1).reverse ∧
    ∀ more, run m.table.pull (m.iterate calls).2 more =
      (List.replicate more.length none, (m.iterate calls).2)

/-- A map whose table spells out its contents is iterated over from both ends. -/
theorem iterated_of_inOrder {m : DequeMap κ ν} (h : m.table.InOrder) (calls : List End) :
    m.Iterated calls := by
  obtain ⟨cells, h⟩ := h
  obtain ⟨hanswers, hahead⟩ := h.run_pull calls
  have hparts := End.run_take m.toList calls
  have hcount := End.run_take_length m.toList calls
  have hsize : m.size = m.toList.length := by
    rw [toList, h.toList_eq, List.length_map]
    exact h.size_eq
  replace hahead : m.table.Ahead (m.iterate calls).2 (run End.take m.toList calls).2 := hahead
  have hremaining := hahead.remaining
  -- the answers are those of a list that is taken from at both ends
  replace hanswers : (m.iterate calls).1 = (run End.take m.toList calls).1 := hanswers
  rw [← hanswers] at hparts hcount
  refine ⟨?_, ?_, ⟨_, hparts⟩, ?_, ?_, ?_⟩
  · rw [List.append_assoc] at hparts
    exact ⟨_, hparts.symm⟩
  · refine ⟨(run End.take m.toList calls).2.reverse ++
      (End.taken .front calls (m.iterate calls).1).reverse, ?_⟩
    have hreversed := congrArg List.reverse hparts
    simpa using hreversed.symm
  · rw [hremaining, hsize]
    exact hcount
  · intro side
    rw [(hahead.pull side).1, hremaining, List.length_eq_zero_iff]
    by_cases hleft : (run End.take m.toList calls).2 = []
    · rw [hleft, End.take_nil]
      exact iff_of_true rfl rfl
    · obtain ⟨e, rest, hplace⟩ := side.exists_place hleft
      refine iff_of_false ?_ hleft
      rw [hplace, End.take_place]
      exact Option.some_ne_none e
  · intro hnone
    refine ⟨?_, fun more => run_pull_exhausted m.table hnone more⟩
    rw [hremaining, List.length_eq_zero_iff] at hnone
    rw [hnone, List.append_nil] at hparts
    exact hparts

/-- Operations keep the table of a map in order. -/
theorem run_inOrder {m : DequeMap κ ν} (h : m.table.InOrder) (ops : List (Op κ ν)) :
    (run step m ops).2.table.InOrder :=
  run_keeps (P := fun m' : DequeMap κ ν => m'.table.InOrder)
    (fun _ op horder => (step_kept horder op).1) h ops

variable {o : TableOptions}

/-- Whatever is done to a new map, and whatever its comparer says, the calls at the two ends of an
iterator over it neither repeat an entry nor skip one. -/
theorem iterators_meet (hvalid : o.check.isOk) (c : Comparer κ) :
    (∃ m : DequeMap κ ν, withComparer o c = .ok m ∧
      ∀ (ops : List (Op κ ν)) (calls : List End), (run step m ops).2.Iterated calls) ∧
    ∀ [ByteHash] [ByteKey κ] [DecidableEq κ] (seed : Seed),
      ∃ m : DequeMap κ ν, new o seed = .ok m ∧
        ∀ (ops : List (Op κ ν)) (calls : List End), (run step m ops).2.Iterated calls := by
  obtain ⟨f, hvalid⟩ := exists_ok hvalid
  constructor
  · obtain ⟨m, hm, cells, hcells, -⟩ : ∃ m : DequeMap κ ν, _ := withComparer_stands hvalid c
    refine ⟨m, hm, ?_⟩
    intro ops calls
    exact iterated_of_inOrder (run_inOrder ⟨cells, hcells.spells⟩ ops) calls
  · intro _ _ _ seed
    have hnew : (new o seed : Except TableError (DequeMap κ ν)) =
        .ok ⟨LinkedTable.build o f (.ofPolicy o.hashing seed) .empty⟩ := by
      rw [new, LinkedTable.new, hvalid]
      rfl
    obtain ⟨cells, hcells, -⟩ := new_stands hnew
    refine ⟨_, hnew, ?_⟩
    intro ops calls
    exact iterated_of_inOrder (run_inOrder ⟨cells, hcells.spells⟩ ops) calls

/-- In a map that evicted its oldest entry and then moved one to the front, the calls at the two
ends meet in the middle, and the last one yields nothing. -/
theorem iterators_meet_after_eviction :
    (⟨3, .fixed, 0.75, .deterministic⟩ : TableOptions).check.isOk ∧
    ∃ m : DequeMap UInt64 Nat, withComparer ⟨3, .fixed, 0.75, .deterministic⟩ .natural = .ok m ∧
      (∀ side, (m.table.pull m.table.iter side).1 = none) ∧
      ((run step m [.insert 1 10, .insert 2 20, .insert 3 30, .insert 4 40,
        .moveToFront 3]).2.iterate [.back, .front, .back, .front]).1 =
          [some (4, 40), some (3, 30), some (2, 20), none] ∧
      (run step m [.insert 1 10, .insert 2 20, .insert 3 30, .insert 4 40,
        .moveToFront 3]).2.toList = [(3, 30), (2, 20), (4, 40)] := by
  have hvalid : (⟨3, .fixed, 0.75, .deterministic⟩ : TableOptions).check.isOk := by decide +kernel
  obtain ⟨⟨m, hm, hruns⟩, -⟩ :=
    iterators_meet (ν := Nat) hvalid (Comparer.natural : Comparer UInt64)
  have hiterated := hruns
    [.insert 1 10, .insert 2 20, .insert 3 30, .insert 4 40, .moveToFront 3]
    [.back, .front, .back, .front]
  have hcalls : ((withComparer ⟨3, .fixed, 0.75, .deterministic⟩ .natural).map
      fun m : DequeMap UInt64 Nat =>
        let calls := (run step m [.insert 1 10, .insert 2 20, .insert 3 30, .insert 4 40,
          .moveToFront 3]).2.iterate [.back, .front, .back, .front]
        (m.size, calls.1, calls.2.remaining)) =
      .ok (0, [some (4, 40), some (3, 30), some (2, 20), none], 0) := by decide +kernel
  rw [hm] at hcalls
  obtain ⟨hempty, hanswers, hleft⟩ : _ ∧ _ ∧ _ := by
    simpa only [Except.map, Except.ok.injEq, Prod.mk.injEq] using hcalls
  refine ⟨hvalid, m, hm, ?_, hanswers, ?_⟩
  · intro side
    exact ((hruns [] []).yields side).2 hempty
  · rw [(hiterated.exhausted hleft).1, hanswers]
    rfl

end BoundedTables.DequeMap
