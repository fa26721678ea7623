import BoundedTables.Settings.Basic
import BoundedTables.Workload.Exercised
import BoundedTables.Workload.Sequence

/-!
# The synthetic workload

Every container is built from the settings and driven through one sequence of operations. The
report counts what they did, and says whether each container still agrees with itself. A Bloom
filter is filled and asked for members and for strangers.

Errors stop the workload. There is no result when a key is drawn from an empty key space.
-/

namespace BoundedTables

open Hashing

/-- What the operations on a container did. -/
structure Tally where
  hits : Nat
  misses : Nat
  inserts : Nat
  removals : Nat
  deriving DecidableEq, Repr

/-- How a container fared. -/
structure ContainerReport where
  name : String
  operations : Nat
  tally : Tally
  finalSize : Nat
  evictions : Nat
  /-- Whether lookups and enumeration agree on the entries. -/
  consistent : Bool
  deriving DecidableEq, Repr

/-- How the Bloom filter fared. -/
structure BloomReport where
  bitCount : Nat
  hashCount : Nat
  inserted : Nat
  estimatedItems : Float
  fillRatio : Float
  probes : Nat
  falsePositives : Nat
  falseNegatives : Nat

/-- The outcome of a workload. -/
structure WorkloadReport where
  threads : Nat
  containers : List ContainerReport
  bloom : BloomReport

namespace Tally

/-- Nothing done yet. -/
def zero : Tally := ⟨0, 0, 0, 0⟩

/-- Count a read. -/
def read (t : Tally) (found : Bool) : Tally :=
  if found then { t with hits := t.hits + 1 } else { t with misses := t.misses + 1 }

/-- Count an insert. -/
def insert (t : Tally) : Tally := { t with inserts := t.inserts + 1 }

/-- Count a removal if it removed something. -/
def remove (t : Tally) (found : Bool) : Tally :=
  if found then { t with removals := t.removals + 1 } else t

end Tally

namespace Workload

/-- What may be left over from driving a container: a failure, or the container and what its
operations did. The journal of the container is kept in both cases. -/
structure Driven (C : Type) where
  container : C
  tally : Tally
  failure : Option TableError

section Drive

variable {C ν : Type} [Container C UInt64 ν] [Exercised C]

/-- Do one operation. After a failure nothing more is done. -/
def step (s : WorkloadSettings) (d : Driven C) (i : Nat) : Option (Driven C) :=
  match d with
  | ⟨_, _, some _⟩ => some d
  | ⟨c, tally, none⟩ => do
      let key := UInt64.ofNat (← keyAt? i s.keySpace)
      match operationAt s i with
      | .read =>
          let (found, c) := Exercised.read c key
          pure ⟨c, tally.read found, none⟩
      | .insert =>
          match Exercised.write c key (UInt64.ofNat i) with
          | (.ok (), c) => pure ⟨c, tally.insert, none⟩
          | (.error e, c) => pure ⟨c, tally, some e⟩
      | .remove =>
          let (removed, c) ← Container.remove c key
          pure ⟨c, tally.remove removed.isSome, none⟩

/-- Do the operations with some indices, in order. -/
def steps (s : WorkloadSettings) (c : C) (indices : List Nat) : Option (Driven C) :=
  indices.foldlM (step s) ⟨c, .zero, none⟩

/-- Look at a container behind the workload, and report on it. -/
def inspect (s : WorkloadSettings) (d : Driven C) : ContainerReport × C :=
  let c := d.container
  let (consistent, after) := Exercised.consistent c
  (⟨Container.name C, s.operations, d.tally, Container.size c, Container.evictions c, consistent⟩,
    after)

/-- Build a container and do the operations with some indices on it. The journal has what the
container reported. -/
def drive (s : WorkloadSettings) (build : Except TableError C) (indices : List Nat) :
    Option (Except Failure ContainerReport × Journal) :=
  match build with
  | .error e => some (.error (.table e), .empty)
  | .ok c =>
      (steps s c indices).map fun d =>
        match d.failure with
        | some e => (.error (.table e), Container.journal d.container)
        | none =>
            let (report, c) := inspect s d
            (.ok report, Container.journal c)

end Drive

/-- Drive a container that has one writer, and report the end of it. -/
def driveAlone {C ν : Type} [Container C UInt64 ν] [Exercised C] (s : WorkloadSettings)
    (build : Except TableError C) : Option (Except Failure ContainerReport × Journal) :=
  (drive s build (List.range s.operations)).map fun (r, journal) =>
    match r with
    | .ok report => (.ok report, journal.log (.workloadFinished report.name report.finalSize))
    | .error e => (.error e, journal)

/-- Drive the cache. Its workers do their operations one worker after the other, and what they
report is not seen by the others. -/
def driveShared (s : WorkloadSettings) (threads : Nat)
    (build : Except TableError (LruCache UInt64 UInt64)) :
    Option (Except Failure ContainerReport × Journal) :=
  let indices := (List.range threads).flatMap (turns threads s.operations)
  (drive s build indices).map fun (r, _) => (r, .empty)

/-- The least number of strangers that the Bloom filter is asked for. -/
def leastProbes : Nat := 1000

/-- Fill a Bloom filter with the first words, and ask it for them and for the last words. -/
def driveBloom [ByteHash] (s : Settings) : Except TableError BloomReport := do
  let f ← BloomFilter.new s.bloom.options
  let inserted := min s.bloom.expectedItems s.workload.operations
  let member (i : Nat) : UInt64 := UInt64.ofNat i
  let stranger (i : Nat) : UInt64 := UInt64.ofNat (Binary64.maxWord - i)
  let f := (List.range inserted).foldl (fun f i => (f.insert (member i)).2) f
  let probes := max inserted leastProbes
  pure
    { bitCount := f.bitCount
      hashCount := f.hashCount
      inserted
      estimatedItems := f.estimatedItems
      fillRatio := f.fillRatio
      probes
      falsePositives := (List.range probes).countP fun i => f.contains (stranger i)
      falseNegatives := (List.range inserted).countP fun i => !f.contains (member i) }

/-- The containers with the drives that belong to them, in order. -/
def drives [ByteHash] (s : Settings) (seed : Seed) (threads : Nat) :
    List (Unit → Option (Except Failure ContainerReport × Journal)) :=
  let w := s.workload
  let h := s.hashing
  [fun () => driveAlone (C := RingMap UInt64 UInt64) w (RingMap.new (s.ring.options h) seed),
    fun () => driveAlone (C := DequeMap UInt64 UInt64) w (DequeMap.new (s.deque.options h) seed),
    fun () => driveAlone (C := MultiMap UInt64 UInt64) w (MultiMap.new (s.multi.options h) seed),
    fun () => driveShared w threads (LruCache.new (s.cache.options h) seed),
    fun () => driveAlone (C := ProbeMap UInt64 UInt64) w (ProbeMap.new (s.probe.options h) seed)]

/-- Put the events of a journal behind those of an earlier one. -/
def append (earlier later : Journal) : Journal :=
  ⟨later.events ++ earlier.events, later.reports ++ earlier.reports⟩

/-- Drive containers one after the other, up to the first failure. -/
def driveAll : List (Unit → Option (Except Failure ContainerReport × Journal)) → Journal →
    Option (Except Failure (List ContainerReport) × Journal)
  | [], journal => some (.ok [], journal)
  | drive :: rest, journal => do
      let (r, own) ← drive ()
      let journal := append journal own
      match r with
      | .error e => pure (.error e, journal)
      | .ok report =>
          let (rs, journal) ← driveAll rest journal
          pure (rs.map (report :: ·), journal)

/-- Warn of every container that does not agree with itself. -/
def warn (journal : Journal) (reports : List ContainerReport) : Journal :=
  reports.foldl
    (fun journal r => if r.consistent then journal else journal.log (.workloadInconsistent r.name))
    journal

/-- Run the workload on a machine with a number of processors. -/
def run [ByteHash] (s : Settings) (seed : Seed) (processors : Nat) :
    Option (Except Failure WorkloadReport × Journal) := do
  let w := s.workload
  let threads := w.threadCount processors
  let journal := Journal.empty.log (.workloadStarted w.operations w.keySpace threads)
  let (r, journal) ← driveAll (drives s seed threads) journal
  match r with
  | .error e => pure (.error e, journal)
  | .ok containers =>
      let journal := warn journal containers
      match driveBloom s with
      | .error e => pure (.error (.table e), journal)
      | .ok bloom => pure (.ok ⟨threads, containers, bloom⟩, journal)

end Workload

end BoundedTables
