import BoundedTables.Binary64.Basic
import BoundedTables.Settings.Basic

/-!
# The operations of a workload

A workload is a sequence of reads, inserts and removals of pseudorandom keys. Each operation is a
function of its index and the settings, so runs can be repeated and split among threads.
-/

namespace BoundedTables.Workload

open Binary64

/-- The constant of multiplicative hashing that spreads the keys. -/
def stride : Nat := 2654435761

/-- The key of an operation. There is none in an empty key space. -/
def keyAt? (i keySpace : Nat) : Option Nat :=
  if keySpace = 0 then none else some (i * stride % UInt64.size % keySpace)

/-- The number between zero and one that decides what an operation does. It has 53 bits. -/
def unitAt (i : Nat) : Float :=
  let mixed : UInt64 := (UInt64.ofNat i ^^^ 0x5DEECE66) * 0x9E3779B97F4A7C15
  ofNat (mixed >>> 11).toNat / ofNat (2 * hiddenBit)

/-- What an operation does. -/
inductive Operation where
  | read
  | insert
  | remove
  deriving DecidableEq, Repr

/-- What an operation does. The lowest share of the numbers between zero and one reads, and a
share of what is left removes. -/
def operationAt (s : WorkloadSettings) (i : Nat) : Operation :=
  let x := unitAt i
  if x < s.readRatio then .read
  else
    let writeShare := 1.0 - s.readRatio
    if 0.0 < writeShare ∧ (x - s.readRatio) / writeShare < s.removeRatio then .remove
    else .insert

/-- The indices of the operations of one worker among several, which take turns. -/
def turns (workers operations worker : Nat) : List Nat :=
  (List.range ((operations + workers - 1 - worker) / workers)).map fun n => worker + n * workers

end BoundedTables.Workload
