import BoundedTables.Hashing.Comparer
import BoundedTables.Hashing.Monitor

/-!
# Hashing policies

A policy asks for keyed hashing, for monitoring, or for both. A container resolves it once, at
construction, into a `KeyHasher`. An explicit comparer always wins over the policy's choice.
-/

namespace BoundedTables.Hashing

open Decimal

/-- What a container is asked to do about hashing. -/
structure HashingPolicy where
  /-- Use a keyed hash. -/
  randomized : Bool
  /-- Report lookups that visit more than this. -/
  collisionThreshold : Option Nat
  /-- Whether reports go to a callback instead of the log. -/
  hasCallback : Bool
  deriving DecidableEq, Repr

namespace HashingPolicy

/-- Deterministic hashing without monitoring. -/
def deterministic : HashingPolicy := ⟨false, none, false⟩

/-- Keyed hashing, with monitoring at a threshold of one hundred. -/
def secure : HashingPolicy := ⟨true, some 100, false⟩

/-- A threshold of zero is rejected. -/
def validate (p : HashingPolicy) : Except TableError Unit :=
  if p.collisionThreshold = some 0 then
    .error (.invalidArgument "collision_threshold" "must be greater than 0")
  else .ok ()

/-- The monitor a policy asks for. -/
def monitor (p : HashingPolicy) : Option CollisionMonitor :=
  p.collisionThreshold.map fun t => CollisionMonitor.new t p.hasCallback

/-- The diagnostic text of a policy. -/
def describe (p : HashingPolicy) : String :=
  let threshold := match p.collisionThreshold with
    | none => "None"
    | some t => "Some(" ++ natText t ++ ")"
  "HashingPolicy \x7b randomized: " ++ toString p.randomized
    ++ ", collision_threshold: " ++ threshold
    ++ ", has_callback: " ++ toString p.hasCallback ++ " \x7d"

end HashingPolicy

/-- The comparer and the monitor a container works with. -/
structure KeyHasher (κ : Type) where
  comparer : Comparer κ
  monitor : Option CollisionMonitor
  /-- Whether the policy's request for a keyed hash was granted. -/
  randomized : Bool

namespace KeyHasher

variable {κ : Type}

/-- Let the policy choose the comparer. -/
def ofPolicy [ByteHash] [ByteKey κ] [DecidableEq κ] (p : HashingPolicy) (seed : Seed) :
    KeyHasher κ :=
  { comparer := if p.randomized then .secure seed else .natural
    monitor := p.monitor
    randomized := p.randomized }

/-- Use a given comparer. A request for a keyed hash is then ignored, which is reported. -/
def withComparer (p : HashingPolicy) (c : Comparer κ) : KeyHasher κ × Journal :=
  let journal :=
    if p.randomized then Journal.empty.log (.randomizedIgnored c.name) else Journal.empty
  ({ comparer := c, monitor := p.monitor, randomized := false }, journal)

/-- The masked hash of a key. -/
def hash (h : KeyHasher κ) (key : κ) : UInt32 := h.comparer.code key

/-- Record how many entries one lookup visited. -/
def record (h : KeyHasher κ) (visited : Nat) (j : Journal) : KeyHasher κ × Journal :=
  match h.monitor with
  | none => (h, j)
  | some m =>
      let (m', report) := m.record visited
      ({ h with monitor := some m' },
        match report with
        | none => j
        | some r => j.collide m.hasCallback r)

/-- The counters of the monitor, if there is one. -/
def stats (h : KeyHasher κ) : Option CollisionStats := h.monitor.map (·.stats)

/-- The diagnostic text of a hasher. -/
def describe (h : KeyHasher κ) : String :=
  let monitor := match h.monitor with
    | none => "None"
    | some m => "Some(" ++ m.describe ++ ")"
  "KeyHasher \x7b comparer: \"" ++ h.comparer.name ++ "\", randomized: "
    ++ toString h.randomized ++ ", monitor: " ++ monitor ++ " \x7d"

end KeyHasher

end BoundedTables.Hashing
