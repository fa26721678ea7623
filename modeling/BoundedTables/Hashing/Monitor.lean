import BoundedTables.Event

/-!
# Collision monitoring

Every lookup says how many entries or slots it visited. The monitor counts lookups and visits and
reports the lookups that went past its threshold; it never refuses anything.
-/

namespace BoundedTables.Hashing

open Decimal

/-- The counters of a monitor. Sums wrap at 64 bits. -/
structure CollisionStats where
  lookups : UInt64
  probes : UInt64
  longestChain : Nat
  reports : UInt64
  deriving DecidableEq, Repr

/-- A chain-length counter with a threshold, reporting to a callback if there is one. -/
structure CollisionMonitor where
  threshold : Nat
  hasCallback : Bool
  stats : CollisionStats
  deriving DecidableEq, Repr

namespace CollisionMonitor

/-- A monitor that has seen nothing. -/
def new (threshold : Nat) (hasCallback : Bool) : CollisionMonitor :=
  ⟨threshold, hasCallback, ⟨0, 0, 0, 0⟩⟩

/-- Count one lookup, and report it when it went past the threshold. -/
def record (m : CollisionMonitor) (chainLength : Nat) : CollisionMonitor × Option CollisionReport :=
  let stats :=
    { m.stats with
      lookups := m.stats.lookups + 1
      probes := m.stats.probes + UInt64.ofNat chainLength
      longestChain := max m.stats.longestChain chainLength }
  if chainLength ≤ m.threshold then ({ m with stats }, none)
  else
    let total := stats.reports + 1
    ({ m with stats := { stats with reports := total } }, some ⟨chainLength, m.threshold, total⟩)

/-- The diagnostic text of a monitor. -/
def describe (m : CollisionMonitor) : String :=
  "CollisionMonitor \x7b threshold: " ++ natText m.threshold
    ++ ", has_callback: " ++ toString m.hasCallback
    ++ ", stats: CollisionStats \x7b lookups: " ++ natText m.stats.lookups.toNat
    ++ ", probes: " ++ natText m.stats.probes.toNat
    ++ ", longest_chain: " ++ natText m.stats.longestChain
    ++ ", reports: " ++ natText m.stats.reports.toNat ++ " \x7d \x7d"

end CollisionMonitor

end BoundedTables.Hashing
