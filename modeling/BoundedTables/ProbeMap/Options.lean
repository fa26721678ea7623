import BoundedTables.Table.Options

/-!
# Construction options of probe maps

Like the options of chained containers, with a rate for the companion filter and a bound on probe
distances in place of a capacity mode.
-/

namespace BoundedTables

open Sizing Hashing

/-- Options of a probe map. -/
structure ProbeOptions where
  /-- The initial slot count, rounded up to a power of two. -/
  initialCapacity : Nat
  loadFactor : Float
  /-- The false-positive rate of the companion filter. -/
  falsePositiveRate : Float
  /-- The probe distance past which an insertion prefers to grow the table. -/
  maxProbeDistance : Nat
  hashing : HashingPolicy

namespace ProbeOptions

/-- The defaults: sixteen slots, three quarters full. -/
def standard : ProbeOptions := ⟨16, 0.75, 0.01, 64, .deterministic⟩

/-- Check the capacity, the load factor, the rate, the probe distance and the hashing policy, in
this order. -/
def check (o : ProbeOptions) : Except TableError LoadFactor := do
  checkCapacity "initial_capacity" o.initialCapacity
  let f ← checkLoadFactor o.loadFactor
  checkRate o.falsePositiveRate
  if o.maxProbeDistance = 0 then
    throw (.invalidArgument "max_probe_distance" "must be greater than 0")
  o.hashing.validate
  pure f

end ProbeOptions

end BoundedTables
