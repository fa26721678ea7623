import BoundedTables.Error

/-!
# Events

What the containers, the loader and the workload report about themselves while they work. An
event is a value: operations record it in a journal, and whoever owns the journal decides what
becomes of it. Each kind has a severity, a fixed message and named fields.
-/

namespace BoundedTables

open Decimal

/-- How much an event matters. -/
inductive Severity where
  | trace
  | debug
  | info
  | warn
  | error
  deriving DecidableEq, Repr

/-- The name of a severity. -/
def Severity.name : Severity → String
  | .trace => "TRACE"
  | .debug => "DEBUG"
  | .info => "INFO"
  | .warn => "WARN"
  | .error => "ERROR"

/-- A lookup that walked further than the collision threshold. -/
structure CollisionReport where
  /-- Entries or slots visited by the lookup. -/
  chainLength : Nat
  /-- The threshold it crossed. -/
  threshold : Nat
  /-- Reports raised so far, this one included. -/
  totalReports : UInt64
  deriving DecidableEq, Repr

/-- An end of an ordered container. -/
inductive End where
  | front
  | back
  deriving DecidableEq, Repr

/-- The other end. -/
def End.opposite : End → End
  | .front => .back
  | .back => .front

/-- The name of an end. -/
def End.name : End → String
  | .front => "Front"
  | .back => "Back"

/-- Why a probe table was rebuilt. -/
inductive RebuildReason where
  | grow
  | rehash
  | shrink
  deriving DecidableEq, Repr

/-- The name of a reason to rebuild. -/
def RebuildReason.name : RebuildReason → String
  | .grow => "Grow"
  | .rehash => "Rehash"
  | .shrink => "Shrink"

/-- The kinds of events. -/
inductive Event where
  | collision (report : CollisionReport)
  | randomizedIgnored (comparer : String)
  | ringGrown (old new : Nat)
  | ringEvicted (slot stamp : Nat)
  | indexGrown (old new : Nat)
  | linkedEvicted (slot : Nat) (side : End)
  | cacheGrown (old new : Nat)
  | cacheEvicted (node stamp : Nat)
  | cacheEvictionGaveUp (attempts : Nat)
  | probeRebuilt (old new live : Nat) (reason : RebuildReason)
  | probeForced (distance maxProbeDistance : Nat)
  | configurationLoaded (path environmentName : String)
  | workloadStarted (operations keySpace threads : Nat)
  | workloadFinished (container : String) (size : Nat)
  | workloadInconsistent (container : String)
  | errorReported (context : FailureContext)

/-- A field of an event. -/
inductive FieldValue where
  | number (n : Nat)
  | text (s : String)
  deriving DecidableEq, Repr

namespace Event

/-- How much an event matters. -/
def severity : Event → Severity
  | collision _ | cacheEvictionGaveUp _ | probeForced .. | workloadInconsistent _ => .warn
  | ringEvicted .. | linkedEvicted .. | cacheEvicted .. => .trace
  | workloadStarted .. => .info
  | errorReported _ => .error
  | randomizedIgnored _ | ringGrown .. | indexGrown .. | cacheGrown .. | probeRebuilt ..
  | configurationLoaded .. | workloadFinished .. => .debug

/-- The fixed message of an event. -/
def message : Event → String
  | collision _ => "Collision chain exceeded threshold"
  | randomizedIgnored _ => "Explicit comparer supplied; randomized hashing request ignored"
  | ringGrown .. => "Nalu ring grown"
  | ringEvicted .. => "Nalu evicted oldest entry"
  | indexGrown .. => "Chained index grown"
  | linkedEvicted .. => "Evicted entry at capacity"
  | cacheGrown .. => "Moana buckets grown"
  | cacheEvicted .. => "Moana evicted least recently used entry"
  | cacheEvictionGaveUp _ => "Moana eviction gave up; victim kept changing"
  | probeRebuilt .. => "Puka table rebuilt"
  | probeForced .. => "Puka placed entry beyond the probe distance bound"
  | configurationLoaded .. => "Configuration loaded"
  | workloadStarted .. => "Running synthetic workload"
  | workloadFinished .. => "Workload finished"
  | workloadInconsistent _ => "Index and ordering disagree after workload"
  | errorReported _ => "Error reported"

/-- The named fields of an event. -/
def fields : Event → List (String × FieldValue)
  | collision r =>
      [("chain_length", .number r.chainLength), ("threshold", .number r.threshold),
        ("total_reports", .number r.totalReports.toNat)]
  | randomizedIgnored comparer => [("comparer", .text comparer)]
  | ringGrown old new | indexGrown old new | cacheGrown old new =>
      [("from", .number old), ("to", .number new)]
  | ringEvicted slot stamp => [("slot", .number slot), ("stamp", .number stamp)]
  | linkedEvicted slot side => [("slot", .number slot), ("end", .text side.name)]
  | cacheEvicted node stamp => [("node", .number node), ("stamp", .number stamp)]
  | cacheEvictionGaveUp attempts => [("attempts", .number attempts)]
  | probeRebuilt old new live reason =>
      [("from", .number old), ("to", .number new), ("live", .number live),
        ("reason", .text reason.name)]
  | probeForced distance bound =>
      [("distance", .number distance), ("max_probe_distance", .number bound)]
  | configurationLoaded path environmentName =>
      [("path", .text path), ("prefix", .text environmentName)]
  | workloadStarted operations keySpace threads =>
      [("operations", .number operations), ("key_space", .number keySpace),
        ("threads", .number threads)]
  | workloadFinished container size => [("container", .text container), ("len", .number size)]
  | workloadInconsistent container => [("container", .text container)]
  | errorReported c =>
      [("error", .text c.failure.message), ("component", .text c.component),
        ("details", .text (c.details.getD "None"))]

end Event

/-- What has been reported so far, newest first: events for the log, and collision reports for a
callback where one is installed. -/
structure Journal where
  events : List Event
  reports : List CollisionReport
  deriving Inhabited

namespace Journal

/-- Nothing reported yet. -/
def empty : Journal := ⟨[], []⟩

/-- Record an event. -/
def log (j : Journal) (e : Event) : Journal := { j with events := e :: j.events }

/-- Hand a collision report to the callback if there is one, and to the log otherwise. -/
def collide (j : Journal) (hasCallback : Bool) (report : CollisionReport) : Journal :=
  if hasCallback then { j with reports := report :: j.reports } else j.log (.collision report)

end Journal

end BoundedTables
