import BoundedTables.Json.Basic
import BoundedTables.Workload

/-!
# The report of a workload

The report as a JSON document, and as lines for a log.
-/

namespace BoundedTables

open Decimal

/-- The report on a container as JSON. -/
def ContainerReport.toJson (r : ContainerReport) : Json :=
  .object
    [("name", .text r.name), ("operations", .integer r.operations), ("hits", .integer r.tally.hits),
      ("misses", .integer r.tally.misses), ("inserts", .integer r.tally.inserts),
      ("removals", .integer r.tally.removals), ("final_len", .integer r.finalSize),
      ("evictions", .integer r.evictions), ("consistent", .bool r.consistent)]

/-- The report on the Bloom filter as JSON. -/
def BloomReport.toJson (r : BloomReport) : Json :=
  .object
    [("bit_count", .integer r.bitCount), ("hash_count", .integer r.hashCount),
      ("inserted", .integer r.inserted), ("estimated_items", .float r.estimatedItems),
      ("fill_ratio", .float r.fillRatio), ("probes", .integer r.probes),
      ("false_positives", .integer r.falsePositives),
      ("false_negatives", .integer r.falseNegatives)]

/-- The report as JSON. -/
def WorkloadReport.toJson (r : WorkloadReport) : Json :=
  .object
    [("threads", .integer r.threads), ("containers", .array (r.containers.map (·.toJson))),
      ("bloom", r.bloom.toJson)]

/-- A name and a number for a log line. -/
def logField (name : String) (n : Nat) : String := " " ++ name ++ "=" ++ natText n

/-- The log line of a container. -/
def ContainerReport.line (r : ContainerReport) : String :=
  "Container exercised container=" ++ r.name ++ logField "hits" r.tally.hits
    ++ logField "misses" r.tally.misses ++ logField "inserts" r.tally.inserts
    ++ logField "removals" r.tally.removals ++ logField "len" r.finalSize
    ++ logField "evictions" r.evictions ++ " consistent=" ++ toString r.consistent

/-- The log line of the Bloom filter. -/
def BloomReport.line (r : BloomReport) : String :=
  "Bloom filter exercised" ++ logField "bits" r.bitCount ++ logField "hash_count" r.hashCount
    ++ " fill_ratio=" ++ diagnosticText r.fillRatio
    ++ logField "false_positives" r.falsePositives ++ logField "probes" r.probes

/-- The log lines of a report. -/
def WorkloadReport.lines (r : WorkloadReport) : List String :=
  r.containers.map (·.line) ++ [r.bloom.line]

end BoundedTables
