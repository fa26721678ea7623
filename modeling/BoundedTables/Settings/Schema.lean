import BoundedTables.Settings.Basic
import BoundedTables.Tree.Basic

/-!
# The shape of settings

The names and kinds of all settings, once for reading and once for writing. Reading works on any
source of named values: a JSON document that must match exactly, or a merged configuration tree
that is read leniently. What a source does not name keeps its default, and unknown names are
ignored.
-/

namespace BoundedTables

/-- How the values of a source are read. -/
structure SettingsSource (σ : Type) where
  /-- The values of a section, by name. A section may also be the list of its values in order,
  for which the names are given. -/
  fields? : List String → σ → Option (String → Option σ)
  isNull : σ → Bool
  word? : σ → Option Nat
  word32? : σ → Option Nat
  float? : σ → Option Float
  flag? : σ → Option Bool
  text? : σ → Option String
  /-- The name of one of several choices. -/
  variant? : σ → Option String

namespace SettingsSource

variable {σ α : Type}

/-- Read a value, or keep the default when it is not named. -/
def required (decode : σ → Option α) (default : α) : Option σ → Option α
  | none => some default
  | some v => decode v

/-- Read a value that may be absent or null. -/
def optional (r : SettingsSource σ) (decode : σ → Option α) : Option σ → Option (Option α)
  | none => some none
  | some v => if r.isNull v then some none else (decode v).map some

/-- Read a capacity mode by its name. -/
def mode? (r : SettingsSource σ) (v : σ) : Option CapacityMode :=
  (r.variant? v).bind CapacityMode.ofName?

/-- Read the log section. -/
def log? (r : SettingsSource σ) (v : σ) : Option LogSettings := do
  let start := LogSettings.standard
  let field ← r.fields? ["level", "json", "source_location"] v
  let level ← required r.text? start.level (field "level")
  let json ← required r.flag? start.json (field "json")
  let sourceLocation ← required r.flag? start.sourceLocation (field "source_location")
  pure { level, json, sourceLocation }

/-- Read the hashing section. -/
def hashing? (r : SettingsSource σ) (v : σ) : Option HashingSettings := do
  let start := HashingSettings.standard
  let field ← r.fields? ["randomized", "collision_threshold"] v
  let randomized ← required r.flag? start.randomized (field "randomized")
  let collisionThreshold ← r.optional r.word? (field "collision_threshold")
  pure { randomized, collisionThreshold }

/-- Read the section of a chained container. -/
def container? (r : SettingsSource σ) (v : σ) : Option ContainerSettings := do
  let start := ContainerSettings.standard
  let field ← r.fields? ["capacity", "mode", "load_factor"] v
  let capacity ← required r.word? start.capacity (field "capacity")
  let mode ← required r.mode? start.mode (field "mode")
  let loadFactor ← required r.float? start.loadFactor (field "load_factor")
  pure { capacity, mode, loadFactor }

/-- Read the section of the probe map. -/
def probe? (r : SettingsSource σ) (v : σ) : Option ProbeSettings := do
  let start := ProbeSettings.standard
  let field ←
    r.fields? ["initial_capacity", "load_factor", "false_positive_rate", "max_probe_distance"] v
  let initialCapacity ← required r.word? start.initialCapacity (field "initial_capacity")
  let loadFactor ← required r.float? start.loadFactor (field "load_factor")
  let falsePositiveRate ←
    required r.float? start.falsePositiveRate (field "false_positive_rate")
  let maxProbeDistance ← required r.word? start.maxProbeDistance (field "max_probe_distance")
  pure { initialCapacity, loadFactor, falsePositiveRate, maxProbeDistance }

/-- Read the section of the Bloom filter. -/
def bloom? (r : SettingsSource σ) (v : σ) : Option BloomSettings := do
  let start := BloomSettings.standard
  let field ← r.fields? ["expected_items", "false_positive_rate", "hash_functions"] v
  let expectedItems ← required r.word? start.expectedItems (field "expected_items")
  let falsePositiveRate ←
    required r.float? start.falsePositiveRate (field "false_positive_rate")
  let hashFunctions ← r.optional r.word32? (field "hash_functions")
  pure { expectedItems, falsePositiveRate, hashFunctions }

/-- Read the section of the workload. -/
def workload? (r : SettingsSource σ) (v : σ) : Option WorkloadSettings := do
  let start := WorkloadSettings.standard
  let field ← r.fields? ["operations", "key_space", "read_ratio", "remove_ratio", "threads"] v
  let operations ← required r.word? start.operations (field "operations")
  let keySpace ← required r.word? start.keySpace (field "key_space")
  let readRatio ← required r.float? start.readRatio (field "read_ratio")
  let removeRatio ← required r.float? start.removeRatio (field "remove_ratio")
  let threads ← r.optional r.word? (field "threads")
  pure { operations, keySpace, readRatio, removeRatio, threads }

/-- Read all settings. -/
def settings? (r : SettingsSource σ) (v : σ) : Option Settings := do
  let field ←
    r.fields? ["log", "hashing", "nalu", "lei", "ohana", "moana", "puka", "bloom", "workload"] v
  let log ← required r.log? .standard (field "log")
  let hashing ← required r.hashing? .standard (field "hashing")
  let ring ← required r.container? .standard (field "nalu")
  let deque ← required r.container? .standard (field "lei")
  let multi ← required r.container? .standard (field "ohana")
  let cache ← required r.container? .standard (field "moana")
  let probe ← required r.probe? .standard (field "puka")
  let bloom ← required r.bloom? .standard (field "bloom")
  let workload ← required r.workload? .standard (field "workload")
  pure { log, hashing, ring, deque, multi, cache, probe, bloom, workload }

end SettingsSource

/-- A word that may be absent. -/
def optionalWord : Option Nat → Tree
  | none => .nil
  | some n => .int n

/-- The values of the log section. -/
def LogSettings.members (s : LogSettings) : List (String × Tree) :=
  [("level", .text s.level), ("json", .bool s.json), ("source_location", .bool s.sourceLocation)]

/-- The values of the hashing section. -/
def HashingSettings.members (s : HashingSettings) : List (String × Tree) :=
  [("randomized", .bool s.randomized), ("collision_threshold", optionalWord s.collisionThreshold)]

/-- The values of the section of a chained container. -/
def ContainerSettings.members (s : ContainerSettings) : List (String × Tree) :=
  [("capacity", .int s.capacity), ("mode", .text s.mode.name), ("load_factor", .float s.loadFactor)]

/-- The values of the section of the probe map. -/
def ProbeSettings.members (s : ProbeSettings) : List (String × Tree) :=
  [("initial_capacity", .int s.initialCapacity), ("load_factor", .float s.loadFactor),
    ("false_positive_rate", .float s.falsePositiveRate),
    ("max_probe_distance", .int s.maxProbeDistance)]

/-- The values of the section of the Bloom filter. -/
def BloomSettings.members (s : BloomSettings) : List (String × Tree) :=
  [("expected_items", .int s.expectedItems), ("false_positive_rate", .float s.falsePositiveRate),
    ("hash_functions", optionalWord s.hashFunctions)]

/-- The values of the section of the workload. -/
def WorkloadSettings.members (s : WorkloadSettings) : List (String × Tree) :=
  [("operations", .int s.operations), ("key_space", .int s.keySpace),
    ("read_ratio", .float s.readRatio), ("remove_ratio", .float s.removeRatio),
    ("threads", optionalWord s.threads)]

/-- The sections with their values, in order. -/
def Settings.sections (s : Settings) : List (String × List (String × Tree)) :=
  [("log", s.log.members), ("hashing", s.hashing.members), ("nalu", s.ring.members),
    ("lei", s.deque.members), ("ohana", s.multi.members), ("moana", s.cache.members),
    ("puka", s.probe.members), ("bloom", s.bloom.members), ("workload", s.workload.members)]

end BoundedTables
