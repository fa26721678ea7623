import BoundedTables.BloomFilter.Options
import BoundedTables.ProbeMap.Options
import BoundedTables.Table.Options

/-!
# Settings

Settings for every container, for hashing, logging and the synthetic workload. Each section turns
into the construction options of its container and is checked by the rules of those options, so
that settings are accepted exactly when the containers can be built from them.
-/

namespace BoundedTables

open Decimal Hashing

/-- How much is logged, and in what form. -/
structure LogSettings where
  level : String
  json : Bool
  sourceLocation : Bool

/-- The hashing policy shared by all containers. -/
structure HashingSettings where
  randomized : Bool
  collisionThreshold : Option Nat

/-- A chained container. -/
structure ContainerSettings where
  capacity : Nat
  mode : CapacityMode
  loadFactor : Float

/-- The probe map. -/
structure ProbeSettings where
  initialCapacity : Nat
  loadFactor : Float
  falsePositiveRate : Float
  maxProbeDistance : Nat

/-- The standalone Bloom filter. -/
structure BloomSettings where
  expectedItems : Nat
  falsePositiveRate : Float
  hashFunctions : Option Nat

/-- The synthetic workload. -/
structure WorkloadSettings where
  /-- Operations on each container. -/
  operations : Nat
  /-- The number of distinct keys. -/
  keySpace : Nat
  /-- The share of operations that read. -/
  readRatio : Float
  /-- The share of the other operations that remove. -/
  removeRatio : Float
  /-- Threads driving the cache; one per processor when absent. -/
  threads : Option Nat

/-- All settings. -/
structure Settings where
  log : LogSettings
  hashing : HashingSettings
  ring : ContainerSettings
  deque : ContainerSettings
  multi : ContainerSettings
  cache : ContainerSettings
  probe : ProbeSettings
  bloom : BloomSettings
  workload : WorkloadSettings

/-- The default log settings. -/
def LogSettings.standard : LogSettings := ⟨"info", false, false⟩

/-- The default hashing settings. -/
def HashingSettings.standard : HashingSettings := ⟨false, none⟩

/-- The default settings of a chained container. -/
def ContainerSettings.standard : ContainerSettings := ⟨1024, .fixed, 0.75⟩

/-- The default settings of the probe map are its default options. -/
def ProbeSettings.standard : ProbeSettings :=
  let o := ProbeOptions.standard
  ⟨o.initialCapacity, o.loadFactor, o.falsePositiveRate, o.maxProbeDistance⟩

/-- The default settings of the Bloom filter are its default options. -/
def BloomSettings.standard : BloomSettings :=
  let o := BloomOptions.standard
  ⟨o.expectedItems, o.falsePositiveRate, none⟩

/-- The default workload. -/
def WorkloadSettings.standard : WorkloadSettings := ⟨100000, 4096, 0.8, 0.1, none⟩

/-- The default settings. -/
def Settings.standard : Settings :=
  { log := .standard
    hashing := .standard
    ring := .standard
    deque := .standard
    multi := .standard
    cache := .standard
    probe := .standard
    bloom := .standard
    workload := .standard }

/-- The policy that hashing settings describe. -/
def HashingSettings.policy (s : HashingSettings) : HashingPolicy :=
  ⟨s.randomized, s.collisionThreshold, false⟩

/-- The construction options that container settings describe. -/
def ContainerSettings.options (s : ContainerSettings) (h : HashingSettings) : TableOptions :=
  ⟨s.capacity, s.mode, s.loadFactor, h.policy⟩

/-- The construction options that probe map settings describe. -/
def ProbeSettings.options (s : ProbeSettings) (h : HashingSettings) : ProbeOptions :=
  ⟨s.initialCapacity, s.loadFactor, s.falsePositiveRate, s.maxProbeDistance, h.policy⟩

/-- The construction options that Bloom filter settings describe. -/
def BloomSettings.options (s : BloomSettings) : BloomOptions :=
  .capped s.expectedItems s.falsePositiveRate s.hashFunctions

/-- The number of threads driving the cache on a machine with a number of processors. -/
def WorkloadSettings.threadCount (s : WorkloadSettings) (processors : Nat) : Nat :=
  max (s.threads.getD processors) 1

/-- Report a container error under the name of a section. -/
def inSection {α : Type} (name : String) (r : Except TableError α) : Except ConfigError Unit :=
  match r with
  | .ok _ => .ok ()
  | .error e => .error (.ofTable name e)

/-- The names of the log levels. -/
def LogSettings.levels : List String := ["trace", "debug", "info", "warn", "error"]

/-- The level must be one of the known ones. -/
def LogSettings.check (s : LogSettings) : Except ConfigError Unit :=
  if s.level ∈ levels then .ok ()
  else .error (.validation (s!"Invalid log level: {s.level}"))

/-- The policy must be valid. -/
def HashingSettings.check (s : HashingSettings) : Except ConfigError Unit :=
  inSection "hashing" s.policy.validate

/-- The options must be valid; errors carry the name of the section. -/
def ContainerSettings.checkAs (s : ContainerSettings) (name : String) (h : HashingSettings) :
    Except ConfigError Unit :=
  inSection name (s.options h).check

/-- The options must be valid, apart from any hashing policy. -/
def ContainerSettings.check (s : ContainerSettings) : Except ConfigError Unit :=
  s.checkAs "container" .standard

/-- The options must be valid, apart from any hashing policy. -/
def ProbeSettings.check (s : ProbeSettings) : Except ConfigError Unit :=
  inSection "puka" (s.options .standard).check

/-- The options must be valid. -/
def BloomSettings.check (s : BloomSettings) : Except ConfigError Unit :=
  inSection "bloom" s.options.check

/-- A ratio must be between zero and one. -/
def checkRatio (key : String) (x : Float) : Except ConfigError Unit :=
  if 0.0 ≤ x ∧ x ≤ 1.0 then .ok ()
  else
    .error (.outOfRange ("workload." ++ key)
      s!"must be between 0.0 and 1.0 inclusive, got {floatText x}")

/-- Check the operations, the key space, the two ratios and the threads, in this order. -/
def WorkloadSettings.check (s : WorkloadSettings) : Except ConfigError Unit := do
  if s.operations = 0 then throw (.validation "operations must be greater than 0")
  if s.keySpace = 0 then throw (.validation "key_space must be greater than 0")
  checkRatio "read_ratio" s.readRatio
  checkRatio "remove_ratio" s.removeRatio
  if s.threads = some 0 then throw (.validation "threads must be greater than 0 when set")

namespace Settings

/-- The sections of the chained containers, by name. -/
def containers (s : Settings) : List (String × ContainerSettings) :=
  [("nalu", s.ring), ("lei", s.deque), ("ohana", s.multi), ("moana", s.cache)]

/-- Check the sections in order, and report the first one that is wrong. -/
def check (s : Settings) : Except ConfigError Unit := do
  s.log.check
  s.hashing.check
  s.containers.forM fun c => c.2.checkAs c.1 s.hashing
  s.probe.check
  s.bloom.check
  s.workload.check

end Settings

end BoundedTables
