import BoundedTables.Settings.Loader
import BoundedTables.Proofs.Settings.Acceptance
import BoundedTables.Proofs.Settings.Library

/-!
# Settings as tables

The two directions of the schema undo each other with every library that keeps its promises:
settings are read from any table in which their values are found
(`ConfigLibrary.Lawful.settings?_of_values`). Accepted settings are plain tables when their whole
numbers fit in signed words (`Settings.plainTables`), and have absent values only where the standard
ones have them as well (`Settings.valueAt_standard`).
-/

namespace BoundedTables

open BoundedTables.Tree

variable {lib : ConfigLibrary} {s : Settings} {root ms : List (String × Tree)}

/-! ## Reading the sections -/

/-- A table in which the plain values of a section are found by their names. -/
def Shows (ms members : List (String × Tree)) : Prop :=
  ∀ m ∈ members, member? ms m.1 = some m.2 ∧ IsPlainScalar m.2

namespace ConfigLibrary.Lawful

/-- A plain word is read as itself. -/
theorem word?_plain (h : lib.Lawful) {n : Nat} (hn : IsPlainScalar (.int n)) :
    lib.source.word? (.int n) = some n := by
  cases hn with
  | word hword =>
      simp only [Binary64.isSignedWord, decide_eq_true_eq] at hword
      exact h.word?_int n (by omega)

/-- A word that may be absent is read as itself. -/
theorem optional_word (h : lib.Lawful) {decode : Tree → Option Nat} {o : Option Nat}
    (hdecode : ∀ n ∈ o, decode (.int n) = some n) :
    lib.source.optional decode (some (optionalWord o)) = some o := by
  cases o with
  | none => simp [SettingsSource.optional, optionalWord, h.isNull_eq, isNil]
  | some n => simp [SettingsSource.optional, optionalWord, h.isNull_eq, isNil, hdecode n rfl]

/-- A plain word that may be absent is read as itself. -/
theorem optional_word? (h : lib.Lawful) {o : Option Nat} (ho : IsPlainScalar (optionalWord o)) :
    lib.source.optional lib.source.word? (some (optionalWord o)) = some o := by
  refine h.optional_word fun n hn => h.word?_plain ?_
  rw [Option.mem_def.mp hn] at ho
  exact ho

/-- A mode is read by its name. -/
theorem mode?_name (h : lib.Lawful) (m : CapacityMode) :
    lib.source.mode? (.text m.name) = some m := by
  rw [SettingsSource.mode?, h.variant?_text]
  cases m <;> decide

/-- Log settings are read from their values. -/
theorem log?_of_shows (h : lib.Lawful) {s : LogSettings} (hms : Shows ms s.members) :
    lib.source.log? (.table ms) = some s := by
  simp only [Shows, LogSettings.members, List.forall_mem_cons] at hms
  obtain ⟨hlevel, hjson, hlocation, -⟩ := hms
  simp [SettingsSource.log?, SettingsSource.required, h.fields?_table, h.text?_text, h.flag?_bool,
    hlevel.1, hjson.1, hlocation.1]

/-- Hashing settings are read from their values. -/
theorem hashing?_of_shows (h : lib.Lawful) {s : HashingSettings} (hms : Shows ms s.members) :
    lib.source.hashing? (.table ms) = some s := by
  simp only [Shows, HashingSettings.members, List.forall_mem_cons] at hms
  obtain ⟨hrandomized, hthreshold, -⟩ := hms
  simp [SettingsSource.hashing?, SettingsSource.required, h.fields?_table, h.flag?_bool,
    hrandomized.1, hthreshold.1, h.optional_word? hthreshold.2]

/-- The settings of a chained container are read from their values. -/
theorem container?_of_shows (h : lib.Lawful) {s : ContainerSettings} (hms : Shows ms s.members) :
    lib.source.container? (.table ms) = some s := by
  simp only [Shows, ContainerSettings.members, List.forall_mem_cons] at hms
  obtain ⟨hcapacity, hmode, hload, -⟩ := hms
  simp [SettingsSource.container?, SettingsSource.required, h.fields?_table, h.float?_float,
    h.mode?_name, hcapacity.1, hmode.1, hload.1, h.word?_plain hcapacity.2]

/-- The settings of the probe map are read from their values. -/
theorem probe?_of_shows (h : lib.Lawful) {s : ProbeSettings} (hms : Shows ms s.members) :
    lib.source.probe? (.table ms) = some s := by
  simp only [Shows, ProbeSettings.members, List.forall_mem_cons] at hms
  obtain ⟨hcapacity, hload, hrate, hdistance, -⟩ := hms
  simp [SettingsSource.probe?, SettingsSource.required, h.fields?_table, h.float?_float,
    hcapacity.1, hload.1, hrate.1, hdistance.1, h.word?_plain hcapacity.2,
    h.word?_plain hdistance.2]

/-- The settings of the Bloom filter are read from their values. The number of probes is read as a
32-bit word. -/
theorem bloom?_of_shows (h : lib.Lawful) {s : BloomSettings} (hms : Shows ms s.members)
    (hprobes : ∀ k ∈ s.hashFunctions, k < UInt32.size) :
    lib.source.bloom? (.table ms) = some s := by
  simp only [Shows, BloomSettings.members, List.forall_mem_cons] at hms
  obtain ⟨hitems, hrate, hfunctions, -⟩ := hms
  simp [SettingsSource.bloom?, SettingsSource.required, h.fields?_table, h.float?_float,
    hitems.1, hrate.1, hfunctions.1, h.word?_plain hitems.2,
    h.optional_word fun k hk => h.word32?_int k (hprobes k hk)]

/-- The settings of the workload are read from their values. -/
theorem workload?_of_shows (h : lib.Lawful) {s : WorkloadSettings} (hms : Shows ms s.members) :
    lib.source.workload? (.table ms) = some s := by
  simp only [Shows, WorkloadSettings.members, List.forall_mem_cons] at hms
  obtain ⟨hoperations, hkeys, hreads, hremoves, hthreads, -⟩ := hms
  simp [SettingsSource.workload?, SettingsSource.required, h.fields?_table, h.float?_float,
    hoperations.1, hkeys.1, hreads.1, hremoves.1, hthreads.1, h.word?_plain hoperations.2,
    h.word?_plain hkeys.2, h.optional_word? hthreads.2]

end ConfigLibrary.Lawful

/-- What has a value in a table is a table itself. -/
theorem exists_table {table : String} {members : List (String × Tree)} (hne : members ≠ [])
    (hvalues : ∀ m ∈ members, valueAt root table m.1 = some m.2) :
    ∃ ms, member? root table = some (.table ms) ∧
      ∀ m ∈ members, member? ms m.1 = some m.2 := by
  obtain ⟨m, hm⟩ := List.exists_mem_of_ne_nil members hne
  obtain ⟨v, hv, hmember⟩ := Option.bind_eq_some_iff.mp (hvalues m hm)
  cases v with
  | table ms =>
      refine ⟨ms, hv, fun m hm => ?_⟩
      have hvalue := hvalues m hm
      rw [valueAt, hv] at hvalue
      exact hvalue
  | _ => cases hmember

/-- Settings are read from a table in which all their values are found. -/
theorem ConfigLibrary.Lawful.settings?_of_values (h : lib.Lawful) (hplain : PlainTables s.sections)
    (hprobes : ∀ k ∈ s.bloom.hashFunctions, k < UInt32.size)
    (hvalues : ∀ t ∈ s.sections, ∀ m ∈ t.2, valueAt root t.1 m.1 = some m.2) :
    lib.source.settings? (.table root) = some s := by
  have hshows : ∀ t ∈ s.sections, t.2 ≠ [] →
      ∃ ms, member? root t.1 = some (.table ms) ∧ Shows ms t.2 := by
    intro t ht hne
    obtain ⟨ms, hmember, hms⟩ := exists_table hne (hvalues t ht)
    exact ⟨ms, hmember, fun m hm => ⟨hms m hm, (hplain.members t ht m hm).2⟩⟩
  simp only [Settings.sections, List.forall_mem_cons] at hshows
  obtain ⟨hlog, hhashing, hring, hdeque, hmulti, hcache, hprobe, hbloom, hworkload, -⟩ := hshows
  obtain ⟨log, hlog, hlogs⟩ := hlog (by simp [LogSettings.members])
  obtain ⟨hashing, hhashing, hhashings⟩ := hhashing (by simp [HashingSettings.members])
  obtain ⟨ring, hring, hrings⟩ := hring (by simp [ContainerSettings.members])
  obtain ⟨deque, hdeque, hdeques⟩ := hdeque (by simp [ContainerSettings.members])
  obtain ⟨multi, hmulti, hmultis⟩ := hmulti (by simp [ContainerSettings.members])
  obtain ⟨cache, hcache, hcaches⟩ := hcache (by simp [ContainerSettings.members])
  obtain ⟨probe, hprobe, hprobe'⟩ := hprobe (by simp [ProbeSettings.members])
  obtain ⟨bloom, hbloom, hblooms⟩ := hbloom (by simp [BloomSettings.members])
  obtain ⟨workload, hworkload, hworkloads⟩ := hworkload (by simp [WorkloadSettings.members])
  simp [SettingsSource.settings?, SettingsSource.required, h.fields?_table, hlog, hhashing, hring,
    hdeque, hmulti, hcache, hprobe, hbloom, hworkload, h.log?_of_shows hlogs,
    h.hashing?_of_shows hhashings, h.container?_of_shows hrings, h.container?_of_shows hdeques,
    h.container?_of_shows hmultis, h.container?_of_shows hcaches, h.probe?_of_shows hprobe',
    h.bloom?_of_shows hblooms hprobes, h.workload?_of_shows hworkloads]

/-! ## Writing the sections -/

namespace Settings

/-- The doubles among the values. -/
def floats (s : Settings) : List Float :=
  (s.sections.flatMap Prod.snd).filterMap fun m =>
    match m.2 with
    | .float x => some x
    | _ => none

/-- The whole numbers among the values. -/
def integers (s : Settings) : List Int :=
  (s.sections.flatMap Prod.snd).filterMap fun m =>
    match m.2 with
    | .int n => some n
    | _ => none

/-- A double in a section is one of the doubles. -/
theorem mem_floats {t : String × List (String × Tree)} {name : String} {x : Float}
    (ht : t ∈ s.sections) (hm : (name, .float x) ∈ t.2) : x ∈ s.floats :=
  List.mem_filterMap.mpr ⟨_, List.mem_flatMap.mpr ⟨t, ht, hm⟩, rfl⟩

/-- A whole number in a section is one of the whole numbers. -/
theorem mem_integers {t : String × List (String × Tree)} {name : String} {n : Int}
    (ht : t ∈ s.sections) (hm : (name, .int n) ∈ t.2) : n ∈ s.integers :=
  List.mem_filterMap.mpr ⟨_, List.mem_flatMap.mpr ⟨t, ht, hm⟩, rfl⟩

/-- The text that a library writes for each double denotes it. -/
def FloatsReadBack (lib : ConfigLibrary) (s : Settings) : Prop :=
  ∀ x ∈ s.floats, lib.KeepsFloat x

/-- No whole number is past the signed 64-bit words. -/
def FitsSigned (s : Settings) : Prop := ∀ n ∈ s.integers, n ≤ 9223372036854775807

/-- The kinds of values that settings have: plain scalars, apart from the size of words. -/
def IsValue (v : Tree) : Prop := (∃ n : Nat, v = .int n) ∨ IsPlainScalar v

/-- A word that may be absent is a value. -/
theorem isValue_optional (o : Option Nat) : IsValue (optionalWord o) := by
  cases o with
  | none => exact .inr .absent
  | some n => exact .inl ⟨n, rfl⟩

/-- The name of a mode is a value. -/
theorem isValue_mode (m : CapacityMode) : IsValue (.text m.name) :=
  .inr (.text (by cases m <;> decide))

/-- A level that is accepted is a value, as one of the known words. -/
theorem isValue_level (hcheck : s.check.isOk) : IsValue (.text s.log.level) := by
  have hlevel : s.log.level ∈ LogSettings.levels := by
    obtain ⟨hlog, -⟩ := check_isOk_iff.mp hcheck
    unfold LogSettings.check at hlog
    split at hlog
    · assumption
    · cases hlog
  have hlevels : ∀ level ∈ LogSettings.levels, isPlainName level = true := by decide
  exact .inr (.text (hlevels _ hlevel))

/-- The values of a chained container are of these kinds. -/
theorem isValue_container (s : ContainerSettings) : ∀ m ∈ s.members, IsValue m.2 := by
  simp only [ContainerSettings.members, List.forall_mem_cons]
  exact ⟨.inl ⟨_, rfl⟩, isValue_mode _, .inr (.float _), by simp⟩

/-- The values of accepted settings are of these kinds. -/
theorem isValue_of_check (hcheck : s.check.isOk) : ∀ t ∈ s.sections, ∀ m ∈ t.2, IsValue m.2 := by
  have hlog : ∀ m ∈ s.log.members, IsValue m.2 := by
    simp only [LogSettings.members, List.forall_mem_cons]
    exact ⟨isValue_level hcheck, .inr (.flag _), .inr (.flag _), by simp⟩
  have hhashing : ∀ m ∈ s.hashing.members, IsValue m.2 := by
    simp only [HashingSettings.members, List.forall_mem_cons]
    exact ⟨.inr (.flag _), isValue_optional _, by simp⟩
  have hprobe : ∀ m ∈ s.probe.members, IsValue m.2 := by
    simp only [ProbeSettings.members, List.forall_mem_cons]
    exact ⟨.inl ⟨_, rfl⟩, .inr (.float _), .inr (.float _), .inl ⟨_, rfl⟩, by simp⟩
  have hbloom : ∀ m ∈ s.bloom.members, IsValue m.2 := by
    simp only [BloomSettings.members, List.forall_mem_cons]
    exact ⟨.inl ⟨_, rfl⟩, .inr (.float _), isValue_optional _, by simp⟩
  have hworkload : ∀ m ∈ s.workload.members, IsValue m.2 := by
    simp only [WorkloadSettings.members, List.forall_mem_cons]
    exact ⟨.inl ⟨_, rfl⟩, .inl ⟨_, rfl⟩, .inr (.float _), .inr (.float _), isValue_optional _,
      by simp⟩
  simp only [sections, List.forall_mem_cons]
  exact ⟨hlog, hhashing, isValue_container _, isValue_container _, isValue_container _,
    isValue_container _, hprobe, hbloom, hworkload, by simp⟩

/-- The names of the sections and of their values. -/
def names : List (String × List String) := standard.sections.map fun t => (t.1, t.2.map Prod.fst)

/-- All settings have the same names. -/
theorem names_eq (s : Settings) : s.sections.map (fun t => (t.1, t.2.map Prod.fst)) = names := rfl

/-- The names are plain, and none is there twice. -/
theorem isPlainName_names : (names.map Prod.fst).Nodup ∧ ∀ t ∈ names,
    isPlainName t.1 = true ∧ (∀ name ∈ t.2, isPlainName name = true) ∧ t.2.Nodup := by
  decide

/-- Accepted settings are plain tables when their whole numbers fit in signed words. -/
theorem plainTables (hcheck : s.check.isOk) (hfits : s.FitsSigned) : PlainTables s.sections := by
  obtain ⟨hdistinct, hplain⟩ := isPlainName_names
  have hnames : ∀ t ∈ s.sections, isPlainName t.1 = true ∧
      (∀ name ∈ t.2.map Prod.fst, isPlainName name = true) ∧ (t.2.map Prod.fst).Nodup := by
    intro t ht
    have hmem : (t.1, t.2.map Prod.fst) ∈ names := by
      rw [← names_eq s]
      exact List.mem_map_of_mem ht
    exact hplain _ hmem
  refine ⟨fun t ht => (hnames t ht).1, fun t ht m hm => ⟨?_, ?_⟩, fun t ht => (hnames t ht).2.2,
    hdistinct⟩
  · exact (hnames t ht).2.1 m.1 (List.mem_map_of_mem hm)
  · obtain ⟨name, v⟩ := m
    rcases isValue_of_check hcheck t ht _ hm with ⟨n, rfl⟩ | hscalar
    · have hn := hfits n (mem_integers ht hm)
      refine .word ?_
      simp only [Binary64.isSignedWord, decide_eq_true_eq]
      omega
    · exact hscalar

/-- What is absent in some settings is absent in the standard ones. -/
theorem valueAt_standard (s : Settings) : ∀ t ∈ s.sections, ∀ m ∈ t.2, m.2 = .nil →
    valueAt (layerOf standard.sections) t.1 m.1 = some .nil := by
  simp only [sections, LogSettings.members, HashingSettings.members, ContainerSettings.members,
    ProbeSettings.members, BloomSettings.members, WorkloadSettings.members, List.forall_mem_cons,
    reduceCtorEq, false_implies, true_and, List.not_mem_nil, implies_true, and_true]
  exact ⟨fun _ => rfl, fun _ => rfl, fun _ => rfl⟩

end Settings

end BoundedTables
