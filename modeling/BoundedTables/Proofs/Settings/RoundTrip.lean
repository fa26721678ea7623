import BoundedTables.Proofs.Files.Store
import BoundedTables.Proofs.Settings.Schema

/-!
# Written settings are loaded

Writing and loading are two paths. The written document leaves absent values out, and loading lays
it over the defaults. `Settings.written_load` says that the two undo each other with every library
that keeps its promises: accepted settings come back from their document with every value, and what
is absent stays absent, as it is absent in the defaults.
-/

namespace BoundedTables

open BoundedTables.Tree

variable {lib : ConfigLibrary} {s : Settings} {text path : String} {q : SettingsRequest}

/-! ## The merged layers -/

/-- The number of probes of checked options is bounded. -/
theorem BloomOptions.hashFunctions_le {o : BloomOptions} (h : o.check.isOk) :
    ∀ k ∈ o.hashFunctions, k ≤ maxHashFunctions := by
  intro k hk
  by_cases hitems : o.expectedItems = 0
  · simp only [check, hitems, if_true] at h
    cases h
  · simp only [check, hitems, if_false, Option.mem_def.mp hk] at h
    obtain ⟨-, hprobes⟩ := isOk_then_iff.mp h
    split at hprobes
    · cases hprobes
    · omega

namespace Settings

/-- A 32-bit word is enough for the number of probes of accepted settings. -/
theorem hashFunctions_lt (hcheck : s.check.isOk) :
    ∀ k ∈ s.bloom.hashFunctions, k < UInt32.size := by
  intro k hk
  obtain ⟨-, -, -, -, hbloom, -⟩ := check_isOk_iff.mp hcheck
  rw [BloomSettings.check, inSection_isOk] at hbloom
  exact Nat.lt_of_le_of_lt (BloomOptions.hashFunctions_le hbloom k hk) (by decide)

/-- The standard settings are plain tables. -/
theorem plainTables_standard : PlainTables standard.sections := by
  refine plainTables (by decide +kernel) ?_
  unfold FitsSigned
  decide +kernel

/-- The document of plain settings, laid over the defaults and under no variables, has all values of
the settings: those that are present from the document, and the absent ones from the defaults. -/
theorem exists_merged (hlib : lib.Lawful) (hplain : PlainTables s.sections)
    (hfloats : s.FloatsReadBack lib) (htext : lib.write s.sections = .ok text) :
    ∃ defaults document root, lib.layer standard.sections = .ok defaults ∧
      lib.read .toml (some text) = .ok document ∧
      lib.merge [defaults, document, []] = some (.table root) ∧
      ∀ t ∈ s.sections, ∀ m ∈ t.2, valueAt root t.1 m.1 = some m.2 := by
  obtain ⟨defaults, hdefaults, hlayer, hbelow⟩ := hlib.layer_values _ plainTables_standard
  obtain ⟨document, hdocument, hread, habove⟩ := hlib.read_written _ _ hplain htext
    fun t ht name x hx => hfloats x (mem_floats ht hx)
  have hempty : PlainTables [] := ⟨by simp, by simp, by simp, .nil⟩
  obtain ⟨root, hmerge, hroot⟩ := hlib.merge_values [defaults, document, []]
    (by simp [hdefaults, hdocument, hempty])
  refine ⟨_, _, root, hlayer, hread, hmerge, fun t ht m hm => ?_⟩
  have hvalue := hplain.valueAt_of_mem ht hm
  have hstandard := valueAt_standard s t ht m hm
  have hshown : valueAt root t.1 m.1 = ((some m.2).filter fun v => !v.isNil).or
      (valueAt (layerOf standard.sections) t.1 m.1) := by
    have hnone : valueAt (layerOf []) t.1 m.1 = none := rfl
    rw [hroot]
    change [[], document, defaults].findSome? _ = _
    simp only [List.findSome?_cons, List.findSome?_nil, hnone, habove, hbelow, hvalue]
    cases (some m.2).filter fun v => !v.isNil with
    | some v => rfl
    | none => cases valueAt (layerOf standard.sections) t.1 m.1 <;> rfl
  rw [hshown]
  cases hnil : m.2.isNil with
  | true =>
      have habsent := eq_nil_of_isNil hnil
      rw [hstandard habsent, habsent]
      rfl
  | false => simp [Option.filter, hnil]

/-- The document of accepted settings, laid over the defaults, gives the settings again. -/
theorem exists_assembled (hlib : lib.Lawful) (hcheck : s.check.isOk) (hfits : s.FitsSigned)
    (hfloats : s.FloatsReadBack lib) (htext : lib.write s.sections = .ok text) :
    ∃ defaults document, lib.layer standard.sections = .ok defaults ∧
      lib.read .toml (some text) = .ok document ∧
      assemble lib [defaults, document, []] = some (.ok s) := by
  have hplain := plainTables hcheck hfits
  obtain ⟨defaults, document, root, hlayer, hread, hmerge, hvalues⟩ :=
    exists_merged hlib hplain hfloats htext
  obtain ⟨_, hok⟩ := exists_ok hcheck
  have hsettings := hlib.settings?_of_values hplain (hashFunctions_lt hcheck) hvalues
  refine ⟨defaults, document, hlayer, hread, ?_⟩
  rw [assemble, hmerge, Option.map_some, hsettings]
  dsimp only
  rw [hok]
  rfl

/-! ## Loading -/

/-- A document at a path with the extension of TOML is read as TOML. -/
theorem document_toml (hlib : lib.Lawful) {store : FileStore} (hlook : store.look path = .file text)
    (hextension : Path.extension? path = some "toml") :
    document lib FileStore.system.look path store =
      ((lib.read .toml (some text)).mapError .ofSource, store) := by
  have hformat : (Path.extension? path).bind DocumentFormat.ofExtension? = some .toml := by
    rw [hextension]
    rfl
  have hsystem : FileStore.system.look path store = (.file text, store) := by
    rw [← hlook]
    rfl
  obtain ⟨others, hplaces⟩ := List.head?_eq_some_iff.mp (hlib.places_head .toml path)
  unfold document
  simp only [bind, StateT.bind, hsystem, hformat, hplaces, firstText?]
  rfl

/-- A document is loaded as the settings it is assembled into when no variable overrides them. -/
theorem load_of_assemble (hlib : lib.Lawful) {store : FileStore}
    {defaults members : List (String × Tree)}
    (hlayer : lib.layer standard.sections = .ok defaults)
    (hdocument : document lib FileStore.system.look path store = (.ok members, store))
    (hassemble : assemble lib [defaults, members, []] = some (.ok s)) (hpath : q.path = some path)
    (henvironment : ∀ v ∈ q.environment, Environment.concerns q.programName v.1 = false) :
    load lib FileStore.system.look q store =
      (some (.ok s, Journal.empty.log q.event), store) := by
  have hoverrides := hlib.overrides_foreign q.programName q.environment henvironment
  have hdocuments : documents lib FileStore.system.look (some path) store =
      (.ok [members], store) := by
    unfold documents
    simp only [bind, StateT.bind, hdocument]
    rfl
  unfold load
  simp only [hlayer, hpath, bind, StateT.bind, hdocuments, hoverrides, List.cons_append,
    List.nil_append, hassemble]
  rfl

/-- Accepted settings are written when their whole numbers fit in signed words, and are loaded from
what was written, as they were, if the text of each double denotes it: from any file with this
text whose path says TOML, and from the file that writing leaves behind, when no variable belongs
to the program. This holds with every library that keeps its promises. -/
theorem written_load (hlib : lib.Lawful) (hcheck : s.check.isOk) (hfits : s.FitsSigned)
    (hfloats : s.FloatsReadBack lib) (hpath : q.path = some path)
    (hextension : Path.extension? path = some "toml")
    (henvironment : ∀ v ∈ q.environment, Environment.concerns q.programName v.1 = false) :
    ∃ text, s.toToml lib = .ok text ∧
      (∀ store : FileStore, store.look path = .file text →
        load lib FileStore.system.look q store =
          (some (.ok s, Journal.empty.log q.event), store)) ∧
      ∀ store written : FileStore, store.write path text = .ok written →
        s.writeToml lib FileStore.system path store = (.ok (), written) ∧
        load lib FileStore.system.look q written =
          (some (.ok s, Journal.empty.log q.event), written) := by
  obtain ⟨text, htext⟩ := hlib.write_isOk _ (plainTables hcheck hfits)
  obtain ⟨defaults, members, hlayer, hread, hassemble⟩ :=
    exists_assembled hlib hcheck hfits hfloats htext
  have htoml : s.toToml lib = .ok text := by rw [toToml, htext]
  have hload : ∀ store : FileStore, store.look path = .file text →
      load lib FileStore.system.look q store =
        (some (.ok s, Journal.empty.log q.event), store) := by
    intro store hlook
    have hdocument := document_toml hlib hlook hextension
    rw [hread] at hdocument
    exact load_of_assemble hlib hlayer hdocument hassemble hpath henvironment
  refine ⟨text, htoml, hload, fun store written hwrite => ⟨?_, ?_⟩⟩
  · have hsystem : FileStore.system.write path text store = (.ok (), written) := by
      simp only [FileStore.system, FileStore.attempt, hwrite]
    unfold writeToml
    simp only [htoml, bind, StateT.bind, hsystem]
    rfl
  · exact hload written (FileStore.look_of_write hwrite)

/-- With the standard library, settings with thresholds of their own come back from a file, past a
variable of another program. -/
theorem written_load_generated :
    let s : Settings :=
      { Settings.standard with
        hashing := ⟨true, some 7⟩
        ring := ⟨3, .dynamic, 0.5⟩
        bloom := ⟨5000, 0.001, some 5⟩ }
    let q : SettingsRequest :=
      ⟨some "generated.toml", "TEST_GENERATED", [("MAUKA_TABLES__NALU__CAPACITY", "9")]⟩
    (ConfigLibrary.standard.Lawful ∧ s.check.isOk ∧ s.FitsSigned ∧ s.FloatsReadBack .standard) ∧
      ∃ text written, s.toToml .standard = .ok text ∧
        FileStore.empty.write "generated.toml" text = .ok written ∧
        load .standard FileStore.system.look q written =
          (some (.ok s, Journal.empty.log q.event), written) := by
  intro s q
  have hlib := ConfigLibrary.standard_lawful
  have hcheck : s.check.isOk := by decide +kernel
  have hfits : s.FitsSigned := by
    unfold FitsSigned
    decide +kernel
  have hfloats : s.FloatsReadBack .standard := by
    unfold FloatsReadBack ConfigLibrary.KeepsFloat
    decide +kernel
  refine ⟨⟨hlib, hcheck, hfits, hfloats⟩, ?_⟩
  obtain ⟨text, htoml, -, hwritten⟩ := written_load (q := q) hlib hcheck hfits hfloats rfl
    (by decide +kernel) (by decide +kernel)
  have hwrite : FileStore.empty.write "generated.toml" text =
      .ok (FileStore.empty.put ["generated.toml"] (.file text)) := rfl
  exact ⟨text, _, htoml, hwrite, (hwritten _ _ hwrite).2⟩

end Settings

end BoundedTables
