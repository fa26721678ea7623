import Mathlib.Data.List.TakeWhile
import BoundedTables.Settings.Standard
import BoundedTables.Proofs.Toml.Document

/-!
# What a library for settings promises

Loading relies on a library for documents and layers in a few ways (`ConfigLibrary.Lawful`): tables
of plain scalars are written, and read again without what is absent in them; of merged layers, the
last one that names a value gives it; variables of other programs do not count; and a scalar is read
as the kind of value that it is. All of this speaks of any tables, and not of settings. The standard
library keeps these promises (`ConfigLibrary.standard_lawful`).
-/

namespace BoundedTables

open BoundedTables.Tree

/-- A name of small letters, digits and underscores, which has the same meaning in every format and
in every path. -/
def isPlainName (name : String) : Bool :=
  !name.toList.isEmpty && name.toList.all fun c => c.isLower || c.isDigit || c = '_'

/-- The scalars with a plain form: integers in signed words, and texts that are plain names. -/
inductive IsPlainScalar : Tree → Prop
  | absent : IsPlainScalar .nil
  | flag (b : Bool) : IsPlainScalar (.bool b)
  | word {n : Int} (hword : Binary64.isSignedWord n = true) : IsPlainScalar (.int n)
  | float (x : Float) : IsPlainScalar (.float x)
  | text {text : String} (hplain : isPlainName text = true) : IsPlainScalar (.text text)

/-- Tables of plain scalars. All names are plain, and none is there twice. -/
structure PlainTables (tables : List (String × List (String × Tree))) : Prop where
  name : ∀ t ∈ tables, isPlainName t.1 = true
  members : ∀ t ∈ tables, ∀ m ∈ t.2, isPlainName m.1 = true ∧ IsPlainScalar m.2
  members_distinct : ∀ t ∈ tables, (t.2.map Prod.fst).Nodup
  distinct : (tables.map Prod.fst).Nodup

namespace ConfigLibrary

/-- A double is read as what it was before it was written. -/
def KeepsFloat (lib : ConfigLibrary) (x : Float) : Prop :=
  lib.float? (lib.floatText x) = some x

/-- What loading and writing rely on. -/
structure Lawful (lib : ConfigLibrary) : Prop where
  /-- Tables are laid out with all their values. -/
  layer_values : ∀ tables, PlainTables tables → ∃ shown, PlainTables shown ∧
    lib.layer tables = .ok (layerOf shown) ∧
    ∀ table name, valueAt (layerOf shown) table name = valueAt (layerOf tables) table name
  /-- Tables of plain scalars have a document. -/
  write_isOk : ∀ tables, PlainTables tables → ∃ text, lib.write tables = .ok text
  /-- The document of tables has their values, apart from the absent ones. -/
  read_written : ∀ tables text, PlainTables tables → lib.write tables = .ok text →
    (∀ t ∈ tables, ∀ name x, (name, .float x) ∈ t.2 → lib.KeepsFloat x) →
    ∃ shown, PlainTables shown ∧ lib.read .toml (some text) = .ok (layerOf shown) ∧
      ∀ table name, valueAt (layerOf shown) table name =
        (valueAt (layerOf tables) table name).filter fun v => !v.isNil
  /-- A document is looked for at its own path first. -/
  places_head : ∀ format path, (lib.places format path).head? = some path
  /-- Variables of other programs name no settings. -/
  overrides_foreign : ∀ programName assignments,
    (∀ v ∈ assignments, Environment.concerns programName v.1 = false) →
    lib.overrides programName assignments = []
  /-- The last of the layers that name a value gives it. -/
  merge_values : ∀ layers : List (List (String × List (String × Tree))),
    (∀ tables ∈ layers, PlainTables tables) →
    ∃ merged, lib.merge (layers.map layerOf) = some (.table merged) ∧ ∀ table name,
      valueAt merged table name =
        layers.reverse.findSome? fun tables => valueAt (layerOf tables) table name
  /-- A table is read by the names of its members. -/
  fields?_table : ∀ names ms, lib.source.fields? names (.table ms) = some (member? ms)
  isNull_eq : ∀ v, lib.source.isNull v = v.isNil
  word?_int : ∀ n : Nat, n ≤ 9223372036854775807 → lib.source.word? (.int n) = some n
  word32?_int : ∀ n : Nat, n < UInt32.size → lib.source.word32? (.int n) = some n
  float?_float : ∀ x, lib.source.float? (.float x) = some x
  flag?_bool : ∀ b, lib.source.flag? (.bool b) = some b
  text?_text : ∀ s, lib.source.text? (.text s) = some s
  variant?_text : ∀ s, lib.source.variant? (.text s) = some s

end ConfigLibrary

/-! ## Plain names -/

variable {name : String} {tables : List (String × List (String × Tree))}

/-- A plain name has characters, all of which are plain. -/
theorem isPlainName_iff : isPlainName name = true ↔ name.toList ≠ [] ∧
    ∀ c ∈ name.toList, (c.isLower || c.isDigit || decide (c = '_')) = true := by
  simp [isPlainName]

/-- The characters of a plain name are alphanumeric, apart from underscores. -/
theorem isAlphanum_of_isPlainName (h : isPlainName name = true) :
    ∀ c ∈ name.toList, c.isAlphanum = true ∨ c = '_' := by
  intro c hc
  have hplain := (isPlainName_iff.mp h).2 c hc
  have hkinds : c.isAlphanum = ((c.isUpper || c.isLower) || c.isDigit) := rfl
  grind

/-- A plain name is a path of one step. -/
theorem ofKey_of_isPlainName (h : isPlainName name = true) : KeyPath.ofKey name = ⟨name, []⟩ := by
  have hne := (isPlainName_iff.mp h).1
  have hchars : ∀ c ∈ name.toList, KeyPath.isNameChar c = true := by
    intro c hc
    rcases isAlphanum_of_isPlainName h c hc with halpha | rfl
    · simp [KeyPath.isNameChar, halpha]
    · decide
  have htake : name.toList.takeWhile KeyPath.isNameChar = name.toList :=
    List.takeWhile_eq_self_iff.mpr hchars
  have hdrop : name.toList.dropWhile KeyPath.isNameChar = [] :=
    List.dropWhile_eq_nil_iff.mpr hchars
  rw [KeyPath.ofKey, KeyPath.parse?, htake, hdrop, if_neg hne, KeyPath.steps?, Option.map_some,
    Option.getD_some, String.ofList_toList]

/-- A plain name stands in a TOML document without quotes. -/
theorem isBare_of_isPlainName (h : isPlainName name = true) : Toml.isBare name = true := by
  refine Toml.Section.isBare_iff.mpr ⟨(isPlainName_iff.mp h).1, fun c hc => ?_⟩
  rcases isAlphanum_of_isPlainName h c hc with halpha | rfl
  · simp [Toml.Token.isLetter, halpha]
  · decide

/-- A plain name needs no escapes between quotes. -/
theorem isSafe_of_isPlainName (h : isPlainName name = true) :
    ∀ c ∈ name.toList, Toml.Token.isSafe c = true := by
  intro c hc
  have hplain := (isPlainName_iff.mp h).2 c hc
  have hlower : c.isLower = (decide (97 ≤ c.val) && decide (c.val ≤ 122)) := rfl
  have hdigit : c.isDigit = (decide (48 ≤ c.val) && decide (c.val ≤ 57)) := rfl
  simp only [hlower, hdigit, Bool.or_eq_true, Bool.and_eq_true, decide_eq_true_eq,
    UInt32.le_iff_toNat_le] at hplain
  change (((97 ≤ c.toNat ∧ c.toNat ≤ 122) ∨ 48 ≤ c.toNat ∧ c.toNat ≤ 57) ∨ c = '_') at hplain
  have hquote : c ≠ '"' := by
    rintro rfl
    revert hplain
    decide
  have hslash : c ≠ '\\' := by
    rintro rfl
    revert hplain
    decide
  have hcode : 32 ≤ c.toNat ∧ c.toNat ≠ 127 := by
    rcases hplain with hplain | rfl
    · omega
    · decide
  simp [Toml.Token.isSafe, hquote, hslash, hcode]

/-- Plain scalars are legible in a TOML document, as far as doubles are. -/
theorem IsPlainScalar.legible {v : Tree} (h : IsPlainScalar v)
    (hfloat : ∀ x, v = .float x → ConfigLibrary.standard.KeepsFloat x) : Toml.Legible v := by
  cases h with
  | float x => exact hfloat x rfl
  | text hplain => exact isSafe_of_isPlainName hplain
  | _ => trivial

/-- Plain scalars have a written form if they are not absent. -/
theorem IsPlainScalar.written {v : Tree} (h : IsPlainScalar v) :
    v = .nil ∨ ∃ text, Toml.scalar? v = some text := by
  cases h with
  | absent => exact .inl rfl
  | @word n hword => exact .inr ⟨Decimal.intText n, by simp only [Toml.scalar?, hword, if_true]⟩
  | flag | float | text => exact .inr ⟨_, rfl⟩

/-! ## Plain tables -/

namespace PlainTables

/-- Plain tables are merged value by value. -/
theorem flat (h : PlainTables tables) : Flat (layerOf tables) where
  tables := by
    intro _ hshown
    obtain ⟨t, ht, rfl⟩ := List.mem_map.mp hshown
    refine ⟨ofKey_of_isPlainName (h.name t ht), t.2, rfl, fun m hm => ?_,
      h.members_distinct t ht⟩
    obtain ⟨name, v⟩ := m
    cases (h.members t ht _ hm).2 <;> rfl
  distinct := by
    rw [layerOf, List.map_map]
    exact h.distinct

/-- Plain tables are a legible document, as far as their doubles are. -/
theorem legible (h : PlainTables tables)
    (hfloats : ∀ t ∈ tables, ∀ name x, (name, .float x) ∈ t.2 →
      ConfigLibrary.standard.KeepsFloat x) : Toml.LegibleDocument tables where
  legible t ht :=
    { name := isBare_of_isPlainName (h.name t ht)
      members := fun m hm => by
        obtain ⟨hname, hscalar⟩ := h.members t ht m hm
        refine ⟨isBare_of_isPlainName hname, hscalar.legible fun x hx => ?_⟩
        exact hfloats t ht m.1 x (hx ▸ hm)
      distinct := h.members_distinct t ht }
  distinct := h.distinct

/-- A value is found by its names. -/
theorem valueAt_of_mem (h : PlainTables tables) {t : String × List (String × Tree)}
    {m : String × Tree} (ht : t ∈ tables) (hm : m ∈ t.2) :
    valueAt (layerOf tables) t.1 m.1 = some m.2 := by
  have htable : member? (layerOf tables) t.1 = some (.table t.2) :=
    member?_of_mem (by rw [layerOf, List.map_map]; exact h.distinct) (List.mem_map_of_mem ht)
  rw [valueAt, htable]
  exact member?_of_mem (h.members_distinct t ht) hm

/-- Without the absent values, plain tables stay plain. -/
theorem present (h : PlainTables tables) :
    PlainTables (tables.map fun t => (t.1, Tree.present t.2)) where
  name := by
    intro _ hshown
    obtain ⟨t, ht, rfl⟩ := List.mem_map.mp hshown
    exact h.name t ht
  members := by
    intro _ hshown m hm
    obtain ⟨t, ht, rfl⟩ := List.mem_map.mp hshown
    exact h.members t ht m (List.mem_of_mem_filter hm)
  members_distinct := by
    intro _ hshown
    obtain ⟨t, ht, rfl⟩ := List.mem_map.mp hshown
    exact (h.members_distinct t ht).sublist (List.filter_sublist.map Prod.fst)
  distinct := by
    rw [List.map_map]
    exact h.distinct

/-- Leaving out absent values changes no other value. -/
theorem valueAt_present (h : PlainTables tables) (table name : String) :
    valueAt (layerOf (tables.map fun t => (t.1, Tree.present t.2))) table name =
      (valueAt (layerOf tables) table name).filter fun v => !v.isNil := by
  have hmembers := h.members_distinct
  clear h
  induction tables with
  | nil => rfl
  | cons t tables ih =>
      obtain ⟨ht, hmembers⟩ := List.forall_mem_cons.mp hmembers
      have hrest := ih hmembers
      simp only [valueAt, layerOf, List.map_cons, member?_cons] at hrest ⊢
      split
      · simpa [Tree.members] using member?_present ht name
      · exact hrest

end PlainTables

/-! ## The standard library -/

/-- Nothing is overridden where no variable belongs to the program. -/
theorem Environment.layer_eq_nil {programName : String} {assignments : List (String × String)}
    (h : ∀ v ∈ assignments, concerns programName v.1 = false) :
    layer programName assignments = [] := by
  rw [layer, List.filterMap_eq_nil_iff]
  intro v hv
  simp [settingKey?, h v hv]

namespace ConfigLibrary

/-- Plain tables are written. -/
theorem exists_writeToml (h : PlainTables tables) : ∃ text, writeToml tables = .ok text := by
  obtain ⟨text, htext⟩ := Toml.exists_document? fun t ht m hm => (h.members t ht m hm).2.written
  exact ⟨text, by rw [writeToml, htext]⟩

/-- The document of plain tables is read as these tables without their absent values. -/
theorem readDocument_writeToml (h : PlainTables tables) {text : String}
    (htext : writeToml tables = .ok text)
    (hfloats : ∀ t ∈ tables, ∀ name x, (name, .float x) ∈ t.2 → standard.KeepsFloat x) :
    readDocument .toml (some text) =
      .ok (layerOf (tables.map fun t => (t.1, Tree.present t.2))) := by
  have hdocument : Toml.document? tables = some text := by
    unfold writeToml at htext
    split at htext
    · cases htext
      assumption
    · cases htext
  have hparse := Toml.parse?_document (h.legible hfloats) hdocument
  have hmembers : DocumentFormat.toml.members? text = some (tables.map Toml.readTable) := hparse
  rw [readDocument, Option.bind_some, hmembers, layerOf, List.map_map]
  rfl

/-- The standard library is one that settings can be loaded with. -/
theorem standard_lawful : standard.Lawful where
  layer_values tables h := ⟨tables, h, rfl, fun _ _ => rfl⟩
  write_isOk _ h := exists_writeToml h
  read_written _ _ h htext hfloats :=
    ⟨_, h.present, readDocument_writeToml h htext hfloats, h.valueAt_present⟩
  places_head _ _ := rfl
  overrides_foreign _ _ h := Environment.layer_eq_nil h
  merge_values layers h := by
    have hflat : ∀ l ∈ layers.map layerOf, Flat l := by
      intro l hl
      obtain ⟨tables, htables, rfl⟩ := List.mem_map.mp hl
      exact (h tables htables).flat
    obtain ⟨merged, hmerge, hvalues⟩ := overlayAll_valueAt hflat []
    refine ⟨merged, hmerge, fun table name => ?_⟩
    rw [hvalues, ← List.map_reverse, List.findSome?_map]
    exact Option.or_none
  fields?_table _ _ := rfl
  isNull_eq v := by cases v <;> rfl
  word?_int n _ := by simp [standard, SettingsSource.tree, Tree.word?]
  word32?_int n hn := by
    simp [standard, SettingsSource.tree, Tree.word32?, Tree.word?, Nat.mod_eq_of_lt hn]
  float?_float _ := rfl
  flag?_bool _ := rfl
  text?_text _ := rfl
  variant?_text _ := rfl

end ConfigLibrary

end BoundedTables
