import Mathlib.Data.List.Nodup
import BoundedTables.Tree.KeyPath

/-!
# Layers over each other

A layer of tables is laid over others value by value: what it names shows, and through what it does
not name, the layers below it show. The values of merged layers are therefore those of the last
layer that names them (`Tree.overlayAll_valueAt`), as long as the names of the tables are no longer
paths and no name is there twice.
-/

namespace BoundedTables.Tree

/-- Whether a value is absent. -/
def isNil : Tree → Bool
  | .nil => true
  | _ => false

/-- Whether a value is a table. -/
def isTable : Tree → Bool
  | .table _ => true
  | _ => false

/-- The members that are not absent. -/
def present (ms : List (String × Tree)) : List (String × Tree) := ms.filter fun m => !m.2.isNil

/-- The value with a name in the table with a name. -/
def valueAt (layer : List (String × Tree)) (table name : String) : Option Tree :=
  (member? layer table).bind fun t => member? t.members name

/-- Tables whose names are paths of one step, and which hold no further tables. No name is there
twice. -/
structure Flat (layer : List (String × Tree)) : Prop where
  tables : ∀ t ∈ layer, KeyPath.ofKey t.1 = ⟨t.1, []⟩ ∧
    ∃ ms, t.2 = .table ms ∧ (∀ m ∈ ms, m.2.isTable = false) ∧ (ms.map Prod.fst).Nodup
  distinct : (layer.map Prod.fst).Nodup

variable {ms layer rest : List (String × Tree)} {name other table : String} {v : Tree}

/-- An absent value is the empty one. -/
theorem eq_nil_of_isNil (h : v.isNil = true) : v = .nil := by
  cases v
  case nil => rfl
  all_goals cases h

/-! ## Members -/

/-- The first member is the one that is found, or else the member is among the rest. -/
theorem member?_cons (m : String × Tree) (ms : List (String × Tree)) (name : String) :
    member? (m :: ms) name = if m.1 = name then some m.2 else member? ms name := by
  by_cases h : m.1 = name
  · rw [if_pos h, member?, List.find?_cons_of_pos (by simpa using h)]
    rfl
  · rw [if_neg h, member?, List.find?_cons_of_neg (by simpa using h)]
    rfl

/-- There is no member with a name that no member has. -/
theorem member?_eq_none (h : name ∉ ms.map Prod.fst) : member? ms name = none := by
  rw [member?, Option.map_eq_none_iff, List.find?_eq_none]
  intro m hm heq
  exact h (List.mem_map.mpr ⟨m, hm, by simpa using heq⟩)

/-- A member is found by its name when no other has it. -/
theorem member?_of_mem (hdistinct : (ms.map Prod.fst).Nodup) (h : (name, v) ∈ ms) :
    member? ms name = some v := by
  induction ms with
  | nil => cases h
  | cons m ms ih =>
      obtain ⟨hm, hdistinct⟩ := List.nodup_cons.mp hdistinct
      rw [member?_cons]
      rcases List.mem_cons.mp h with rfl | h
      · rw [if_pos rfl]
      · have hne : m.1 ≠ name := fun heq => hm (heq ▸ List.mem_map_of_mem h)
        rw [if_neg hne]
        exact ih hdistinct h

/-- A member that was put shows, and every other one is what it was. -/
theorem member?_putMember (ms : List (String × Tree)) (name : String) (v : Tree)
    (other : String) :
    member? (putMember ms name v) other = if name = other then some v else member? ms other := by
  induction ms with
  | nil => rw [putMember, member?_cons]
  | cons m ms ih =>
      rw [putMember]
      by_cases hm : m.1 = name
      · rw [if_pos (by simpa using hm), member?_cons, member?_cons, hm]
        by_cases hother : name = other
        · rw [if_pos hother, if_pos hother]
        · rw [if_neg hother, if_neg hother, if_neg hother]
      · rw [if_neg (by simpa using hm), member?_cons, member?_cons, ih]
        by_cases hother : m.1 = other
        · rw [if_pos hother, if_pos hother, if_neg fun heq => hm (hother.trans heq.symm)]
        · rw [if_neg hother, if_neg hother]

/-- A name that is there once is not in front of itself, and stays there once in its place. -/
theorem nodup_step {names more : List String} (h : (names ++ name :: more).Nodup) :
    name ∉ names ∧ ((names ++ [name]) ++ more).Nodup := by
  refine ⟨fun hmem => ?_, by rwa [← List.append_cons]⟩
  exact (List.nodup_cons.mp (List.nodup_middle.mp h)).1 (List.mem_append_left more hmem)

/-- The members that are not absent show, and no others. -/
theorem member?_present (hdistinct : (ms.map Prod.fst).Nodup) (name : String) :
    member? (present ms) name = (member? ms name).filter fun v => !v.isNil := by
  induction ms with
  | nil => rfl
  | cons m ms ih =>
      obtain ⟨hm, hdistinct⟩ := List.nodup_cons.mp hdistinct
      have hrest : member? (present ms) name = _ := ih hdistinct
      rw [present] at hrest ⊢
      rw [member?_cons, List.filter_cons]
      by_cases hname : m.1 = name
      · subst hname
        rw [member?_eq_none hm] at hrest
        cases hnil : m.2.isNil with
        | true => simpa [hnil, Option.filter] using hrest
        | false => simp [hnil, Option.filter, member?_cons]
      · rw [if_neg hname, ← hrest]
        split
        · rw [member?_cons, if_neg hname]
        · rfl

/-! ## Layers -/

/-- A value is assigned to one member. -/
theorem assign_value (h : v.isTable = false) (target : Tree) :
    target.assign name v = .table (putMember target.members name v) := by
  rw [assign]
  rintro ms rfl
  cases h

/-- Of values that are assigned one after the other, each shows over what was there. -/
theorem member?_assignAll (hvalues : ∀ m ∈ ms, m.2.isTable = false)
    (hdistinct : (ms.map Prod.fst).Nodup) (target : Tree) (name : String) :
    member? (assignAll target ms).members name =
      (member? ms name).or (member? target.members name) := by
  induction ms generalizing target with
  | nil => rw [assignAll]; rfl
  | cons m ms ih =>
      obtain ⟨hm, hdistinct⟩ := List.nodup_cons.mp hdistinct
      obtain ⟨hvalue, hvalues⟩ := List.forall_mem_cons.mp hvalues
      have hrest := ih hvalues hdistinct (target.assign m.1 m.2)
      rw [assign_value hvalue, members, member?_putMember] at hrest
      rw [assignAll, assign_value hvalue, hrest, member?_cons]
      by_cases hname : m.1 = name
      · rw [← hname, member?_eq_none hm]
        simp
      · simp [hname]

/-- A table is merged into the one that stood at its name. -/
theorem valueAt_assign (hvalues : ∀ m ∈ ms, m.2.isTable = false)
    (hdistinct : (ms.map Prod.fst).Nodup) (below : List (String × Tree)) (name : String) :
    ∃ merged, assign (.table below) name (.table ms) = .table merged ∧ ∀ table other,
      valueAt merged table other =
        if name = table then (member? ms other).or (valueAt below name other)
        else valueAt below table other := by
  refine ⟨_, by rw [assign], fun table other => ?_⟩
  rw [valueAt, members, member?_putMember]
  by_cases htable : name = table
  · have hbelow : member? ((member? below name).getD (.table [])).members other =
        valueAt below name other := by
      rw [valueAt]
      cases member? below name <;> rfl
    rw [if_pos htable, if_pos htable, Option.bind_some, member?_assignAll hvalues hdistinct,
      hbelow]
  · rw [if_neg htable, if_neg htable]
    rfl

/-- The values of a layer show, and those of the layers below show through it. -/
theorem overlay_valueAt (h : Flat layer) (below : List (String × Tree)) :
    ∃ merged, overlay (.table below) layer = some (.table merged) ∧ ∀ table name,
      valueAt merged table name = (valueAt layer table name).or (valueAt below table name) := by
  induction layer generalizing below with
  | nil => exact ⟨below, rfl, fun _ _ => rfl⟩
  | cons t layer ih =>
      obtain ⟨name, v⟩ := t
      obtain ⟨⟨hkey, ms, rfl, hvalues, hmembers⟩, htables⟩ := List.forall_mem_cons.mp h.tables
      obtain ⟨hname, hdistinct⟩ := List.nodup_cons.mp h.distinct
      obtain ⟨middle, hassign, hmiddle⟩ := valueAt_assign hvalues hmembers below name
      obtain ⟨merged, hrest, hmerged⟩ := ih ⟨htables, hdistinct⟩ middle
      refine ⟨merged, ?_, fun table other => ?_⟩
      · have hfirst : assignKey (.table below) name (.table ms) = some (.table middle) := by
          rw [assignKey, hkey, ← hassign]
          rfl
        rw [overlay, List.foldlM_cons]
        dsimp only
        rw [hfirst]
        exact hrest
      · rw [hmerged, hmiddle]
        by_cases htable : name = table
        · subst htable
          simp [valueAt, member?_cons, member?_eq_none hname, members]
        · simp [valueAt, member?_cons, htable]

/-- The values of merged layers are those of the last layer that names them. -/
theorem overlayAll_valueAt {layers : List (List (String × Tree))} (h : ∀ l ∈ layers, Flat l)
    (below : List (String × Tree)) :
    ∃ merged, layers.foldlM overlay (.table below) = some (.table merged) ∧ ∀ table name,
      valueAt merged table name =
        (layers.reverse.findSome? fun l => valueAt l table name).or (valueAt below table name) := by
  induction layers generalizing below with
  | nil => exact ⟨below, rfl, fun _ _ => rfl⟩
  | cons layer layers ih =>
      obtain ⟨hlayer, hlayers⟩ := List.forall_mem_cons.mp h
      obtain ⟨middle, hfirst, hmiddle⟩ := overlay_valueAt hlayer below
      obtain ⟨merged, hrest, hmerged⟩ := ih hlayers middle
      refine ⟨merged, ?_, fun table name => ?_⟩
      · rw [List.foldlM_cons, hfirst]
        exact hrest
      · rw [hmerged, hmiddle, List.reverse_cons, List.findSome?_append, List.findSome?_singleton,
          Option.or_assoc]

end BoundedTables.Tree
