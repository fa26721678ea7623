import BoundedTables.Toml.Document
import BoundedTables.Proofs.Toml.Section

/-!
# Written documents read back

The sections of a written document are gathered in their order: what is still to be read are the
sections from some place on (`Draft.Gathers`), and each step opens the first of them, reads its
members and goes on behind it. A document is read as the tables it was written from, apart from
their absent values (`parse?_document`).
-/

namespace BoundedTables.Toml

variable {tables : List (String × List (String × Tree))} {ms : List (String × Tree)}

/-- A document that its written form leads back to: legible tables, each name once. -/
structure LegibleDocument (tables : List (String × List (String × Tree))) : Prop where
  legible : ∀ t ∈ tables, LegibleTable t
  distinct : (tables.map Prod.fst).Nodup

/-- The table of a section that was written. -/
def readTable (t : String × List (String × Tree)) : String × Tree :=
  (t.1, .table (Tree.present t.2))

/-! ## Members -/

/-- The reserved key is no bare name. -/
theorem ne_momentKey_of_isBare {name : String} (h : isBare name = true) :
    name ≠ Value.momentKey := by
  rintro rfl
  revert h
  decide

/-- Scalars with distinct names are the members of a table. -/
theorem Value.tableTree?_scalars (before : List (String × Tree))
    (hbare : ∀ m ∈ ms, isBare m.1 = true)
    (hdistinct : (before.map Prod.fst ++ ms.map Prod.fst).Nodup) :
    Value.tableTree? before (ms.map fun m => (m.1, .scalar m.2)) =
      some (.table (before ++ ms)) := by
  induction ms generalizing before with
  | nil => simp [Value.tableTree?]
  | cons m ms ih =>
      obtain ⟨name, v⟩ := m
      obtain ⟨hname, hbelow⟩ := List.forall_mem_cons.mp hbare
      obtain ⟨hnew, hdistinct⟩ := Tree.nodup_step hdistinct
      have hrest := ih (before ++ [(name, v)]) hbelow (by simpa using hdistinct)
      have hmember := Tree.member?_eq_none hnew
      have hkey := ne_momentKey_of_isBare hname
      rw [List.map_cons, Value.tableTree?.eq_def]
      simp only [hkey, hmember, Value.toTree?]
      simpa using hrest

namespace Draft

/-! ## Looking for a section -/

/-- Where no number has a property, the search for one finds none. -/
theorem find?_eq_none {p : Nat → Bool} {i count : Nat}
    (h : ∀ j, i ≤ j → j < i + count → p j = false) :
    find? p i count = none := by
  induction count generalizing i with
  | zero => rfl
  | succ count ih =>
      rw [find?, h i (Nat.le_refl i) (by omega)]
      exact ih fun j hj hlt => h j (by omega) (by omega)

/-- The search finds the first number with a property. -/
theorem find?_eq_some {p : Nat → Bool} {i k count : Nat} (hk : i ≤ k) (hlt : k < i + count)
    (hbefore : ∀ j, i ≤ j → j < k → p j = false) (hp : p k = true) : find? p i count = some k := by
  induction count generalizing i with
  | zero => omega
  | succ count ih =>
      rw [find?]
      rcases Nat.eq_or_lt_of_le hk with rfl | hik
      · rw [if_pos hp]
      · rw [hbefore i (Nat.le_refl i) hik]
        exact ih hik (by omega) fun j hj => hbefore j (by omega)

/-! ## Gathering -/

/-- The sections of written tables, which are still to be read from one place on. -/
structure Gathers (tables : List (String × List (String × Tree))) (d : Draft) (k : Nat) : Prop where
  sections : d.sections = (tables.map Section.ofTable).toArray
  unread : ∀ i, d.isUnread i = decide (k ≤ i ∧ i < tables.length)

variable {d : Draft} {i k : Nat}

/-- At first the sections of all tables are still to be read. -/
theorem gathers_ofSections :
    Gathers tables (ofSections (tables.map Section.ofTable).toArray) 0 where
  sections := rfl
  unread i := by
    simp [isUnread, ofSections, Array.getD]

/-- The sections of the tables in front are no longer to be read. -/
theorem Gathers.isUnread_before (h : Gathers tables d k) (hi : i < k) : d.isUnread i = false := by
  rw [h.unread]
  exact decide_eq_false (by omega)

/-- The section of the next table is still to be read. -/
theorem Gathers.isUnread_next (h : Gathers tables d k) (hk : k < tables.length) :
    d.isUnread k = true := by
  rw [h.unread]
  exact decide_eq_true ⟨Nat.le_refl k, hk⟩

/-- A section stands under the name of its table. -/
theorem Gathers.path (h : Gathers tables d k) (hi : i < tables.length) :
    d.path i = [tables[i].1] := by
  simp [Draft.path, h.sections, hi, Section.ofTable]

/-- No section of a written document is an element of a list. -/
theorem Gathers.isElement (h : Gathers tables d k) : d.isElement i = false := by
  rw [Draft.isElement, h.sections, Option.any_eq_false]
  rintro s hs
  obtain ⟨hi, rfl⟩ := Array.getElem?_eq_some_iff.mp hs
  simp [Section.ofTable]

/-- The first of the unread sections is read. -/
theorem Gathers.take (h : Gathers tables d k) (hk : k < tables.length) :
    (d.take k).1 = Section.values tables[k].2 ∧ Gathers tables (d.take k).2 (k + 1) := by
  refine ⟨by simp [Draft.take, h.sections, hk, Section.ofTable], h.sections, fun i => ?_⟩
  have hunread := h.unread i
  unfold isUnread at hunread ⊢
  rw [Array.getD_eq_getD_getElem?] at hunread ⊢
  rw [Draft.take, Array.getElem?_setIfInBounds]
  split
  · subst i
    have hpast : ¬(k + 1 ≤ k ∧ k < tables.length) := by omega
    rw [decide_eq_false hpast]
    split <;> rfl
  · rw [hunread, decide_eq_decide]
    omega

/-- Only one section has a given name. -/
theorem Gathers.path_eq_iff (h : Gathers tables d k) (hlegible : LegibleDocument tables) {j : Nat}
    (hi : i < tables.length) (hj : j < tables.length) : d.path i = d.path j ↔ i = j := by
  rw [h.path hi, h.path hj, List.singleton_inj]
  have hinj := @List.Nodup.getElem_inj_iff _ _ hlegible.distinct i (by simpa) j (by simpa)
  simpa using hinj

/-! ### The table of one section -/

/-- Only the section itself goes through its table. -/
theorem Gathers.next?_own (h : Gathers tables d k) (hk : k < tables.length) :
    d.next? ⟨1, k, tables.length, 0⟩ = some k := by
  refine find?_eq_some (Nat.zero_le k) (by simpa using hk) (fun j _ hj => ?_) ?_
  · rw [h.isUnread_before hj, Bool.and_false]
  · rw [h.isUnread_next hk, h.path hk]
    simp

/-- Once its section is read, nothing more goes through a table. -/
theorem Gathers.next?_own_read (h : Gathers tables d (k + 1)) (hk : k < tables.length)
    (hlegible : LegibleDocument tables) : d.next? ⟨1, k, tables.length, k⟩ = none := by
  refine find?_eq_none fun j (hkj : k ≤ j) (hj : j < k + (tables.length - k)) => ?_
  have hlt : j < tables.length := by omega
  rcases Nat.eq_or_lt_of_le hkj with rfl | hkj
  · rw [h.isUnread_before (Nat.lt_succ_self k), Bool.and_false]
  · have hother := mt (h.path_eq_iff hlegible hk hlt).mp (Nat.ne_of_lt hkj)
    rw [h.path hlt, h.path hk, List.singleton_inj] at hother
    rw [h.path hlt, h.path hk]
    simp [hother]

/-- The values of a table are read as its present members. -/
theorem tableTree?_values {t : String × List (String × Tree)} (ht : LegibleTable t) :
    Value.tableTree? [] (Section.values t.2) = some (.table (Tree.present t.2)) := by
  have hpresent : (Tree.present t.2).Sublist t.2 := List.filter_sublist
  refine Value.tableTree?_scalars [] (fun m hm => (ht.members m (hpresent.mem hm)).1) ?_
  exact ht.distinct.sublist (hpresent.map Prod.fst)

/-- The members of the first unread section are gathered into its table. -/
theorem Gathers.table?_own (h : Gathers tables d k) (hk : k < tables.length)
    (hlegible : LegibleDocument tables) (fuel : Nat) :
    d.table? (fuel + 2) ⟨1, k, tables.length, 0⟩ [] =
      some (.table (Tree.present tables[k].2), (d.take k).2) := by
  obtain ⟨hvalues, htaken⟩ := h.take hk
  have hnone := htaken.next?_own_read hk hlegible
  have htree := tableTree?_values (hlegible.legible _ (List.getElem_mem hk))
  rw [← hvalues] at htree
  rw [Draft.table?]
  simp only [h.next?_own hk, Draft.follow?, if_true, h.path hk, h.isElement, List.drop_succ_cons,
    Option.bind_eq_bind, Option.bind_some, List.drop_zero]
  rw [if_neg Bool.false_ne_true]
  obtain ⟨ms, d', htake⟩ : ∃ ms d', d.take k = (ms, d') := ⟨_, _, rfl⟩
  rw [htake] at htree hnone ⊢
  dsimp only at htree hnone ⊢
  rw [htree, Option.bind_some]
  dsimp only
  rw [Draft.table?, hnone]

/-! ### The root -/

/-- Every section goes through the root, so that the first unread one is next. -/
theorem Gathers.next?_root (h : Gathers tables d k) (hk : k < tables.length) :
    d.next? ⟨0, 0, tables.length, k⟩ = some k := by
  refine find?_eq_some (Nat.le_refl k) (by simp; omega) (fun j (hkj : k ≤ j) hj => by omega) ?_
  rw [h.isUnread_next hk]
  simp

/-- Once the root has been read, nothing of it is left. -/
theorem next?_root_read (d : Draft) (length : Nat) : d.next? ⟨0, 0, length, length⟩ = none :=
  find?_eq_none fun j (hj : length ≤ j) (hlt : j < length + (length - length)) => by omega

/-- All paths are of the same length, and the root stays with the first section. -/
theorem Gathers.follow?_root (h : Gathers tables d k) (hk : k < tables.length)
    (hlegible : LegibleDocument tables) :
    d.follow? ⟨0, 0, tables.length, k⟩ k = some ⟨0, 0, tables.length, k⟩ := by
  have hzero : 0 < tables.length := Nat.lt_of_le_of_lt (Nat.zero_le k) hk
  unfold follow?
  split
  · rfl
  · rename_i hother
    rw [if_neg (by simpa using mt (h.path_eq_iff hlegible hk hzero).mp hother), h.path hk,
      h.path hzero]
    rfl

/-- The name of a table is not there when the tables in front of it are read. -/
theorem isRefused_eq_false (hk : k < tables.length) (hlegible : LegibleDocument tables) :
    isRefused ((tables.take k).map readTable) tables[k].1 = false := by
  have hnames : tables.map Prod.fst = ((tables.take k).map readTable).map Prod.fst ++
      tables[k].1 :: (tables.drop (k + 1)).map Prod.fst := by
    rw [List.map_map, show Prod.fst ∘ readTable = Prod.fst from rfl, ← List.map_cons,
      ← List.drop_eq_getElem_cons, ← List.map_append, List.take_append_drop]
  have hnew := (Tree.nodup_step (hnames ▸ hlegible.distinct)).1
  have hkey := ne_momentKey_of_isBare (hlegible.legible _ (List.getElem_mem hk)).name
  rw [isRefused, Tree.member?_eq_none hnew, decide_eq_false hkey, Bool.and_false]
  rfl

/-- The unread sections are gathered behind what was read before. -/
theorem Gathers.table?_root (h : Gathers tables d k) (hk : k ≤ tables.length)
    (hlegible : LegibleDocument tables) {fuel : Nat} (hfuel : tables.length - k + 2 ≤ fuel) :
    (d.table? fuel ⟨0, 0, tables.length, k⟩ ((tables.take k).map readTable)).map (·.1) =
      some (.table (tables.map readTable)) := by
  induction fuel generalizing d k with
  | zero => omega
  | succ fuel ih =>
      rcases Nat.eq_or_lt_of_le hk with rfl | hlt
      · rw [Draft.table?, next?_root_read, List.take_length]
        rfl
      · -- The table of this section takes two steps, and the rest of the root one step less.
        obtain ⟨fuel, rfl⟩ := Nat.exists_eq_add_of_le' (show 2 ≤ fuel by omega)
        have hread : (tables.take k).map readTable ++
            [(tables[k].1, .table (Tree.present tables[k].2))] =
              (tables.take (k + 1)).map readTable := by
          rw [List.take_succ_eq_append_getElem hlt, List.map_append]
          rfl
        rw [Draft.table?]
        simp only [h.next?_root hlt, h.follow?_root hlt hlegible, h.path hlt, h.isElement,
          List.drop_zero, isRefused_eq_false hlt hlegible, Option.bind_eq_bind, Option.bind_some,
          Bool.false_and, h.table?_own hlt hlegible fuel]
        rw [if_neg Bool.false_ne_true]
        simp only [if_neg Bool.false_ne_true]
        rw [hread]
        exact ih (h.take hlt).2 hlt (by omega)

/-- There are more steps than sections. -/
theorem le_steps : d.sections.size + 2 ≤ d.steps := by
  unfold steps
  dsimp only
  generalize d.sections.foldl _ 0 = longest
  have hproduct := Nat.mul_le_mul_left (4 * (d.sections.size + 1)) (Nat.le_add_left 2 longest)
  omega

end Draft

/-- A written document is read as the tables it was written from. -/
theorem parse?_document (hlegible : LegibleDocument tables) {text : String}
    (htext : document? tables = some text) : parse? text = some (tables.map readTable) := by
  have hsize : (Draft.ofSections (tables.map Section.ofTable).toArray).sections.size =
      tables.length := by
    simp [Draft.ofSections]
  have hsteps := Draft.le_steps (d := Draft.ofSections (tables.map Section.ofTable).toArray)
  rw [hsize] at hsteps
  have htree : (Draft.ofSections (tables.map Section.ofTable).toArray).tree? =
      some (.table (tables.map readTable)) := by
    rw [Draft.tree?, hsize]
    exact Draft.gathers_ofSections.table?_root (Nat.zero_le _) hlegible hsteps
  unfold parse?
  rw [Section.ofText?_document hlegible.legible htext, Option.bind_eq_bind, Option.bind_some, htree]
  rfl

end BoundedTables.Toml
