import BoundedTables.Files.Store
import BoundedTables.Proofs.Table.Options

/-!
# What is written to a store stands there

A file is written into a directory that names lead to. The names still lead there afterwards, as
the only change is where no directory stood, and so the path shows the written text
(`FileStore.look_of_write`).
-/

namespace BoundedTables.FileStore

variable {s t : FileStore} {place other : Place} {e : Entry} {path text : String}
  {ns : List String}

/-! ## Places -/

/-- What is no directory is not the root. -/
theorem ne_nil_of_entryAt (h : s.entryAt place ≠ .directory) : place ≠ [] := by
  rintro rfl
  exact h rfl

/-- What was put at a place stands there. -/
theorem entryAt_put (h : place ≠ []) : (s.put place e).entryAt place = e := by
  simp [entryAt, put, h]

/-- What was put at a place changes no other place. -/
theorem entryAt_put_of_ne (h : other ≠ place) :
    (s.put place e).entryAt other = s.entryAt other := by
  have hfilter : (s.entries.filter fun f => f.1 != place).lookup other =
      s.entries.lookup other := by
    induction s.entries with
    | nil => rfl
    | cons f entries ih =>
        have hf : f = (f.1, f.2) := rfl
        rw [List.filter_cons]
        split
        · rw [hf, List.lookup_cons, List.lookup_cons, ih]
        · rename_i hplace
          obtain rfl : f.1 = place := by simpa using hplace
          rw [ih, hf, List.lookup_cons, beq_eq_false_iff_ne.mpr h]
  have hother : (other == place) = false := beq_eq_false_iff_ne.mpr h
  simp [entryAt, put, List.lookup_cons, hother, hfilter]

/-! ## Names -/

/-- Several names lead where the first of them lead, and from there the rest. -/
theorem walk_append (ns rest : List String) (start : Place) :
    s.walk start (ns ++ rest) = (s.walk start ns).bind fun place => s.walk place rest := by
  induction ns generalizing start with
  | nil => rfl
  | cons name ns ih =>
      simp only [List.cons_append, walk]
      split
      · rfl
      · split
        · exact ih _
        · split
          · exact ih _
          · split
            · rfl
            · exact ih _
      · rfl

/-- Names lead where they did when something is put where no directory stands. -/
theorem walk_put (h : s.entryAt place ≠ .directory) {start last : Place}
    (hwalk : s.walk start ns = .ok last) : (s.put place e).walk start ns = .ok last := by
  induction ns generalizing start with
  | nil => exact hwalk
  | cons name ns ih =>
      unfold walk at hwalk ⊢
      have hstart : s.entryAt start = .directory := by
        split at hwalk
        · cases hwalk
        · assumption
        · cases hwalk
      have hother : start ≠ place := by
        rintro rfl
        exact h hstart
      rw [entryAt_put_of_ne hother]
      simp only [hstart] at hwalk ⊢
      split at hwalk
      · rw [if_pos ‹_›]
        exact ih hwalk
      · rw [if_neg ‹_›]
        split at hwalk
        · rw [if_pos ‹_›]
          exact ih hwalk
        · rw [if_neg ‹_›]
          split at hwalk
          · cases hwalk
          · rw [if_neg ‹_›]
            exact ih hwalk

/-- The place of something that may still have to be made is in a directory that the path leads
to. -/
theorem target_eq_some (h : s.target path = .ok (some place)) :
    checkPath path = .ok () ∧ isRooted path = false ∧ ∃ folder name,
      names path = (names path).dropLast ++ [name] ∧
        s.walk [] (names path).dropLast = .ok folder ∧ s.walk folder [name] = .ok place := by
  unfold target at h
  obtain ⟨_, hcheck, h⟩ := exists_ok_of_bind h
  refine ⟨hcheck, ?_⟩
  dsimp only at h
  split at h
  · split at h <;> cases h
  · rename_i hrooted
    refine ⟨Bool.eq_false_iff.mpr hrooted, ?_⟩
    split at h
    · cases h
    · rename_i name hlast
      obtain ⟨folder, hfolder, h⟩ := exists_ok_of_bind h
      obtain ⟨last, hplace, h⟩ := exists_ok_of_bind h
      obtain ⟨front, hfront⟩ := List.getLast?_eq_some_iff.mp hlast
      split at h
      · cases h
      · rename_i hname
        cases h
        exact ⟨folder, name, by rw [hfront, List.dropLast_concat], hfolder, hplace⟩

/-- A file is written at the place of its path, where no directory stands. -/
theorem write_eq_ok (h : s.write path text = .ok t) : endsOpen path = false ∧ ∃ place,
    s.target path = .ok (some place) ∧ s.entryAt place ≠ .directory ∧
      t = s.put place (.file text) := by
  unfold write at h
  obtain ⟨found, htarget, h⟩ := exists_ok_of_bind h
  cases found with
  | none => cases h
  | some place =>
      dsimp only at h
      split at h
      · cases h
      · rename_i hopen
        split at h
        · cases h
        · cases h
          exact ⟨Bool.eq_false_iff.mpr hopen, place, htarget, ‹_›, rfl⟩

/-- A written path shows its text. -/
theorem look_of_write (h : s.write path text = .ok t) : t.look path = .file text := by
  obtain ⟨hopen, place, htarget, hentry, rfl⟩ := write_eq_ok h
  obtain ⟨hcheck, hrooted, folder, name, hnames, hfolder, hplace⟩ := target_eq_some htarget
  have hwalk : (s.put place (.file text)).walk [] (names path) = .ok place := by
    rw [hnames, walk_append, walk_put hentry hfolder]
    exact walk_put hentry hplace
  unfold look
  rw [hcheck, hrooted, hopen, if_neg Bool.false_ne_true, if_neg Bool.false_ne_true, List.append_nil,
    hwalk]
  exact entryAt_put (ne_nil_of_entryAt hentry)

end BoundedTables.FileStore
