import BoundedTables.Proofs.BloomFilter.Family

/-!
# What a Bloom filter knows for certain

A filter cannot tell whether a hash was added, but it answers exactly what its bits say. Adding a
hash tells whether it was no member (`insertHash_changed`), even though the positions of one hash
may repeat, so that a probe meets a bit that an earlier one has just set. No bit is ever set past
the last position (`Confined`), so the set bits count the positions that are. And no bit is set
exactly as long as nothing came into the filter (`isEmpty_iff_not_filled`). `reachable_exact` has
all of this for every filter of a family, after any history.
-/

namespace BoundedTables.BloomFilter

open Words

/-! ## Noting a change -/

/-- A change that was noted stays noted. -/
theorem foldl_setBit_noted (positions : List Nat) {state : Array UInt64 × Bool}
    (h : state.2 = true) : (positions.foldl setBit state).2 = true := by
  induction positions generalizing state with
  | nil => exact h
  | cons p positions ih =>
      obtain ⟨words, changed⟩ := state
      refine ih ?_
      rw [setBit]
      split
      · exact h
      · rfl

/-- A change is noted exactly when one of the bits was clear at the start. -/
theorem foldl_setBit_changed (positions : List Nat) (words : Array UInt64) :
    (positions.foldl setBit (words, false)).2 = !positions.all (bit words) := by
  induction positions with
  | nil => rfl
  | cons p positions ih =>
      rw [List.foldl_cons, List.all_cons]
      by_cases hset : bit words p = true
      · rw [setBit, if_pos hset, ih, hset, Bool.true_and]
      · rw [setBit, if_neg hset, foldl_setBit_noted positions rfl, Bool.eq_false_iff.mpr hset,
          Bool.false_and, Bool.not_false]

/-- Adding a hash changes a bit exactly when it was not a member. -/
theorem insertHash_changed (f : BloomFilter) (hash : UInt64) :
    (f.insertHash hash).1 = !f.containsHash hash :=
  foldl_setBit_changed (f.positions hash) f.words

/-! ## Bits have positions -/

/-- There is a probe, and no bit is set past the last position. -/
structure Confined (f : BloomFilter) : Prop extends f.Shaped where
  probes_pos : 0 < f.hashCount
  clear_past : ∀ p, f.bitCount ≤ p → bit f.words p = false

variable {f g u : BloomFilter} {hash other : UInt64}

/-- Adding a hash sets no bit past the last position. -/
theorem Confined.insertHash (h : f.Confined) (hash : UInt64) : (f.insertHash hash).2.Confined where
  toShaped := h.toShaped.insertHash hash
  probes_pos := h.probes_pos
  clear_past p hp := by
    have hoff : p ∉ f.positions hash := fun hmem =>
      absurd (h.positions_lt hmem) (Nat.not_lt_of_le hp)
    rw [h.bit_insertHash, decide_eq_false hoff, h.clear_past p hp, Bool.or_false]

/-- A union sets no bit past the last position. -/
theorem Confined.union (hf : f.Confined) (hg : g.Confined) (h : f.union g = (.ok (), u)) :
    u.Confined where
  toShaped := hf.toShaped.union hg.toShaped h
  probes_pos := by
    obtain ⟨-, -, rfl⟩ := union_eq_ok_iff.mp h
    exact hf.probes_pos
  clear_past p hp := by
    have hbits : u.bitCount = f.bitCount ∧ f.bitCount = g.bitCount := by
      obtain ⟨hbits, -, rfl⟩ := union_eq_ok_iff.mp h
      exact ⟨rfl, hbits⟩
    rw [hf.bit_union hg.toShaped h, hf.clear_past p (by omega), hg.clear_past p (by omega),
      Bool.or_false]

/-- A cleared filter has no bit set past the last position. -/
theorem Confined.clear (h : f.Confined) : f.clear.Confined where
  toShaped := h.toShaped.clear
  probes_pos := h.probes_pos
  clear_past p _ := bit_replicate_zero f.words.size p

/-- No event sets a bit past the last position. -/
theorem confined_stable : Stable Confined := ⟨Confined.insertHash, Confined.union, Confined.clear⟩

/-- An empty filter has no bit set past the last position. -/
theorem ofShape_confined (o : BloomOptions) (shape : Shape) :
    (ofShape o shape.bitCount shape.hashCount).Confined where
  toShaped := ofShape_shaped o shape.bits_pos _
  probes_pos := shape.probes_pos
  clear_past p _ := bit_replicate_zero _ p

/-- The set bits are those at positions. -/
theorem Confined.setBits_eq (h : f.Confined) :
    f.setBits = (List.range f.bitCount).countP (bit f.words) := by
  -- the positions, and then the rest of the last word
  have hsplit : 64 * f.words.size = f.bitCount + (64 * wordCount f.bitCount - f.bitCount) := by
    have hcover : f.bitCount ≤ 64 * wordCount f.bitCount := by
      unfold wordCount
      omega
    rw [h.words]
    omega
  have hrest : (List.range (64 * wordCount f.bitCount - f.bitCount)).countP
      (bit f.words ∘ (f.bitCount + ·)) = 0 := by
    refine List.countP_eq_zero.mpr fun i _ => ?_
    rw [Function.comp_apply, h.clear_past _ (Nat.le_add_right _ i)]
    exact Bool.false_ne_true
  rw [BloomFilter.setBits, Words.setBits_eq, hsplit, List.range_add, List.countP_append,
    List.countP_map, hrest, Nat.add_zero]

/-- No more bits are set than there are. -/
theorem Confined.setBits_le (h : f.Confined) : f.setBits ≤ f.bitCount := by
  rw [h.setBits_eq]
  exact Nat.le_trans List.countP_le_length (Nat.le_of_eq List.length_range)

/-! ## What came into a filter -/

/-- A filter is empty when none of its bits is set. -/
theorem isEmpty_iff : f.isEmpty = true ↔ ∀ p, bit f.words p = false := all_zero_iff

/-- A filter that is not empty has a set bit. -/
theorem exists_bit (h : ¬f.isEmpty = true) : ∃ p, bit f.words p = true := by
  by_contra hnone
  refine h (isEmpty_iff.mpr fun p => ?_)
  exact Bool.eq_false_iff.mpr fun hset => hnone ⟨p, hset⟩

/-- A filter with a set bit is not empty. -/
theorem not_isEmpty_of_bit {p : Nat} (h : bit f.words p = true) : ¬f.isEmpty = true := by
  intro hempty
  rw [isEmpty_iff.mp hempty p] at h
  cases h

/-- A hash sets a bit, as it has a probe. -/
theorem Confined.insertHash_bit (h : f.Confined) (hash : UInt64) :
    ∃ p, bit (f.insertHash hash).2.words p = true := by
  have hfirst : Probe.position hash f.bitCount 0 ∈ f.positions hash :=
    List.mem_map_of_mem (List.mem_range.mpr h.probes_pos)
  refine ⟨Probe.position hash f.bitCount 0, ?_⟩
  rw [h.bit_insertHash, decide_eq_true hfirst, Bool.true_or]

section Families

variable {ι : Type} [DecidableEq ι] {start filters : ι → BloomFilter} {past : List (Event ι)}
  {i : ι}

/-- That something came into the filter at a place, in a history that has the latest event first: a
hash was added, or a filter that was not empty was united into it, since it was last cleared, or
something had come into the filter that it was copied from. -/
inductive Filled (start : ι → BloomFilter) : List (Event ι) → ι → Prop where
  | inserted (past : List (Event ι)) (i : ι) (hash : UInt64) :
      Filled start (.insert i hash :: past) i
  | united {past : List (Event ι)} {i j : ι}
      (hunion : ((after start past i).union (after start past j)).1.isOk)
      (hother : ¬(after start past j).isEmpty = true) : Filled start (.union i j :: past) i
  | copied {past : List (Event ι)} {j : ι} (i : ι) (hother : Filled start past j) :
      Filled start (.clone i j :: past) i
  | kept {past : List (Event ι)} {i : ι} {event : Event ι} (hpast : Filled start past i)
      (hevent : ¬event.Resets i) : Filled start (event :: past) i

omit [DecidableEq ι] in
/-- An event that does not reset its filter clears no bit. -/
theorem Event.result_bit (h : ∀ i, (filters i).Shaped) {event : Event ι}
    (hevent : ¬event.Resets event.place) {p : Nat}
    (hset : bit (filters event.place).words p = true) :
    bit (event.result filters).words p = true := by
  cases event with
  | insert i hash =>
      have hkept : bit (filters i).words p = true := hset
      rw [Event.result, (h i).bit_insertHash, hkept, Bool.or_true]
  | union i j =>
      have hkept : bit (filters i).words p = true := hset
      obtain ⟨u, hu⟩ | ⟨e, he⟩ := union_cases (filters i) (filters j)
      · rw [Event.result, hu, (h i).bit_union (h j) hu, hkept, Bool.true_or]
      · rw [Event.result, he]
        exact hkept
  | clone i j => exact absurd rfl hevent
  | clear i => exact absurd rfl hevent

/-- What came into a filter left a bit in it. -/
theorem Filled.exists_bit (h : Filled start past i) (hstart : ∀ i, (start i).Confined) :
    ∃ p, bit (after start past i).words p = true := by
  have hconfined := confined_stable.after hstart
  -- along the reason why something came in
  induction h with
  | inserted past i hash =>
      rw [after, Event.apply, Event.place, Function.update_self]
      exact (hconfined past i).insertHash_bit hash
  | @united past i j hunion hother =>
      obtain ⟨u, hu⟩ := exists_union hunion
      obtain ⟨p, hp⟩ := BloomFilter.exists_bit hother
      refine ⟨p, ?_⟩
      rw [after, Event.apply, Event.place, Function.update_self, Event.result, hu]
      show bit u.words p = true
      rw [(hconfined past i).bit_union (hconfined past j).toShaped hu, hp, Bool.or_true]
  | copied i hother ih =>
      rw [after, Event.apply, Event.place, Function.update_self]
      exact ih
  | @kept past i event hpast hevent ih =>
      obtain ⟨p, hp⟩ := ih
      refine ⟨p, ?_⟩
      rw [after, Event.apply, Function.update_apply]
      split
      · rename_i hplace
        subst hplace
        exact event.result_bit (fun j => (hconfined past j).toShaped) hevent hp
      · exact hp

/-- A bit in a filter that was empty at the start came in. -/
theorem filled_of_bit (hstart : ∀ i, (start i).Confined)
    (hempty : ∀ i p, bit (start i).words p = false) {p : Nat}
    (h : bit (after start past i).words p = true) : Filled start past i := by
  have hconfined := confined_stable.after hstart
  induction past generalizing i with
  | nil =>
      have hclear : bit (after start [] i).words p = false := hempty i p
      rw [hclear] at h
      cases h
  | cons event past ih =>
      rw [after, Event.apply, Function.update_apply] at h
      split at h
      · rename_i hplace
        subst hplace
        cases event with
        | insert i hash => exact .inserted past i hash
        | union i j =>
            obtain ⟨u, hu⟩ | ⟨e, he⟩ := union_cases (after start past i) (after start past j)
            · rw [Event.result, hu, (hconfined past i).bit_union (hconfined past j).toShaped hu,
                Bool.or_eq_true] at h
              rcases h with hown | hother
              · exact .kept (ih hown) id
              · exact .united (by rw [hu]; rfl) (not_isEmpty_of_bit hother)
            · rw [Event.result, he] at h
              exact .kept (ih h) id
        | clone i j => exact .copied i (ih h)
        | clear i =>
            have hclear : bit (Event.result (after start past) (.clear i)).words p = false :=
              bit_replicate_zero _ p
            rw [hclear] at h
            cases h
      · rename_i hplace
        refine .kept (ih h) fun hreset => ?_
        cases event with
        | insert | union => exact hreset
        | clone | clear => exact hplace hreset.symm

/-- A filter is empty exactly as long as nothing came into it. -/
theorem isEmpty_iff_not_filled (hstart : ∀ i, (start i).Confined)
    (hempty : ∀ i p, bit (start i).words p = false) :
    (after start past i).isEmpty = true ↔ ¬Filled start past i := by
  constructor
  · intro hnone hfilled
    obtain ⟨p, hp⟩ := hfilled.exists_bit hstart
    exact not_isEmpty_of_bit hp hnone
  · intro hunfilled
    by_contra hset
    obtain ⟨p, hp⟩ := exists_bit hset
    exact hunfilled (filled_of_bit hstart hempty hp)

/-! ## Every filter -/

/-- What a filter answers is what its bits say, and all its bits have positions. -/
structure Exact (f : BloomFilter) : Prop where
  reports : ∀ hash, (f.insertHash hash).1 = true ↔ f.containsHash hash = false
  adds : ∀ hash, (f.insertHash hash).2.containsHash hash = true
  keeps : ∀ hash other, f.containsHash other = true →
    (f.insertHash hash).2.containsHash other = true
  clear_past : ∀ p, f.bitCount ≤ p → bit f.words p = false
  setBits_eq : f.setBits = (List.range f.bitCount).countP (bit f.words)
  setBits_le : f.setBits ≤ f.bitCount

/-- A filter that sets no bit past the last position answers what its bits say. -/
theorem Confined.exact (h : f.Confined) : f.Exact where
  reports hash := by rw [insertHash_changed, Bool.not_eq_true']
  adds := h.containsHash_insertHash_self
  keeps hash other hmember := h.containsHash_insertHash hmember hash
  clear_past := h.clear_past
  setBits_eq := h.setBits_eq
  setBits_le := h.setBits_le

/-- Whatever the shapes of the filters of a family and whatever happens to them, each answers
exactly what its bits say, and is empty exactly if nothing came into it since it was last
cleared. -/
theorem reachable_exact (options : ι → BloomOptions) (shapes : ι → Shape)
    (past : List (Event ι)) (i : ι) :
    (after (fresh options shapes) past i).Exact ∧
      ((after (fresh options shapes) past i).isEmpty = true ↔
        ¬Filled (fresh options shapes) past i) := by
  have hstart (j : ι) : (fresh options shapes j).Confined := ofShape_confined _ (shapes j)
  have hempty (j : ι) (p : Nat) : bit (fresh options shapes j).words p = false :=
    bit_replicate_zero _ p
  exact ⟨(confined_stable.after hstart past i).exact, isEmpty_iff_not_filled hstart hempty⟩

end Families

/-- All probes of all hashes meet in a filter with a single bit. Once a filter with one hash was
united into it, every other hash passes for a member, and adding it changes nothing. -/
theorem single_bit_exact :
    let start := fresh (fun _ => .standard) fun _ : Fin 2 => ⟨1, 3, by decide, by decide⟩
    let f := after start [.union 0 1, .insert 1 7] 0
    f.containsHash 7 = true ∧ (f.insertHash 5).2.containsHash 7 = true ∧
      f.containsHash 5 = true ∧ (f.insertHash 5).1 = false ∧ f.isEmpty = false := by
  intro start f
  obtain ⟨hexact, hempty⟩ := reachable_exact (fun _ => .standard)
    (fun _ : Fin 2 => ⟨1, 3, by decide, by decide⟩) [.union 0 1, .insert 1 7] 0
  have hmember : f.containsHash 7 = true := by decide +kernel
  have hpasses : f.containsHash 5 = true := by decide +kernel
  have hfilled : Filled start [.union 0 1, .insert 1 7] 0 := .united rfl (by decide +kernel)
  refine ⟨hmember, hexact.keeps 5 7 hmember, hpasses, ?_, ?_⟩
  · refine Bool.eq_false_iff.mpr fun hreported => ?_
    have habsent : f.containsHash 5 = false := (hexact.reports 5).mp hreported
    rw [hpasses] at habsent
    cases habsent
  · exact Bool.eq_false_iff.mpr fun hnone => hempty.mp hnone hfilled

end BoundedTables.BloomFilter
