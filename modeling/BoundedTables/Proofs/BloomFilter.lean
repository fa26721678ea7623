import BoundedTables.BloomFilter
import BoundedTables.Proofs.BloomFilter.Words

/-!
# Members of a Bloom filter

Adding a hash sets the bits at its positions and leaves every other bit alone
(`bit_insertHash`), and uniting two filters of one shape takes the bits of both (`bit_union`). A
hash is a member when all of its bits are set, so a hash that was added is a member and stays one.
All of this needs a filter with at least one bit and a word for each (`Shaped`), which every built
filter is.
-/

namespace BoundedTables.BloomFilter

open Words

variable {f g u : BloomFilter} {hash other : UInt64}

/-- There is a bit, and a word for each. -/
structure Shaped (f : BloomFilter) : Prop where
  bits_pos : 0 < f.bitCount
  words : f.words.size = wordCount f.bitCount

/-! ## Setting bits -/

@[simp] theorem size_setBit_fst (state : Array UInt64 × Bool) (i : Nat) :
    (setBit state i).1.size = state.1.size := by
  obtain ⟨words, changed⟩ := state
  simp only [setBit]
  split
  · rfl
  · exact Words.size_setBit words i

/-- Setting a bit sets that bit and no other. -/
theorem bit_setBit_fst {state : Array UInt64 × Bool} {i : Nat} (hi : i / 64 < state.1.size)
    (j : Nat) : bit (setBit state i).1 j = (decide (j = i) || bit state.1 j) := by
  obtain ⟨words, changed⟩ := state
  simp only [setBit]
  split
  · rename_i hset
    by_cases hj : j = i
    · subst hj
      simp [hset]
    · rw [decide_eq_false hj, Bool.false_or]
  · exact Words.bit_setBit hi j

/-- Setting bits keeps the number of words. -/
theorem size_foldl_setBit (positions : List Nat) (state : Array UInt64 × Bool) :
    (positions.foldl setBit state).1.size = state.1.size := by
  induction positions generalizing state with
  | nil => rfl
  | cons p positions ih => rw [List.foldl_cons, ih, size_setBit_fst]

/-- Setting several bits sets these bits and no other. -/
theorem bit_foldl_setBit {positions : List Nat} {state : Array UInt64 × Bool}
    (h : ∀ p ∈ positions, p / 64 < state.1.size) (j : Nat) :
    bit (positions.foldl setBit state).1 j = (decide (j ∈ positions) || bit state.1 j) := by
  induction positions generalizing state with
  | nil => simp
  | cons p positions ih =>
      have hp : p / 64 < state.1.size := h p List.mem_cons_self
      have hrest : ∀ q ∈ positions, q / 64 < (setBit state p).1.size := fun q hq => by
        rw [size_setBit_fst]
        exact h q (List.mem_cons_of_mem p hq)
      rw [List.foldl_cons, ih hrest, bit_setBit_fst hp, ← Bool.or_assoc, Bool.or_comm (decide _)]
      simp

/-! ## Adding a hash -/

@[simp] theorem bitCount_insertHash (f : BloomFilter) (hash : UInt64) :
    (f.insertHash hash).2.bitCount = f.bitCount := rfl

@[simp] theorem hashCount_insertHash (f : BloomFilter) (hash : UInt64) :
    (f.insertHash hash).2.hashCount = f.hashCount := rfl

@[simp] theorem positions_insertHash (f : BloomFilter) (hash other : UInt64) :
    (f.insertHash hash).2.positions other = f.positions other := rfl

/-- Adding a hash keeps a word for each bit. -/
theorem Shaped.insertHash (h : f.Shaped) (hash : UInt64) : (f.insertHash hash).2.Shaped where
  bits_pos := h.bits_pos
  words := (size_foldl_setBit _ _).trans h.words

/-- Every position of a hash is the place of a bit. -/
theorem Shaped.positions_lt (h : f.Shaped) {p : Nat} (hp : p ∈ f.positions hash) :
    p < f.bitCount := by
  obtain ⟨i, -, rfl⟩ := List.mem_map.mp hp
  exact Nat.mod_lt _ h.bits_pos

/-- Adding a hash sets its bits and no other. -/
theorem Shaped.bit_insertHash (h : f.Shaped) (hash : UInt64) (j : Nat) :
    bit (f.insertHash hash).2.words j = (decide (j ∈ f.positions hash) || bit f.words j) := by
  refine bit_foldl_setBit (fun p hp => ?_) j
  show p / 64 < f.words.size
  rw [h.words]
  exact div_lt_wordCount (h.positions_lt hp)

/-- A hash is a member when the bits at all of its positions are set. -/
theorem containsHash_iff :
    f.containsHash hash = true ↔ ∀ p ∈ f.positions hash, bit f.words p = true :=
  List.all_eq_true

/-- A hash that was just added is a member. -/
theorem Shaped.containsHash_insertHash_self (h : f.Shaped) (hash : UInt64) :
    (f.insertHash hash).2.containsHash hash = true := by
  refine containsHash_iff.mpr fun p hp => ?_
  rw [positions_insertHash] at hp
  rw [h.bit_insertHash, decide_eq_true hp, Bool.true_or]

/-- Adding a hash forgets no member. -/
theorem Shaped.containsHash_insertHash (h : f.Shaped) (hmember : f.containsHash other = true)
    (hash : UInt64) : (f.insertHash hash).2.containsHash other = true := by
  refine containsHash_iff.mpr fun p hp => ?_
  rw [positions_insertHash] at hp
  rw [h.bit_insertHash, containsHash_iff.mp hmember p hp, Bool.or_true]

/-! ## Uniting filters -/

/-- Filters are united when they have the same shape. -/
theorem union_eq_ok_iff : f.union g = (.ok (), u) ↔
    f.bitCount = g.bitCount ∧ f.hashCount = g.hashCount ∧
      u = { f with
        words := or f.words g.words
        items := min (f.items + g.items) Binary64.maxWord } := by
  unfold union
  split
  · rename_i hshape
    rw [Prod.mk.injEq, eq_comm (b := u)]
    exact ⟨fun h => ⟨hshape.1, hshape.2, h.2⟩, fun h => ⟨rfl, h.2.2⟩⟩
  · rename_i hshape
    rw [Prod.mk.injEq]
    simp only [reduceCtorEq, false_and, false_iff]
    exact fun h => hshape ⟨h.1, h.2.1⟩

/-- Two filters are united, or the first one is left as it is. -/
theorem union_cases (f g : BloomFilter) :
    (∃ u, f.union g = (.ok (), u)) ∨ ∃ e, f.union g = (.error e, f) := by
  unfold union
  split
  · exact .inl ⟨_, rfl⟩
  · exact .inr ⟨_, rfl⟩

/-- A union that is not refused has a filter. -/
theorem exists_union (h : (f.union g).1.isOk) : ∃ u, f.union g = (.ok (), u) := by
  obtain hu | ⟨e, he⟩ := union_cases f g
  · exact hu
  · rw [he] at h
    cases h

/-- A union has a word for each bit. -/
theorem Shaped.union (hf : f.Shaped) (hg : g.Shaped) (h : f.union g = (.ok (), u)) :
    u.Shaped := by
  obtain ⟨hbits, -, rfl⟩ := union_eq_ok_iff.mp h
  refine ⟨hf.bits_pos, ?_⟩
  show (or f.words g.words).size = _
  rw [size_or, hf.words, hg.words, ← hbits, Nat.min_self]

/-- A union has the bits of both filters. -/
theorem Shaped.bit_union (hf : f.Shaped) (hg : g.Shaped) (h : f.union g = (.ok (), u)) (j : Nat) :
    bit u.words j = (bit f.words j || bit g.words j) := by
  obtain ⟨hbits, -, rfl⟩ := union_eq_ok_iff.mp h
  exact bit_or (by rw [hf.words, hg.words, hbits]) j

/-- A member of either filter is one of their union. -/
theorem Shaped.containsHash_union (hf : f.Shaped) (hg : g.Shaped) (h : f.union g = (.ok (), u))
    (hmember : f.containsHash hash = true ∨ g.containsHash hash = true) :
    u.containsHash hash = true := by
  obtain ⟨hbits, hcount, hu⟩ := union_eq_ok_iff.mp h
  have hpositions : u.positions hash = f.positions hash := by rw [hu, positions, positions]
  have hpositions' : g.positions hash = f.positions hash := by
    rw [positions, positions, ← hbits, ← hcount]
  refine containsHash_iff.mpr fun p hp => ?_
  rw [hpositions] at hp
  rw [hf.bit_union hg h]
  rcases hmember with hmember | hmember
  · rw [containsHash_iff.mp hmember p hp, Bool.true_or]
  · rw [containsHash_iff.mp hmember p (hpositions' ▸ hp), Bool.or_true]

/-! ## Filters have bits -/

/-- An empty filter has a word for each bit. -/
theorem ofShape_shaped (o : BloomOptions) {bitCount : Nat} (h : 0 < bitCount) (hashCount : Nat) :
    (ofShape o bitCount hashCount).Shaped :=
  ⟨h, size_zeros bitCount⟩

/-- A built filter has a bit. -/
theorem build_shaped (o : BloomOptions) : (build o).Shaped :=
  ofShape_shaped o (Nat.lt_of_lt_of_le Nat.zero_lt_one (Nat.le_max_right _ 1)) _

/-- A cleared filter has as many words as before. -/
theorem Shaped.clear (h : f.Shaped) : f.clear.Shaped :=
  ⟨h.bits_pos, Array.size_replicate.trans h.words⟩

end BoundedTables.BloomFilter
