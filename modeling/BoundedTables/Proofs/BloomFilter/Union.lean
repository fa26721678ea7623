import BoundedTables.Proofs.BloomFilter.Family
import BoundedTables.Proofs.BloomFilter.Inserted

/-!
# Unions of Bloom filters

The bits of a filter are the positions of the hashes that were added to it (`bit_ofHashes`), so
they depend on nothing but which hashes these are (`ofHashes_words`), and uniting the filters of two
lists gives that of the combined list (`union_ofHashes`). Filters are united when they have the same
shape and refused otherwise; on their bits, union is commutative, associative and idempotent
(`union_laws`).
-/

namespace BoundedTables.BloomFilter

open Words Binary64

variable {f g h : BloomFilter} {o o' : BloomOptions} {shape : Shape}
  {hashes hashes' combined : List UInt64}

/-! ## Filters of lists of hashes -/

/-- The filter of a shape that hashes were added to, in order. -/
def ofHashes (o : BloomOptions) (shape : Shape) (hashes : List UInt64) : BloomFilter :=
  (ofShape o shape.bitCount shape.hashCount).insertAll hashes

/-- Adding hashes sets the bits at their positions and no other. -/
theorem Shaped.bit_insertAll (h : f.Shaped) (hashes : List UInt64) (j : Nat) :
    bit (f.insertAll hashes).words j =
      (hashes.any (fun hash => decide (j ∈ f.positions hash)) || bit f.words j) := by
  induction hashes generalizing f with
  | nil => rfl
  | cons hash hashes ih =>
      rw [insertAll_cons, ih (h.insertHash hash), h.bit_insertHash, List.any_cons]
      simp only [positions_insertHash]
      rw [Bool.or_left_comm, Bool.or_assoc]
      rfl

/-- The bits of a filter are the positions of the hashes that were added to it. -/
theorem bit_ofHashes (o : BloomOptions) (shape : Shape) (hashes : List UInt64) (j : Nat) :
    bit (ofHashes o shape hashes).words j = true ↔
      ∃ hash ∈ hashes, j ∈ Probe.positions hash shape.hashCount shape.bitCount := by
  have hclear : bit (ofShape o shape.bitCount shape.hashCount).words j = false :=
    bit_replicate_zero _ j
  rw [ofHashes, (ofShape_shaped o shape.bits_pos _).bit_insertAll, hclear, Bool.or_false,
    List.any_eq_true]
  simp only [decide_eq_true_eq]
  rfl

/-- The filter of a list of hashes has a word for each bit. -/
theorem ofHashes_shaped (o : BloomOptions) (shape : Shape) (hashes : List UInt64) :
    (ofHashes o shape hashes).Shaped :=
  (ofShape_shaped o shape.bits_pos _).insertAll hashes

/-- Adding hashes changes the bits and the count of the insertions. -/
theorem ofHashes_eq (o : BloomOptions) (shape : Shape) (hashes : List UInt64) :
    ofHashes o shape hashes = ⟨o, (ofHashes o shape hashes).words, shape.bitCount, shape.hashCount,
      min hashes.length maxWord⟩ := by
  obtain ⟨words, items, hframe⟩ :=
    insertAll_frame (ofShape o shape.bitCount shape.hashCount) hashes
  have hitems := items_insertAll (f := ofShape o shape.bitCount shape.hashCount)
    (Nat.zero_le maxWord) hashes
  have hcount : items = min hashes.length maxWord := by
    rw [hframe] at hitems
    exact hitems.trans (congrArg (min · maxWord) (Nat.zero_add _))
  rw [ofHashes, hframe, hcount]
  rfl

/-- The bits depend on which hashes were added, and not on their order or number. -/
theorem ofHashes_words (o o' : BloomOptions) (hsame : ∀ hash, hash ∈ hashes ↔ hash ∈ hashes') :
    (ofHashes o shape hashes).words = (ofHashes o' shape hashes').words := by
  refine ext_bit ?_ fun j => ?_
  · have hwords := (ofHashes_shaped o shape hashes).words
    have hwords' := (ofHashes_shaped o' shape hashes').words
    rw [ofHashes_eq] at hwords hwords'
    exact hwords.trans hwords'.symm
  · rw [Bool.eq_iff_iff, bit_ofHashes, bit_ofHashes]
    simp only [hsame]

/-- The order of the hashes does not show in the filter. -/
theorem ofHashes_perm (o : BloomOptions) (shape : Shape) (hp : hashes.Perm hashes') :
    ofHashes o shape hashes = ofHashes o shape hashes' :=
  (ofShape_shaped o shape.bits_pos _).insertAll_perm hp

/-! ## Filters of one shape -/

/-- Two filters have as many bits and as many probes. -/
def SameShape (f g : BloomFilter) : Prop := f.bitCount = g.bitCount ∧ f.hashCount = g.hashCount

/-- Having the same shape is symmetric. -/
theorem SameShape.symm (hs : f.SameShape g) : g.SameShape f := ⟨hs.1.symm, hs.2.symm⟩

/-- Having the same shape is transitive. -/
theorem SameShape.trans (hs : f.SameShape g) (hs' : g.SameShape h) : f.SameShape h :=
  ⟨hs.1.trans hs'.1, hs.2.trans hs'.2⟩

/-- The union of two filters of one shape. -/
def united (f g : BloomFilter) : BloomFilter :=
  { f with words := or f.words g.words, items := min (f.items + g.items) maxWord }

/-- Filters of one shape are united. -/
theorem SameShape.union_eq (hs : f.SameShape g) : f.union g = (.ok (), f.united g) :=
  union_eq_ok_iff.mpr ⟨hs.1, hs.2, rfl⟩

/-- Filters of different shapes are not united. -/
theorem union_refused (hs : ¬f.SameShape g) : f.union g = (.error (.invalidArgument "other"
    s!"filter shape mismatch: {f.shapeText} vs {g.shapeText}"), f) := by
  have hdiffer : ¬(f.bitCount = g.bitCount ∧ f.hashCount = g.hashCount) := hs
  rw [union, if_neg hdiffer]

/-- A refused union leaves every filter of a family as it is. -/
theorem Event.apply_refused {ι : Type} [DecidableEq ι] {filters : ι → BloomFilter} {i j : ι}
    (hs : ¬(filters i).SameShape (filters j)) :
    (Event.union i j).apply filters = filters := by
  have hkept : (Event.union i j).result filters = filters i := by
    rw [Event.result, union_refused hs]
  rw [Event.apply, hkept]
  exact Function.update_eq_self i filters

/-! ## Unions -/

/-- Adding hashes keeps the shape. -/
theorem ofHashes_sameShape (o o' : BloomOptions) (shape : Shape) (hashes hashes' : List UInt64) :
    (ofHashes o shape hashes).SameShape (ofHashes o' shape hashes') := by
  rw [ofHashes_eq o, ofHashes_eq o']
  exact ⟨rfl, rfl⟩

/-- Uniting the filters of two lists gives the filter of the combined list. -/
theorem union_ofHashes (o o' : BloomOptions) (shape : Shape) (hashes hashes' : List UInt64) :
    (ofHashes o shape hashes).union (ofHashes o' shape hashes') =
      (.ok (), ofHashes o shape (hashes ++ hashes')) := by
  have hs := ofHashes_sameShape o o' shape hashes hashes'
  have hwords : ((ofHashes o shape hashes).united (ofHashes o' shape hashes')).words =
      (ofHashes o shape (hashes ++ hashes')).words := by
    refine ext_bit ?_ fun j => ?_
    · have hunited := (ofHashes_shaped o shape hashes).union (ofHashes_shaped o' shape hashes')
        hs.union_eq
      have hcombined := ofHashes_shaped o shape (hashes ++ hashes')
      rw [hunited.words, hcombined.words]
      exact congrArg wordCount (ofHashes_sameShape o o shape _ _).1
    · rw [(ofHashes_shaped o shape hashes).bit_union (ofHashes_shaped o' shape hashes')
        hs.union_eq, Bool.eq_iff_iff, Bool.or_eq_true]
      simp only [bit_ofHashes, List.mem_append, or_and_right, exists_or]
  have hitems : ((ofHashes o shape hashes).united (ofHashes o' shape hashes')).items =
      min (hashes ++ hashes').length maxWord := by
    rw [united, ofHashes_eq o, ofHashes_eq o', List.length_append]
    show min (min hashes.length maxWord + min hashes'.length maxWord) maxWord = _
    omega
  rw [hs.union_eq, ofHashes_eq o shape (hashes ++ hashes'), ← hwords, ← hitems]
  rw [united, ofHashes_eq o shape hashes]

/-- Uniting the filters of two lists gives the bits of any filter of that shape that both lists were
added to in any order, and adds up the counts. Union is commutative, associative and idempotent on
the bits of all filters of one shape, and refuses filters of different shapes and leaves them as
they are. -/
theorem union_laws (o o' o'' : BloomOptions) (shape : Shape) :
    (∀ hashes hashes' combined : List UInt64, combined.Perm (hashes ++ hashes') →
      ∃ u, (ofHashes o shape hashes).union (ofHashes o' shape hashes') = (.ok (), u) ∧
        u.words = (ofHashes o'' shape combined).words ∧
        u.items = min ((ofHashes o shape hashes).items + (ofHashes o' shape hashes').items)
          maxWord) ∧
    (∀ hashes hashes' : List UInt64, hashes.Perm hashes' →
      ofHashes o shape hashes = ofHashes o shape hashes') ∧
    (∀ f g : BloomFilter, f.SameShape g →
      ∃ u v, f.union g = (.ok (), u) ∧ g.union f = (.ok (), v) ∧ u.words = v.words) ∧
    (∀ f g h : BloomFilter, f.SameShape g → g.SameShape h →
      ∃ u v u' v', f.union g = (.ok (), u) ∧ u.union h = (.ok (), v) ∧ g.union h = (.ok (), u') ∧
        f.union u' = (.ok (), v') ∧ v.words = v'.words) ∧
    (∀ f : BloomFilter, ∃ u, f.union f = (.ok (), u) ∧ u.words = f.words) ∧
    ∀ (ι : Type) [DecidableEq ι] (filters : ι → BloomFilter) (i j : ι),
      (filters i).bitCount ≠ (filters j).bitCount ∨
        (filters i).hashCount ≠ (filters j).hashCount →
      (∃ reason, (filters i).union (filters j) =
          (.error (.invalidArgument "other" reason), filters i)) ∧
        (Event.union i j).apply filters = filters := by
  refine ⟨?_, fun _ _ => ofHashes_perm o shape, ?_, ?_, ?_, ?_⟩
  · intro hashes hashes' combined hcombined
    refine ⟨_, union_ofHashes o o' shape hashes hashes', ?_, ?_⟩
    · exact ofHashes_words o o'' fun hash => hcombined.mem_iff.symm
    · obtain ⟨-, -, hu⟩ := union_eq_ok_iff.mp (union_ofHashes o o' shape hashes hashes')
      rw [hu]
  · intro f g hs
    exact ⟨_, _, hs.union_eq, hs.symm.union_eq, Words.or_comm f.words g.words⟩
  · intro f g h hs hs'
    -- a union has the shape of its first filter
    have hleft : (f.united g).SameShape h := hs.trans hs'
    have hright : f.SameShape (g.united h) := hs
    exact ⟨_, _, _, _, hs.union_eq, hleft.union_eq, hs'.union_eq, hright.union_eq,
      Words.or_assoc f.words g.words h.words⟩
  · intro f
    have hs : f.SameShape f := ⟨rfl, rfl⟩
    exact ⟨_, hs.union_eq, Words.or_self f.words⟩
  · intro ι _ filters i j hdiffer
    have hs : ¬(filters i).SameShape (filters j) := by
      rintro ⟨hbits, hprobes⟩
      exact hdiffer.elim (absurd hbits) (absurd hprobes)
    exact ⟨⟨_, union_refused hs⟩, Event.apply_refused hs⟩

/-- Two filters that share a hash give the bits of one that got their hashes in another order, and
count the shared one twice. A filter with one more bit is not united. -/
theorem shared_hash_united :
    let shape : Shape := ⟨100, 3, by decide, by decide⟩
    let wider : Shape := ⟨101, 3, by decide, by decide⟩
    (∃ u, (ofHashes .standard shape [1, 2]).union (ofHashes .standard shape [2, 3]) = (.ok (), u) ∧
      u.words = (ofHashes .standard shape [3, 2, 2, 1]).words ∧ u.items = 4) ∧
    ∃ reason, (ofHashes .standard shape [1, 2]).union (ofHashes .standard wider [3]) =
      (.error (.invalidArgument "other" reason), ofHashes .standard shape [1, 2]) := by
  intro shape wider
  obtain ⟨hcombine, -, -, -, -, hrefuse⟩ := union_laws .standard .standard .standard shape
  obtain ⟨u, hu, hwords, hitems⟩ := hcombine [1, 2] [2, 3] [3, 2, 2, 1] (by decide)
  refine ⟨⟨u, hu, hwords, hitems.trans (by decide)⟩, ?_⟩
  have hdiffer : (ofHashes .standard shape [1, 2]).bitCount ≠
      (ofHashes .standard wider [3]).bitCount := by decide
  obtain ⟨hrefused, -⟩ := hrefuse Bool
    (fun second => if second then ofHashes .standard wider [3] else ofHashes .standard shape [1, 2])
    false true (.inl hdiffer)
  exact hrefused

end BoundedTables.BloomFilter
