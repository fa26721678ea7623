import BoundedTables.BloomFilter.Words

/-!
# Reading packed bits

A write sets the bit at its position and no other (`bit_setBit`), and the union of two arrays has
the bits of both (`bit_or`). Two positions share a word when their quotients by sixty-four agree,
and are then told apart by their remainders. Counting the set bits word by word counts the positions
that are set (`setBits_eq`).
-/

namespace BoundedTables.Words

variable {words others : Array UInt64} {bitCount i : Nat}

/-- Every position has a word. -/
theorem div_lt_wordCount (h : i < bitCount) : i / 64 < wordCount bitCount := by
  unfold wordCount
  omega

/-- A mask has one bit, the one of its index within a word. -/
theorem toBitVec_mask (i : Nat) : (mask i).toBitVec = BitVec.twoPow 64 (i % 64) := by
  have hlt : i % 64 < 64 := Nat.mod_lt i (by decide)
  have hword : (UInt64.ofNat (i % 64)).toNat = i % 64 := by
    rw [UInt64.toNat_ofNat']
    exact Nat.mod_eq_of_lt (Nat.lt_trans hlt (by decide))
  have hshift : ((UInt64.ofNat (i % 64)).toBitVec % 64).toNat = i % 64 := by
    rw [BitVec.toNat_umod, UInt64.toNat_toBitVec, hword]
    exact Nat.mod_eq_of_lt hlt
  rw [mask, UInt64.toBitVec_shiftLeft, BitVec.shiftLeft_eq', hshift, BitVec.twoPow_eq]
  rfl

/-- A mask reads one bit of a word. -/
theorem and_mask_ne_zero (word : UInt64) (i : Nat) :
    (word &&& mask i != 0) = word.toBitVec.getLsbD (i % 64) := by
  have hlt : i % 64 < 64 := Nat.mod_lt i (by decide)
  have hzero : word &&& mask i = 0 ↔ word.toBitVec.getLsbD (i % 64) = false := by
    rw [← UInt64.toBitVec_inj, UInt64.toBitVec_and, toBitVec_mask, BitVec.and_twoPow]
    split
    · rename_i hset
      simp only [hset, reduceCtorEq, iff_false]
      intro htwo
      have hbit := congrArg (BitVec.getLsbD · (i % 64)) htwo
      simp [hlt] at hbit
    · rename_i hclear
      simp [hclear]
  cases hbit : word.toBitVec.getLsbD (i % 64) with
  | true =>
      rw [bne_iff_ne]
      intro h
      rw [hzero.mp h] at hbit
      cases hbit
  | false => rw [hzero.mpr hbit, bne_self_eq_false]

/-- A bit of the packed words is one of the bits of its word. -/
theorem bit_eq (words : Array UInt64) (i : Nat) :
    bit words i = (words.getD (i / 64) 0).toBitVec.getLsbD (i % 64) :=
  and_mask_ne_zero ..

@[simp] theorem size_setBit (words : Array UInt64) (i : Nat) :
    (setBit words i).size = words.size :=
  Array.size_setIfInBounds

/-- A write sets its bit and no other. -/
theorem bit_setBit (hi : i / 64 < words.size) (j : Nat) :
    bit (setBit words i) j = (decide (j = i) || bit words j) := by
  have hlt : j % 64 < 64 := Nat.mod_lt j (by decide)
  rw [bit_eq, bit_eq, setBit]
  simp only [Array.getD_eq_getD_getElem?, Array.getElem?_setIfInBounds]
  by_cases hword : i / 64 = j / 64
  · -- in the same word, positions agree when their remainders do
    have hsame : i % 64 = j % 64 ↔ j = i := by omega
    rw [if_pos hword, if_pos (hword ▸ hi), ← hword]
    simp only [Option.getD_some, UInt64.toBitVec_or, BitVec.getLsbD_or, toBitVec_mask,
      BitVec.getLsbD_twoPow, hsame, Nat.mod_lt i (by decide : 0 < 64), decide_true, Bool.true_and]
    rw [Bool.or_comm]
  · have hne : j ≠ i := fun h => hword (by rw [h])
    rw [if_neg hword, decide_eq_false hne, Bool.false_or]

@[simp] theorem size_or (words others : Array UInt64) :
    (or words others).size = min words.size others.size :=
  Array.size_zipWith

/-- A union has the bits of both arrays. -/
theorem bit_or (h : words.size = others.size) (i : Nat) :
    bit (or words others) i = (bit words i || bit others i) := by
  simp only [bit_eq, or, Array.getD_eq_getD_getElem?, Array.getElem?_zipWith]
  by_cases hi : i / 64 < words.size
  · have hi' : i / 64 < others.size := h ▸ hi
    simp [hi, hi']
  · have hi' : ¬i / 64 < others.size := h ▸ hi
    simp [hi, hi']

/-- The bits of two arrays come together in either order. -/
protected theorem or_comm (words others : Array UInt64) : or words others = or others words := by
  refine Array.ext (by rw [size_or, size_or, Nat.min_comm]) fun i hi hi' => ?_
  simp only [or, Array.getElem_zipWith]
  exact UInt64.or_comm _ _

/-- The bits of three arrays come together in either grouping. -/
protected theorem or_assoc (words others rest : Array UInt64) :
    or (or words others) rest = or words (or others rest) := by
  refine Array.ext (by simp only [size_or, Nat.min_assoc]) fun i hi hi' => ?_
  simp only [or, Array.getElem_zipWith]
  exact UInt64.or_assoc _ _ _

/-- An array gains no bits from itself. -/
protected theorem or_self (words : Array UInt64) : or words words = words := by
  refine Array.ext (by rw [size_or, Nat.min_self]) fun i hi hi' => ?_
  simp only [or, Array.getElem_zipWith]
  exact UInt64.or_self

@[simp] theorem size_zeros (bitCount : Nat) : (zeros bitCount).size = wordCount bitCount :=
  Array.size_replicate

/-- Arrays of one size are equal when all of their bits are. -/
theorem ext_bit (hsize : words.size = others.size) (h : ∀ i, bit words i = bit others i) :
    words = others := by
  refine Array.ext hsize fun k hk hk' => ?_
  rw [← UInt64.toBitVec_inj]
  refine BitVec.eq_of_getLsbD_eq fun b hb => ?_
  have hquotient : (64 * k + b) / 64 = k := by omega
  have hrest : (64 * k + b) % 64 = b := by omega
  have hbit := h (64 * k + b)
  rw [bit_eq, bit_eq, hquotient, hrest] at hbit
  simpa [Array.getD_eq_getD_getElem?, hk, hk'] using hbit

/-! ## Counting bits -/

/-- A word starts at a multiple of sixty-four, and the masks of its bits are those of the first. -/
theorem mask_block (k i : Nat) : mask (64 * k + i) = mask i := by
  rw [mask, Nat.mul_add_mod, mask]

/-- The bits of one word stand in a block of 64. -/
theorem bit_block {k : Nat} (hk : k < words.size) (hi : i < 64) :
    bit words (64 * k + i) = (words[k] &&& mask i != 0) := by
  have hquotient : (64 * k + i) / 64 = k := by omega
  rw [bit, hquotient, mask_block, Array.getD_eq_getD_getElem?, Array.getElem?_eq_getElem hk,
    Option.getD_some]

/-- The set bits are counted position by position. -/
theorem setBits_eq (words : Array UInt64) :
    setBits words = (List.range (64 * words.size)).countP (bit words) := by
  -- after `k` words, those at their positions are counted
  refine Array.foldl_induction
    (fun k count => count = (List.range (64 * k)).countP (bit words)) rfl ?_
  intro k count hcount
  have hones : ones words[k] = (List.range 64).countP (bit words ∘ (64 * k.val + ·)) := by
    refine List.countP_congr fun i hi => ?_
    rw [Function.comp_apply, bit_block k.isLt (List.mem_range.mp hi)]
    rfl
  show count + ones words[k] = (List.range (64 * k.val + 64)).countP (bit words)
  rw [hcount, hones, List.range_add, List.countP_append, List.countP_map]

/-- Words that are zero have no set bit. -/
@[simp] theorem bit_replicate_zero (n i : Nat) : bit (Array.replicate n 0) i = false := by
  rw [bit, Array.getD_eq_getD_getElem?, Array.getElem?_replicate]
  by_cases hi : i / 64 < n
  · simp [hi]
  · simp [hi]

/-- All words are zero when no bit is set. -/
theorem all_zero_iff : words.all (· == 0) = true ↔ ∀ i, bit words i = false := by
  rw [Array.all_eq_true]
  constructor
  · intro hzero i
    rw [bit, Array.getD_eq_getD_getElem?]
    by_cases hi : i / 64 < words.size
    · have hword : words[i / 64] = 0 := by simpa using hzero (i / 64) hi
      simp [hi, hword]
    · simp [hi]
  · intro hclear k hk
    have hzeros : words = Array.replicate words.size 0 := by
      refine ext_bit Array.size_replicate.symm fun i => ?_
      rw [hclear, bit_replicate_zero]
    rw [beq_iff_eq, getElem_congr_coll hzeros, Array.getElem_replicate]

end BoundedTables.Words
