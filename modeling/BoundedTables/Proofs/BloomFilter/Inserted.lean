import BoundedTables.Proofs.BloomFilter

/-!
# Filters of lists of hashes

Adding hashes one after the other sets the bits of each and counts them all. As bits are only ever
set, the order of the hashes does not show in the filter (`Shaped.insertAll_perm`). A filter that is
cleared is the one it was before any hash (`Shaped.clear_eq`).
-/

namespace BoundedTables.BloomFilter

open Binary64

variable {f : BloomFilter} {hashes hashes' : List UInt64}

/-- Adding a hash changes the bits and the count. -/
theorem insertHash_eq (f : BloomFilter) (hash : UInt64) : (f.insertHash hash).2 =
    { f with words := (f.insertHash hash).2.words, items := min (f.items + 1) maxWord } := rfl

/-- Add hashes in order. -/
def insertAll (f : BloomFilter) (hashes : List UInt64) : BloomFilter :=
  hashes.foldl (fun f hash => (f.insertHash hash).2) f

@[simp] theorem insertAll_nil (f : BloomFilter) : f.insertAll [] = f := rfl

@[simp] theorem insertAll_cons (f : BloomFilter) (hash : UInt64) (hashes : List UInt64) :
    f.insertAll (hash :: hashes) = (f.insertHash hash).2.insertAll hashes := rfl

/-- Of several hashes, the last one is added last. -/
theorem insertAll_concat (f : BloomFilter) (hashes : List UInt64) (hash : UInt64) :
    f.insertAll (hashes ++ [hash]) = ((f.insertAll hashes).insertHash hash).2 :=
  List.foldl_append

/-- Adding hashes keeps a word for each bit. -/
theorem Shaped.insertAll (h : f.Shaped) (hashes : List UInt64) : (f.insertAll hashes).Shaped := by
  induction hashes generalizing f with
  | nil => exact h
  | cons hash hashes ih => exact ih (h.insertHash hash)

/-- Adding hashes keeps the options and the shape. -/
theorem insertAll_frame (f : BloomFilter) (hashes : List UInt64) :
    ∃ words items, f.insertAll hashes = { f with words, items } := by
  induction hashes generalizing f with
  | nil => exact ⟨f.words, f.items, rfl⟩
  | cons hash hashes ih =>
      obtain ⟨words, items, hrest⟩ := ih (f.insertHash hash).2
      exact ⟨words, items, hrest⟩

/-- Every hash is counted, as far as a word can count. -/
theorem items_insertAll (hitems : f.items ≤ maxWord) (hashes : List UInt64) :
    (f.insertAll hashes).items = min (f.items + hashes.length) maxWord := by
  induction hashes generalizing f with
  | nil => exact (Nat.min_eq_left hitems).symm
  | cons hash hashes ih =>
      have hfirst : (f.insertHash hash).2.items = min (f.items + 1) maxWord := rfl
      rw [insertAll_cons, ih (by omega), hfirst, List.length_cons]
      omega

/-- Two hashes set the same bits in either order. -/
theorem Shaped.insertHash_comm (h : f.Shaped) (hash other : UInt64) :
    ((f.insertHash hash).2.insertHash other).2 = ((f.insertHash other).2.insertHash hash).2 := by
  have hwords : ((f.insertHash hash).2.insertHash other).2.words =
      ((f.insertHash other).2.insertHash hash).2.words := by
    refine Words.ext_bit ?_ fun j => ?_
    · rw [((h.insertHash hash).insertHash other).words,
        ((h.insertHash other).insertHash hash).words]
      simp only [bitCount_insertHash]
    · rw [(h.insertHash hash).bit_insertHash, (h.insertHash other).bit_insertHash,
        h.bit_insertHash, h.bit_insertHash, positions_insertHash, positions_insertHash]
      exact Bool.or_left_comm ..
  rw [insertHash_eq (f.insertHash hash).2, insertHash_eq (f.insertHash other).2, hwords,
    insertHash_eq f hash, insertHash_eq f other]

/-- The order of the hashes does not matter. -/
theorem Shaped.insertAll_perm (h : f.Shaped) (hp : hashes.Perm hashes') :
    f.insertAll hashes = f.insertAll hashes' := by
  induction hp generalizing f with
  | nil => rfl
  | cons hash hp ih => exact ih (h.insertHash hash)
  | swap hash other hashes =>
      simp only [insertAll_cons]
      rw [h.insertHash_comm]
  | trans hp hp' ih ih' => exact (ih h).trans (ih' h)

/-- A cleared filter is an empty one of the same shape. -/
theorem Shaped.clear_eq (h : f.Shaped) :
    f.clear = ofShape f.options f.bitCount f.hashCount := by
  rw [BloomFilter.clear, h.words]
  rfl

end BoundedTables.BloomFilter
