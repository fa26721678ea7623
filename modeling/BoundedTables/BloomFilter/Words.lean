/-!
# Bits in words

An array of bits, packed sixty-four to a word. The last word may have bits that stand for no
position.
-/

namespace BoundedTables.Words

/-- The number of words that hold a number of bits. -/
def wordCount (bitCount : Nat) : Nat := (bitCount + 63) / 64

/-- Words without a set bit. -/
def zeros (bitCount : Nat) : Array UInt64 := Array.replicate (wordCount bitCount) 0

/-- The bit of a position within its word. -/
def mask (i : Nat) : UInt64 := 1 <<< UInt64.ofNat (i % 64)

/-- Whether the bit at a position is set. -/
def bit (words : Array UInt64) (i : Nat) : Bool := words.getD (i / 64) 0 &&& mask i != 0

/-- Set the bit at a position. -/
def setBit (words : Array UInt64) (i : Nat) : Array UInt64 :=
  words.setIfInBounds (i / 64) (words.getD (i / 64) 0 ||| mask i)

/-- The bits that are set in either of two arrays. -/
def or (words others : Array UInt64) : Array UInt64 := words.zipWith (· ||| ·) others

/-- The number of set bits of one word. -/
def ones (word : UInt64) : Nat := (List.range 64).countP fun i => word &&& mask i != 0

/-- The number of set bits. -/
def setBits (words : Array UInt64) : Nat := words.foldl (fun n word => n + ones word) 0

end BoundedTables.Words
