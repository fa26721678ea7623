import BoundedTables.BloomFilter.Options
import BoundedTables.BloomFilter.Probe
import BoundedTables.BloomFilter.Words

/-!
# Bloom filters

A set of hashes that never forgets a member, and may take others for members. A hash is a member
when all of its probe positions are set, so adding hashes and uniting filters only ever adds
members.
-/

namespace BoundedTables

open Hashing Decimal Binary64

/-- An array of bits with the number of probes per hash. -/
structure BloomFilter where
  options : BloomOptions
  /-- The bits, packed into words. -/
  words : Array UInt64
  bitCount : Nat
  hashCount : Nat
  /-- The number of insertions, as far as a word can count. -/
  items : Nat

namespace BloomFilter

/-- An empty filter of a given shape. -/
def ofShape (o : BloomOptions) (bitCount hashCount : Nat) : BloomFilter :=
  { options := o
    words := Words.zeros bitCount
    bitCount
    hashCount
    items := 0 }

/-- An empty filter of the size that options ask for, whether or not they are valid. -/
def build (o : BloomOptions) : BloomFilter := ofShape o o.bitCount o.hashCount

/-- An empty filter from checked options. -/
def new (o : BloomOptions) : Except TableError BloomFilter := do
  o.check
  pure (build o)

/-- The probe positions of a hash. -/
def positions (f : BloomFilter) (hash : UInt64) : List Nat :=
  Probe.positions hash f.hashCount f.bitCount

/-- Set a bit, noting whether it was clear. -/
def setBit (state : Array UInt64 × Bool) (i : Nat) : Array UInt64 × Bool :=
  match state with
  | (words, changed) =>
      if Words.bit words i then (words, changed) else (Words.setBit words i, true)

/-- Add a hash. The answer tells whether a bit changed. -/
def insertHash (f : BloomFilter) (hash : UInt64) : Bool × BloomFilter :=
  match f with
  | ⟨options, words, bitCount, hashCount, items⟩ =>
      let positions := Probe.positions hash hashCount bitCount
      let (words, changed) := positions.foldl setBit (words, false)
      (changed, ⟨options, words, bitCount, hashCount, min (items + 1) maxWord⟩)

/-- Add a key. -/
def insert {κ : Type} [ByteHash] [ByteKey κ] (f : BloomFilter) (key : κ) :
    Bool × BloomFilter :=
  f.insertHash (fingerprint key)

/-- Whether all positions of a hash are set. -/
def containsHash (f : BloomFilter) (hash : UInt64) : Bool :=
  (f.positions hash).all (Words.bit f.words)

/-- Whether a key may have been added. -/
def contains {κ : Type} [ByteHash] [ByteKey κ] (f : BloomFilter) (key : κ) : Bool :=
  f.containsHash (fingerprint key)

/-- The bits and the probes of a filter in words. -/
def shapeText (f : BloomFilter) : String :=
  s!"{natText f.bitCount} bits/{natText f.hashCount} probes"

/-- Add all members of a filter, which has to be of the same shape. -/
def union (f other : BloomFilter) : Except TableError Unit × BloomFilter :=
  if f.bitCount = other.bitCount ∧ f.hashCount = other.hashCount then
    (.ok (),
      { f with
        words := Words.or f.words other.words
        items := min (f.items + other.items) maxWord })
  else
    (.error (.invalidArgument "other"
      s!"filter shape mismatch: {f.shapeText} vs {other.shapeText}"), f)

/-- The number of set bits. -/
def setBits (f : BloomFilter) : Nat := Words.setBits f.words

/-- The share of set bits. -/
def fillRatio (f : BloomFilter) : Float := ofNat f.setBits / ofNat f.bitCount

/-- The number of distinct items that the set bits suggest, `-(m / k) ln (1 - set / m)`. It is
infinite when every bit is set. -/
def estimatedItems (f : BloomFilter) : Float :=
  let m := ofNat f.bitCount
  let set := ofNat f.setBits
  if f.bitCount ≤ f.setBits then infinity false
  else -(m / ofNat f.hashCount) * (1.0 - set / m).log

/-- A power by repeated squaring, from the lowest bit of the exponent up. -/
def power (x : Float) (n : Nat) : Float :=
  go 1.0 x n
where
  /-- The product `result * x ^ n`. -/
  go (result x : Float) (n : Nat) : Float :=
    let result := if n % 2 = 1 then result * x else result
    if h : n / 2 = 0 then result else go result (x * x) (n / 2)
  termination_by n
  decreasing_by omega

/-- The chance that a hash never added passes for a member, `fill ^ k`. -/
def estimatedFalsePositiveRate (f : BloomFilter) : Float := power f.fillRatio f.hashCount

/-- Drop every member. -/
def clear (f : BloomFilter) : BloomFilter :=
  { f with words := Array.replicate f.words.size 0, items := 0 }

/-- Whether no bit is set. -/
def isEmpty (f : BloomFilter) : Bool := f.words.all (· == 0)

/-- The diagnostic text of a filter. -/
def describe (f : BloomFilter) : String :=
  "KonaBloomFilter \x7b bit_count: " ++ natText f.bitCount
    ++ ", hash_count: " ++ natText f.hashCount
    ++ ", items: " ++ natText f.items
    ++ ", fill_ratio: " ++ diagnosticText f.fillRatio ++ " \x7d"

end BloomFilter

end BoundedTables
