import BoundedTables.Table.Options

/-!
# Sizing a Bloom filter

A filter for `n` items at a false-positive rate `p` takes `⌈-n ln p / (ln 2)²⌉` bits and
`(bits / n) ln 2` probes per key, rounded. Both are computed in doubles, and for options that are
not valid as well; checking the options is a separate step.
-/

namespace BoundedTables

open Binary64 Decimal

/-- What a Bloom filter is sized from. -/
structure BloomOptions where
  expectedItems : Nat
  falsePositiveRate : Float
  /-- The number of probes per key, when it is not derived. -/
  hashFunctions : Option Nat

namespace BloomOptions

/-- The largest number of expected items; a larger one is lowered to it. -/
def maxExpectedItems : Nat := Nat.pow 2 26

/-- The largest number of probes per key. -/
def maxHashFunctions : Nat := 20

/-- The natural logarithm of two. -/
def ln2 : Float := 0.6931471805599453

/-- The defaults: a hundred thousand items at one percent. -/
def standard : BloomOptions := ⟨100000, 0.01, none⟩

/-- Options with the number of expected items lowered to the largest one. -/
def capped (expectedItems : Nat) (falsePositiveRate : Float) (hashFunctions : Option Nat) :
    BloomOptions :=
  ⟨min expectedItems maxExpectedItems, falsePositiveRate, hashFunctions⟩

/-- Check the item count, the rate and the number of probes, in this order. -/
def check (o : BloomOptions) : Except TableError Unit := do
  if o.expectedItems = 0 then
    throw (.invalidArgument "expected_items" "must be greater than 0")
  checkRate o.falsePositiveRate
  match o.hashFunctions with
  | some k =>
      if k = 0 ∨ maxHashFunctions < k then
        throw (.invalidArgument "hash_functions"
          s!"must be between 1 and {natText maxHashFunctions}, got {natText k}")
  | none => pure ()

/-- The item count that sizes are computed from. -/
def items (o : BloomOptions) : Float := ofNat (max o.expectedItems 1)

/-- The number of bits; there is at least one. -/
def bitCount (o : BloomOptions) : Nat :=
  max (ceilToWord (-o.items * o.falsePositiveRate.log / (ln2 * ln2))) 1

/-- The number of probes per key. -/
def hashCount (o : BloomOptions) : Nat :=
  match o.hashFunctions with
  | some k => k
  | none =>
      let k := clamp maxHashFunctions (ofNat o.bitCount / o.items * ln2) round?
      max k 1

end BloomOptions

end BoundedTables
