import BoundedTables.Hashing.Function

/-!
# Comparers

Equality and hashing are handed to every container as a value. A comparer is lawful when its
equality is an equivalence that its hash respects; containers work with any comparer, but only
a lawful one makes them maps.
-/

namespace BoundedTables.Hashing

/-- Equality and hashing of keys, with a short name for diagnostics. -/
structure Comparer (κ : Type) where
  name : String
  hash : κ → UInt64
  equals : κ → κ → Bool

namespace Comparer

variable {κ : Type}

/-- The equality is an equivalence, and equal keys have equal hashes. -/
structure Lawful (c : Comparer κ) : Prop where
  refl : ∀ a, c.equals a a = true
  symm : ∀ a b, c.equals a b = true → c.equals b a = true
  trans : ∀ a b d, c.equals a b = true → c.equals b d = true → c.equals a d = true
  hash_eq : ∀ a b, c.equals a b = true → c.hash a = c.hash b

/-- Equality of values with the deterministic hash. -/
def natural [ByteHash] [ByteKey κ] [DecidableEq κ] : Comparer κ :=
  { name := "natural"
    hash := fingerprint
    equals := fun a b => decide (a = b) }

/-- Equality of values with the keyed hash, so that nobody without the seed can choose keys that
collide. -/
def secure [ByteKey κ] [DecidableEq κ] (seed : Seed) : Comparer κ :=
  { name := "secure"
    hash := fun key => sipHash seed (ByteKey.bytes key)
    equals := fun a b => decide (a = b) }

/-- The masked hash of a key. -/
def code (c : Comparer κ) (key : κ) : UInt32 := maskHash (c.hash key)

end Comparer

end BoundedTables.Hashing
