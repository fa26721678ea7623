import BoundedTables.Hashing.Key

/-!
# Hash functions

The natural comparer and the fingerprint of the Bloom filter use a deterministic hash of bytes,
which is FNV-1a unless another one is given. SipHash with one compression round and three
finalization rounds is the keyed hash of the secure comparer. Containers fold the 64 bits of a hash
into 31.
-/

namespace BoundedTables.Hashing

/-- A deterministic 64-bit hash of sequences of bytes. -/
class ByteHash where
  hash : List UInt8 → UInt64

/-- The deterministic hash of a key. -/
def fingerprint {κ : Type} [ByteHash] [ByteKey κ] (key : κ) : UInt64 :=
  ByteHash.hash (ByteKey.bytes key)

/-- The 64-bit FNV-1a hash of a sequence of bytes. -/
def fnv1a (bytes : List UInt8) : UInt64 :=
  bytes.foldl (fun h b => (h ^^^ b.toUInt64) * 0x100000001b3) 0xcbf29ce484222325

/-- Bytes are hashed with FNV-1a where nothing else is said. -/
instance fnv : ByteHash := ⟨fnv1a⟩

/-- The two secret words of a keyed hash. -/
structure Seed where
  first : UInt64
  second : UInt64
  deriving DecidableEq, Repr, Inhabited

/-- The four words of SipHash state. -/
structure SipState where
  v0 : UInt64
  v1 : UInt64
  v2 : UInt64
  v3 : UInt64

/-- Rotate a word to the left. -/
def rotateLeft (x : UInt64) (n : UInt64) : UInt64 := (x <<< n) ||| (x >>> (64 - n))

namespace SipState

/-- The state a seed starts from. -/
def start (seed : Seed) : SipState :=
  { v0 := seed.first ^^^ 0x736f6d6570736575
    v1 := seed.second ^^^ 0x646f72616e646f6d
    v2 := seed.first ^^^ 0x6c7967656e657261
    v3 := seed.second ^^^ 0x7465646279746573 }

/-- One mixing round. -/
def round (s : SipState) : SipState :=
  let v0 := s.v0 + s.v1
  let v1 := rotateLeft s.v1 13 ^^^ v0
  let v0 := rotateLeft v0 32
  let v2 := s.v2 + s.v3
  let v3 := rotateLeft s.v3 16 ^^^ v2
  let v0 := v0 + v3
  let v3 := rotateLeft v3 21 ^^^ v0
  let v2 := v2 + v1
  let v1 := rotateLeft v1 17 ^^^ v2
  let v2 := rotateLeft v2 32
  ⟨v0, v1, v2, v3⟩

/-- Take in one word. -/
def absorb (s : SipState) (word : UInt64) : SipState :=
  let s := round { s with v3 := s.v3 ^^^ word }
  { s with v0 := s.v0 ^^^ word }

/-- Turn the state into a hash. -/
def finish (s : SipState) : UInt64 :=
  let s := round (round (round { s with v2 := s.v2 ^^^ 0xff }))
  s.v0 ^^^ s.v1 ^^^ s.v2 ^^^ s.v3

end SipState

/-- The word that up to eight bytes spell, lowest first. -/
def wordOfBytes (bytes : List UInt8) : UInt64 :=
  bytes.foldr (fun b w => (w <<< 8) ||| b.toUInt64) 0

/-- Take in all whole words of a sequence of bytes, and then what is left with the length in the
top byte. -/
def sipAbsorb (length : Nat) (s : SipState) : List UInt8 → SipState
  | a :: b :: c :: d :: e :: f :: g :: h :: rest =>
      sipAbsorb length (s.absorb (wordOfBytes [a, b, c, d, e, f, g, h])) rest
  | rest => s.absorb (wordOfBytes rest ||| (UInt64.ofNat (length % 256) <<< 56))

/-- The SipHash of a sequence of bytes under a seed. -/
def sipHash (seed : Seed) (bytes : List UInt8) : UInt64 :=
  (sipAbsorb bytes.length (SipState.start seed) bytes).finish

/-- The 31 bits of a hash that containers use: the high half is folded into the low half, and the
top bit is dropped. -/
def maskHash (hash : UInt64) : UInt32 := (hash ^^^ (hash >>> 32)).toUInt32 &&& 0x7FFFFFFF

end BoundedTables.Hashing
