/-!
# Probe positions

The bits of a hash in a filter form a sequence that starts at one mix of the hash and advances by
another, odd one, in wrapping 64-bit arithmetic, reduced to the number of bits at the end. An odd
step never repeats a position at once when the number of bits is even.
-/

namespace BoundedTables.Probe

/-- Mix all bits of a word into each other. Every step can be undone, so no two words mix to the
same one. -/
def mix64 (h : UInt64) : UInt64 :=
  let h := h ^^^ (h >>> 33)
  let h := h * 0xff51afd7ed558ccd
  let h := h ^^^ (h >>> 33)
  let h := h * 0xc4ceb9fe1a85ec53
  h ^^^ (h >>> 33)

/-- The first position before reduction. -/
def start (hash : UInt64) : UInt64 := mix64 hash

/-- The distance between positions before reduction. -/
def step (hash : UInt64) : UInt64 := mix64 (hash ^^^ 0x9E3779B97F4A7C15) ||| 1

/-- The position of one probe among `bitCount` bits. -/
def position (hash : UInt64) (bitCount i : Nat) : Nat :=
  (start hash + UInt64.ofNat i * step hash).toNat % bitCount

/-- The positions of all probes of a hash. -/
def positions (hash : UInt64) (hashCount bitCount : Nat) : List Nat :=
  (List.range hashCount).map (position hash bitCount)

end BoundedTables.Probe
