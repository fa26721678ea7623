/-!
# Keys as bytes

A hash function sees a key as a sequence of bytes. Integers are laid out little-endian in their
width, text as UTF-8 closed by the byte 255, which occurs in no UTF-8 text, and lists after their
length, so that the bytes of keys of one kind tell them apart. `Key` gathers the kinds of keys
that one container may mix.
-/

namespace BoundedTables.Hashing

/-- Types whose values are laid out as bytes for hashing. -/
class ByteKey (κ : Type) where
  bytes : κ → List UInt8

/-- The lowest `count` bytes of a number, lowest first. -/
def littleEndian (count n : Nat) : List UInt8 :=
  (List.range count).map fun i => UInt8.ofNat (n / Nat.pow 256 i)

/-- Text as UTF-8, closed by a byte that no UTF-8 text contains. -/
def textBytes (s : String) : List UInt8 := s.toUTF8.toList ++ [255]

instance : ByteKey UInt64 := ⟨fun n => littleEndian 8 n.toNat⟩

instance : ByteKey String := ⟨textBytes⟩

/-- The widths of integer keys. -/
inductive Width where
  | w8
  | w16
  | w32
  | w64
  | w128
  deriving DecidableEq, Repr

/-- The number of bytes of a width. -/
def Width.size : Width → Nat
  | .w8 => 1
  | .w16 => 2
  | .w32 => 4
  | .w64 => 8
  | .w128 => 16

/-- A key of any kind. Keys of different kinds differ, also where their bytes agree. -/
inductive Key where
  | unsigned (width : Width) (value : Nat)
  | signed (width : Width) (value : Int)
  | bool (value : Bool)
  | char (value : Char)
  | text (value : String)
  | bytes (value : List UInt8)
  | unit
  | optional (value : Option Nat)
  | words (value : List Nat)
  | texts (value : List String)
  | pair (word : Nat) (text : String)
  deriving DecidableEq, Repr

/-- The bytes of a key. Negative integers are laid out in two's complement. -/
def Key.toBytes : Key → List UInt8
  | .unsigned width n => littleEndian width.size n
  | .signed width n => littleEndian width.size (n % (Nat.pow 256 width.size : Nat)).toNat
  | .bool b => [if b then 1 else 0]
  | .char c => littleEndian 4 c.toNat
  | .text s => textBytes s
  | .bytes bs => littleEndian 8 bs.length ++ bs
  | .unit => []
  | .optional none => littleEndian 8 0
  | .optional (some n) => littleEndian 8 1 ++ littleEndian 8 n
  | .words ns => littleEndian 8 ns.length ++ ns.flatMap (littleEndian 8)
  | .texts ss => littleEndian 8 ss.length ++ ss.flatMap textBytes
  | .pair n s => littleEndian 8 n ++ textBytes s

instance : ByteKey Key := ⟨Key.toBytes⟩

end BoundedTables.Hashing
