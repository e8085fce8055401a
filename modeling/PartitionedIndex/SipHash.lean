/-! # SipHash

The keyed hash of a byte string with one mixing round per eight-byte word and three at the end.
The bytes are cut into little-endian words; the last word carries the bytes left over and, in its
top byte, the length of the text. -/

namespace PartitionedIndex

/-- The four words a hash is computed in. -/
structure SipHash where
  v0 : UInt64
  v1 : UInt64
  v2 : UInt64
  v3 : UInt64
  deriving DecidableEq, Repr

namespace SipHash

/-- Turns a word left by `n` bits, `n` between one and sixty-three. -/
def rotate (x : UInt64) (n : UInt64) : UInt64 :=
  (x <<< n) ||| (x >>> (64 - n))

/-- The state before any word, for a key of two words. -/
def seeded (k0 k1 : UInt64) : SipHash where
  v0 := k0 ^^^ 0x736f6d6570736575
  v1 := k1 ^^^ 0x646f72616e646f6d
  v2 := k0 ^^^ 0x6c7967656e657261
  v3 := k1 ^^^ 0x7465646279746573

def round (s : SipHash) : SipHash :=
  let v0 := s.v0 + s.v1
  let v1 := rotate s.v1 13 ^^^ v0
  let v0 := rotate v0 32
  let v2 := s.v2 + s.v3
  let v3 := rotate s.v3 16 ^^^ v2
  let v0 := v0 + v3
  let v3 := rotate v3 21 ^^^ v0
  let v2 := v2 + v1
  let v1 := rotate v1 17 ^^^ v2
  let v2 := rotate v2 32
  ⟨v0, v1, v2, v3⟩

def absorb (s : SipHash) (word : UInt64) : SipHash :=
  let s := round { s with v3 := s.v3 ^^^ word }
  { s with v0 := s.v0 ^^^ word }

def digest (s : SipHash) : UInt64 :=
  let s := round (round (round { s with v2 := s.v2 ^^^ 0xff }))
  s.v0 ^^^ s.v1 ^^^ s.v2 ^^^ s.v3

/-- The little-endian word of up to eight bytes. -/
def word (bytes : List UInt8) : UInt64 :=
  bytes.foldr (fun b w => w <<< 8 ||| b.toUInt64) 0

/-- Absorbs the bytes; `count` is the length of the whole text. -/
def absorbAll (count : Nat) (s : SipHash) : List UInt8 → SipHash
  | b0 :: b1 :: b2 :: b3 :: b4 :: b5 :: b6 :: b7 :: rest =>
    absorbAll count (s.absorb (word [b0, b1, b2, b3, b4, b5, b6, b7])) rest
  | rest => s.absorb (word rest ||| (UInt64.ofNat count <<< 56))

/-- The hash of a byte string under a key of two words. -/
def hash (k0 k1 : UInt64) (bytes : List UInt8) : UInt64 :=
  ((seeded k0 k1).absorbAll bytes.length bytes).digest

/-- The bytes of a number of `width` bytes, the lowest first. -/
def littleEndian (width n : Nat) : List UInt8 :=
  (List.range width).map fun i => UInt8.ofNat (n >>> (8 * i))

end SipHash

end PartitionedIndex
