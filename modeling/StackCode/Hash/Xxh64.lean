/-!
# The xxh64 digest

The 64-bit xxHash of a byte string, with seed zero. Long inputs are folded in stripes of four
little-endian words through four accumulators; what is left over goes through `tail` word by word,
then by half words and bytes, and `avalanche` spreads the result over all bits.
-/

namespace StackCode.Xxh64

/-- The five odd multipliers of the digest. -/
def prime1 : UInt64 := 0x9E3779B185EBCA87

@[inherit_doc prime1] def prime2 : UInt64 := 0xC2B2AE3D27D4EB4F

@[inherit_doc prime1] def prime3 : UInt64 := 0x165667B19E3779F9

@[inherit_doc prime1] def prime4 : UInt64 := 0x85EBCA77C2B2AE63

@[inherit_doc prime1] def prime5 : UInt64 := 0x27D4EB2F165667C5

/-- Rotation to the left by `n` places, for `0 < n < 64`. -/
def rotateLeft (x n : UInt64) : UInt64 := (x <<< n) ||| (x >>> (64 - n))

/-- The number whose little-endian bytes are given. -/
def littleEndian : List UInt8 → UInt64
  | [] => 0
  | b :: bs => b.toUInt64 ||| (littleEndian bs <<< 8)

/-- One accumulator absorbs one word. -/
def round (acc word : UInt64) : UInt64 := rotateLeft (acc + word * prime2) 31 * prime1

/-- The four accumulators of the striped part. -/
structure Lanes where
  a : UInt64
  b : UInt64
  c : UInt64
  d : UInt64

/-- The accumulators before the first stripe. -/
def Lanes.start : Lanes := ⟨prime1 + prime2, prime2, 0, 0 - prime1⟩

/-- Absorb the first 32 bytes of `bytes`, one word per accumulator. -/
def Lanes.stripe (l : Lanes) (bytes : List UInt8) : Lanes where
  a := round l.a (littleEndian (bytes.take 8))
  b := round l.b (littleEndian ((bytes.drop 8).take 8))
  c := round l.c (littleEndian ((bytes.drop 16).take 8))
  d := round l.d (littleEndian ((bytes.drop 24).take 8))

/-- Absorb `n` stripes; the rest of the bytes is returned. -/
def Lanes.stripes : Nat → Lanes → List UInt8 → Lanes × List UInt8
  | 0, l, bytes => (l, bytes)
  | n + 1, l, bytes => Lanes.stripes n (l.stripe bytes) (bytes.drop 32)

/-- Fold one accumulator into the digest. -/
def mergeRound (h acc : UInt64) : UInt64 := (h ^^^ round 0 acc) * prime1 + prime4

/-- The digest of the striped part. -/
def Lanes.merge (l : Lanes) : UInt64 :=
  let h := rotateLeft l.a 1 + rotateLeft l.b 7 + rotateLeft l.c 12 + rotateLeft l.d 18
  mergeRound (mergeRound (mergeRound (mergeRound h l.a) l.b) l.c) l.d

/-- Absorb single bytes. -/
def tailBytes : UInt64 → List UInt8 → UInt64
  | h, [] => h
  | h, b :: bs => tailBytes (rotateLeft (h ^^^ (b.toUInt64 * prime5)) 11 * prime1) bs

/-- Absorb a half word if one is left, then bytes. -/
def tailHalf (h : UInt64) : List UInt8 → UInt64
  | b0 :: b1 :: b2 :: b3 :: bs =>
    tailBytes
      (rotateLeft (h ^^^ (littleEndian [b0, b1, b2, b3] * prime1)) 23 * prime2 + prime3) bs
  | bs => tailBytes h bs

/-- Absorb what is left after the stripes: whole words, a half word, bytes. -/
def tail : UInt64 → List UInt8 → UInt64
  | h, b0 :: b1 :: b2 :: b3 :: b4 :: b5 :: b6 :: b7 :: bs =>
    let word := littleEndian [b0, b1, b2, b3, b4, b5, b6, b7]
    tail (rotateLeft (h ^^^ round 0 word) 27 * prime1 + prime4) bs
  | h, bs => tailHalf h bs

/-- The final mixing of all bits. -/
def avalanche (h : UInt64) : UInt64 :=
  let h := (h ^^^ (h >>> 33)) * prime2
  let h := (h ^^^ (h >>> 29)) * prime3
  h ^^^ (h >>> 32)

end StackCode.Xxh64

namespace StackCode

open Xxh64 in
/-- The xxh64 digest, with seed zero, of a list of bytes. -/
def xxh64 (bytes : List UInt8) : UInt64 :=
  let n := bytes.length
  let (h, rest) :=
    if n < 32 then (prime5, bytes)
    else
      let (lanes, rest) := Lanes.stripes (n / 32) Lanes.start bytes
      (lanes.merge, rest)
  avalanche (tail (h + n.toUInt64) rest)

/-- The digest of the UTF-8 bytes of a text. -/
def xxh64Text (s : String) : UInt64 := xxh64 s.toUTF8.data.toList

end StackCode
