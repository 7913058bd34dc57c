/-!
# The XXH64 digest

A 64-bit digest of a list of bytes.  Four accumulators absorb the input in stripes of four
little-endian words.  What is left over, at most three words and seven bytes, is absorbed by the
joined accumulators, and a last mixing step spreads every bit over the result.  All arithmetic is
modulo `2 ^ 64`.
-/

namespace BlockCompiler.Xxh64

def prime1 : UInt64 := 0x9E3779B185EBCA87
def prime2 : UInt64 := 0xC2B2AE3D27D4EB4F
def prime3 : UInt64 := 0x165667B19E3779F9
def prime4 : UInt64 := 0x85EBCA77C2B2AE63
def prime5 : UInt64 := 0x27D4EB2F165667C5

/-- Rotation to the left by `n` bits, for `n` from 1 to 63. -/
def rotate (x n : UInt64) : UInt64 := (x <<< n) ||| (x >>> (64 - n))

/-! ## Words -/

/-- The number that bytes spell, least significant first. -/
def littleEndian : List UInt8 → UInt64
  | [] => 0
  | b :: bs => b.toUInt64 ||| (littleEndian bs <<< 8)

/-- Splits bytes into whole words and a rest of fewer than eight bytes. -/
def splitWords : List UInt8 → List UInt64 × List UInt8
  | a :: b :: c :: d :: e :: f :: g :: h :: rest =>
    let (words, tail) := splitWords rest
    (littleEndian [a, b, c, d, e, f, g, h] :: words, tail)
  | tail => ([], tail)

/-! ## Absorption -/

/-- The four accumulators of the striped part. -/
structure Lanes where
  a : UInt64
  b : UInt64
  c : UInt64
  d : UInt64

/-- One accumulator absorbs one word. -/
def round (acc word : UInt64) : UInt64 := rotate (acc + word * prime2) 31 * prime1

/-- Absorbs words by fours and returns the words left over. -/
def absorbStripes (lanes : Lanes) : List UInt64 → Lanes × List UInt64
  | p :: q :: r :: s :: rest =>
    absorbStripes ⟨round lanes.a p, round lanes.b q, round lanes.c r, round lanes.d s⟩ rest
  | rest => (lanes, rest)

/-- Mixes one accumulator into the joined value. -/
def mergeLane (h lane : UInt64) : UInt64 := (h ^^^ round 0 lane) * prime1 + prime4

/-- Joins the four accumulators. -/
def Lanes.join (l : Lanes) : UInt64 :=
  let h := rotate l.a 1 + rotate l.b 7 + rotate l.c 12 + rotate l.d 18
  mergeLane (mergeLane (mergeLane (mergeLane h l.a) l.b) l.c) l.d

/-- Absorbs one leftover word. -/
def absorbWord (h word : UInt64) : UInt64 := rotate (h ^^^ round 0 word) 27 * prime1 + prime4

/-- Absorbs one leftover byte. -/
def absorbByte (h : UInt64) (byte : UInt8) : UInt64 :=
  rotate (h ^^^ (byte.toUInt64 * prime5)) 11 * prime1

/-- Absorbs the bytes after the last word: a half word if there is one, then single bytes. -/
def absorbTail (h : UInt64) : List UInt8 → UInt64
  | a :: b :: c :: d :: rest =>
    rest.foldl absorbByte
      (rotate (h ^^^ (littleEndian [a, b, c, d] * prime1)) 23 * prime2 + prime3)
  | tail => tail.foldl absorbByte h

/-- The last mixing step. -/
def avalanche (h : UInt64) : UInt64 :=
  let h := (h ^^^ (h >>> 33)) * prime2
  let h := (h ^^^ (h >>> 29)) * prime3
  h ^^^ (h >>> 32)

/-- The digest of some bytes under a seed.  Inputs shorter than one stripe skip the accumulators. -/
def digest (seed : UInt64) (bytes : List UInt8) : UInt64 :=
  let (words, tail) := splitWords bytes
  let (start, words) :=
    if bytes.length < 32 then (seed + prime5, words)
    else
      let (lanes, rest) := absorbStripes
        ⟨seed + prime1 + prime2, seed + prime2, seed, seed - prime1⟩ words
      (lanes.join, rest)
  avalanche (absorbTail (words.foldl absorbWord (start + UInt64.ofNat bytes.length)) tail)

/-- The digest of the UTF-8 bytes of a text, with seed zero. -/
def ofString (s : String) : UInt64 := digest 0 s.toUTF8.data.toList

end BlockCompiler.Xxh64
