/-!
# Digests

The 64-bit digest XXH64 of a sequence of bytes. Words are read with the least significant byte
first, and all arithmetic is modulo 2^64.
-/

namespace TripleGrammar

namespace Digest

/-! The five odd constants of the algorithm. -/

def prime1 : UInt64 := 0x9E3779B185EBCA87

def prime2 : UInt64 := 0xC2B2AE3D27D4EB4F

def prime3 : UInt64 := 0x165667B19E3779F9

def prime4 : UInt64 := 0x85EBCA77C2B2AE63

def prime5 : UInt64 := 0x27D4EB2F165667C5

/-- The bits moved up by `k` places, those that leave at the top coming in at the bottom. -/
def rotate (x : UInt64) (k : UInt64) : UInt64 := (x <<< k) ||| (x >>> (64 - k))

/-- The number that the bytes stand for, the first one being the least significant. -/
def word (bytes : List UInt8) : UInt64 := bytes.foldr (fun b w => (w <<< 8) ||| b.toUInt64) 0

def words : List UInt8 → List UInt64 × List UInt8
  | a :: b :: c :: d :: e :: f :: g :: h :: rest =>
    let (ws, tail) := words rest
    (word [a, b, c, d, e, f, g, h] :: ws, tail)
  | tail => ([], tail)

/-- Mixes a word into an accumulator. -/
def round (acc w : UInt64) : UInt64 := rotate (acc + w * prime2) 31 * prime1

/-- Four accumulators, each of which takes every fourth word. -/
structure Lanes where
  a : UInt64
  b : UInt64
  c : UInt64
  d : UInt64

namespace Lanes

def start (seed : UInt64) : Lanes := ⟨seed + prime1 + prime2, seed + prime2, seed, seed - prime1⟩

/-- Mixes in the words four by four, and leaves the last ones if there are fewer. -/
def absorb : List UInt64 → Lanes → Lanes × List UInt64
  | w :: x :: y :: z :: rest, l =>
    absorb rest ⟨round l.a w, round l.b x, round l.c y, round l.d z⟩
  | rest, l => (l, rest)

def merge (l : Lanes) : UInt64 :=
  [l.a, l.b, l.c, l.d].foldl (fun acc v => (acc ^^^ round 0 v) * prime1 + prime4)
    (rotate l.a 1 + rotate l.b 7 + rotate l.c 12 + rotate l.d 18)

end Lanes

def mixWord (acc w : UInt64) : UInt64 := rotate (acc ^^^ round 0 w) 27 * prime1 + prime4

def mixByte (acc : UInt64) (b : UInt8) : UInt64 :=
  rotate (acc ^^^ (b.toUInt64 * prime5)) 11 * prime1

/-- Mixes in the bytes after the last word, of which four go in together if there are as many. -/
def mixTail (acc : UInt64) : List UInt8 → UInt64
  | a :: b :: c :: d :: rest =>
    rest.foldl mixByte (rotate (acc ^^^ (word [a, b, c, d] * prime1)) 23 * prime2 + prime3)
  | rest => rest.foldl mixByte acc

/-- Spreads every bit over the whole word. -/
def avalanche (h : UInt64) : UInt64 :=
  let h := (h ^^^ (h >>> 33)) * prime2
  let h := (h ^^^ (h >>> 29)) * prime3
  h ^^^ (h >>> 32)

/-- The digest XXH64 of the bytes. -/
def xxh64 (seed : UInt64) (bytes : List UInt8) : UInt64 :=
  let (ws, tail) := words bytes
  let (lanes, rest) := Lanes.absorb ws (Lanes.start seed)
  -- the accumulators come in only if there were four words to share out
  let start := if bytes.length < 32 then seed + prime5 else lanes.merge
  avalanche (mixTail (rest.foldl mixWord (start + UInt64.ofNat bytes.length)) tail)

def hex (w : UInt64) : String :=
  String.ofList ((List.range 16).map fun i => Nat.digitChar (w.toNat >>> (4 * (15 - i)) % 16))

/-- The digest of a text in UTF-8, with seed zero. -/
def ofText (s : String) : UInt64 := xxh64 0 s.toUTF8.toList

end Digest

end TripleGrammar
