import LuceneRust.Store.DataInput
import LuceneRust.Store.DataOutput

/-!
# `lucene_codecs::for_util`

The packing of blocks of 256 integers.  A block of at most 8 (16) bits a value
is first collapsed, four (two) values to the lanes of a word.  The words are
then packed by one encoder for all widths, and unpacked by a decoder of its own
for each width up to 16.

The arrays `[u32; BLOCK_SIZE]` are lists of that length.  A loop that writes
every slot of a range once is the list of what it writes.  An index that is
computed from the width is looked up, so that one out of range is a panic.
-/

namespace LuceneRust.Codecs.ForUtil

open RustSem
open Store (Result SliceInput writeByte writeBytes writeVint)

/-- `BLOCK_SIZE`. -/
def blockSize : Nat := 256

/-! ## Masks -/

/-- `mask32`. -/
def mask32 (bits : Nat) : U32 :=
  if bits = 0 then 0#32 else if 32 ≤ bits then BitVec.allOnes 32 else (1#32 <<< bits) - 1#32

/-- `expand_mask16`. -/
def expandMask16 (m : U32) : U32 := m ||| (m <<< 16)

/-- `expand_mask8`. -/
def expandMask8 (m : U32) : U32 := expandMask16 (m ||| (m <<< 8))

/-- `mask16`. -/
def mask16 (bits : Nat) : U32 := expandMask16 (mask32 bits)

/-- `mask8`. -/
def mask8 (bits : Nat) : U32 := expandMask8 (mask32 bits)

/-- `mask_for`. -/
def maskFor (bits primitiveSize : Nat) : U32 :=
  if primitiveSize = 8 then mask8 bits
  else if primitiveSize = 16 then mask16 bits
  else mask32 bits

/-! ## Lanes -/

/-- `expand8`. -/
def expand8 (arr : List U32) : List U32 :=
  let words := arr.take 64
  words.map (fun l : U32 => (l >>> 24) &&& 0xFF#32)
    ++ words.map (fun l : U32 => (l >>> 16) &&& 0xFF#32)
    ++ words.map (fun l : U32 => (l >>> 8) &&& 0xFF#32) ++ words.map (fun l : U32 => l &&& 0xFF#32)

/-- `expand16`. -/
def expand16 (arr : List U32) : List U32 :=
  let words := arr.take 128
  words.map (fun l : U32 => (l >>> 16) &&& 0xFFFF#32) ++ words.map (fun l : U32 => l &&& 0xFFFF#32)

/-- Slot `i` of an array. -/
def slot (arr : List U32) (i : Nat) : U32 := arr.getD i 0#32

/-- `collapse8`. -/
def collapse8 (arr : List U32) : List U32 :=
  ((List.range 64).map fun i =>
    (slot arr i <<< 24) ||| (slot arr (64 + i) <<< 16) ||| (slot arr (128 + i) <<< 8)
      ||| slot arr (192 + i)) ++ arr.drop 64

/-- `collapse16`. -/
def collapse16 (arr : List U32) : List U32 :=
  ((List.range 128).map fun i => (slot arr i <<< 16) ||| slot arr (128 + i)) ++ arr.drop 128

/-! ## `split_ints` and `decode_slow` -/

/-- `split_ints`: the arrays `b` and `c` after it.  The number of shifts is a
signed division in the source, of `-1` if `bShift` is 0. -/
def splitInts (inp : SliceInput) (b c : List U32) (count bShift dec : Nat) (bMask : U32)
    (cIndex : Nat) (cMask : U32) : Result (List U32 × List U32 × SliceInput) := do
  .guardOk (cIndex + count ≤ c.length)
  let (words, inp) ← inp.readU32sLe count
  let maxIter := (bShift - 1) / dec
  .guardOk (count * (maxIter + 1) ≤ b.length)
  let values := (List.range (maxIter + 1)).flatMap fun j =>
    words.map fun cv : U32 => (cv >>> (bShift - j * dec)) &&& bMask
  .ok (splice b 0 values, splice c cIndex (words.map (· &&& cMask)), inp)

/-- One turn of the `while` loop of `decode_slow`: the bits that a value still
needs, the value so far and the index of the next word. -/
def wholeWordPass (mask : Nat → U32) (r : Nat) (tmp : List U32) (s : Nat × U32 × Nat) :
    Result ((Nat × U32 × Nat) ⊕ (Nat × U32 × Nat)) :=
  let (b, l, i) := s
  if r ≤ b then do
    let w ← .expect tmp[i]?
    .ok (.inl (b - r, l ||| ((w &&& mask r) <<< (b - r)), i + 1))
  else .ok (.inr s)

/-- One turn of the `for` loop of `decode_slow`: a value of `bits` bits out of
words that have `r` bits left.  The state is `tmp_idx` and `remaining_bits`. -/
def nextValue (mask : Nat → U32) (bits r : Nat) (tmp : List U32) (s : Nat × Nat) :
    Result (U32 × Nat × Nat) := do
  let (i, remaining) := s
  let b ← sub bits remaining
  let w ← .expect tmp[i]?
  let (b, l, i) ← iterate (wholeWordPass mask r tmp) (bits + 1) (b, (w &&& mask remaining) <<< b, i + 1)
  if 0 < b then do
    let w ← .expect tmp[i]?
    .ok (l ||| ((w >>> (r - b)) &&& mask b), i, r - b)
  else .ok (l, i, r)

/-- The next `n` values. -/
def nextValues (mask : Nat → U32) (bits r : Nat) (tmp : List U32) :
    Nat → Nat × Nat → Result (List U32 × Nat × Nat)
  | 0, s => .ok ([], s)
  | n + 1, s => do
    let (v, s) ← nextValue mask bits r tmp s
    let (vs, s) ← nextValues mask bits r tmp n s
    .ok (v :: vs, s)

/-- `decode_slow`. -/
def decodeSlow (bitsPerValue : Nat) (inp : SliceInput) (tmp ints : List U32) :
    Result (List U32 × List U32 × SliceInput) := do
  let numInts := bitsPerValue * 8
  let (b, tmp, inp) ← splitInts inp (ints.take numInts) tmp numInts (32 - bitsPerValue) 32
    (mask32 bitsPerValue) 0 (BitVec.allOnes 32)
  let r := 32 - bitsPerValue
  let (values, _) ← nextValues mask32 bitsPerValue r tmp (blockSize - numInts) (0, r)
  .ok (tmp, b ++ values, inp)

/-! ## The decoders of one width -/

/-- `decode1`, `decode2` and `decode4`: the words of the block are masked in
place to be its last values. -/
def decodeInPlace (mid count bShift dec : Nat) (mask : U32) (inp : SliceInput) (ints : List U32) :
    Result (List U32 × SliceInput) := do
  let (b, c, inp) ← splitInts inp (ints.take mid) (ints.drop mid) count bShift dec mask 0 mask
  .ok (b ++ c, inp)

/-- `decode1`. -/
def decode1 : SliceInput → List U32 → Result (List U32 × SliceInput) :=
  decodeInPlace 56 8 7 1 (mask8 1)

/-- `decode2`. -/
def decode2 : SliceInput → List U32 → Result (List U32 × SliceInput) :=
  decodeInPlace 48 16 6 2 (mask8 2)

/-- `decode4`. -/
def decode4 : SliceInput → List U32 → Result (List U32 × SliceInput) :=
  decodeInPlace 32 32 4 4 (mask8 4)

/-- `decode8` and `decode16`: the words of the block as they are. -/
def decodeWords (count : Nat) (inp : SliceInput) (ints : List U32) :
    Result (List U32 × SliceInput) := do
  let (words, inp) ← inp.readU32sLe count
  .ok (splice ints 0 words, inp)

/-- `decode8`. -/
def decode8 : SliceInput → List U32 → Result (List U32 × SliceInput) := decodeWords 64

/-- `decode16`. -/
def decode16 : SliceInput → List U32 → Result (List U32 × SliceInput) := decodeWords 128

/-- The shape of the other decoders: `split_ints` with `ints` and the scratch
buffer, and a loop of `turns` turns.  Each of them takes the next `g` words
`t 0`, `t 1`, ... of the scratch buffer to the values `body t`, which go to
`ints` from `start` on. -/
def decodeUnrolled (count bShift dec : Nat) (bMask cMask : U32) (turns g start : Nat)
    (body : (Nat → U32) → List U32) (inp : SliceInput) (tmp ints : List U32) :
    Result (List U32 × List U32 × SliceInput) := do
  let (ints, tmp, inp) ← splitInts inp ints tmp count bShift dec bMask 0 cMask
  let values := (List.range turns).flatMap fun k => body fun i => slot tmp (g * k + i)
  .guardOk (g * turns ≤ tmp.length ∧ start + values.length ≤ ints.length)
  .ok (tmp, splice ints start values, inp)

/-- The loop body of `decode3`. -/
def body3 (t : Nat → U32) : List U32 :=
  [(t 0 <<< 1) ||| ((t 1 >>> 1) &&& mask8 1),
    ((t 1 &&& mask8 1) <<< 2) ||| t 2]

/-- `decode3`. -/
def decode3 : SliceInput → List U32 → List U32 → Result (List U32 × List U32 × SliceInput) :=
  decodeUnrolled 24 5 3 (mask8 3) (mask8 2) 8 3 48 body3

/-- The loop body of `decode5`. -/
def body5 (t : Nat → U32) : List U32 :=
  [(t 0 <<< 2) ||| ((t 1 >>> 1) &&& mask8 2),
    ((t 1 &&& mask8 1) <<< 4) ||| (t 2 <<< 1) ||| ((t 3 >>> 2) &&& mask8 1),
    ((t 3 &&& mask8 2) <<< 3) ||| t 4]

/-- `decode5`. -/
def decode5 : SliceInput → List U32 → List U32 → Result (List U32 × List U32 × SliceInput) :=
  decodeUnrolled 40 3 5 (mask8 5) (mask8 3) 8 5 40 body5

/-- The loop body of `decode6`. -/
def body6 (t : Nat → U32) : List U32 :=
  [(t 0 <<< 4) ||| (t 1 <<< 2) ||| t 2]

/-- `decode6`. -/
def decode6 : SliceInput → List U32 → List U32 → Result (List U32 × List U32 × SliceInput) :=
  decodeUnrolled 48 2 6 (mask8 6) (mask8 2) 16 3 48 body6

/-- The loop body of `decode7`. -/
def body7 (t : Nat → U32) : List U32 :=
  [(t 0 <<< 6) ||| (t 1 <<< 5) ||| (t 2 <<< 4) ||| (t 3 <<< 3) ||| (t 4 <<< 2) ||| (t 5 <<< 1)
    ||| t 6]

/-- `decode7`. -/
def decode7 : SliceInput → List U32 → List U32 → Result (List U32 × List U32 × SliceInput) :=
  decodeUnrolled 56 1 7 (mask8 7) (mask8 1) 8 7 56 body7

/-- The loop body of `decode9`. -/
def body9 (t : Nat → U32) : List U32 :=
  [(t 0 <<< 2) ||| ((t 1 >>> 5) &&& mask16 2),
    ((t 1 &&& mask16 5) <<< 4) ||| ((t 2 >>> 3) &&& mask16 4),
    ((t 2 &&& mask16 3) <<< 6) ||| ((t 3 >>> 1) &&& mask16 6),
    ((t 3 &&& mask16 1) <<< 8) ||| (t 4 <<< 1) ||| ((t 5 >>> 6) &&& mask16 1),
    ((t 5 &&& mask16 6) <<< 3) ||| ((t 6 >>> 4) &&& mask16 3),
    ((t 6 &&& mask16 4) <<< 5) ||| ((t 7 >>> 2) &&& mask16 5),
    ((t 7 &&& mask16 2) <<< 7) ||| t 8]

/-- `decode9`. -/
def decode9 : SliceInput → List U32 → List U32 → Result (List U32 × List U32 × SliceInput) :=
  decodeUnrolled 72 7 9 (mask16 9) (mask16 7) 8 9 72 body9

/-- The loop body of `decode10`. -/
def body10 (t : Nat → U32) : List U32 :=
  [(t 0 <<< 4) ||| ((t 1 >>> 2) &&& mask16 4),
    ((t 1 &&& mask16 2) <<< 8) ||| (t 2 <<< 2) ||| ((t 3 >>> 4) &&& mask16 2),
    ((t 3 &&& mask16 4) <<< 6) ||| t 4]

/-- `decode10`. -/
def decode10 : SliceInput → List U32 → List U32 → Result (List U32 × List U32 × SliceInput) :=
  decodeUnrolled 80 6 10 (mask16 10) (mask16 6) 16 5 80 body10

/-- The loop body of `decode11`. -/
def body11 (t : Nat → U32) : List U32 :=
  [(t 0 <<< 6) ||| (t 1 <<< 1) ||| ((t 2 >>> 4) &&& mask16 1),
    ((t 2 &&& mask16 4) <<< 7) ||| (t 3 <<< 2) ||| ((t 4 >>> 3) &&& mask16 2),
    ((t 4 &&& mask16 3) <<< 8) ||| (t 5 <<< 3) ||| ((t 6 >>> 2) &&& mask16 3),
    ((t 6 &&& mask16 2) <<< 9) ||| (t 7 <<< 4) ||| ((t 8 >>> 1) &&& mask16 4),
    ((t 8 &&& mask16 1) <<< 10) ||| (t 9 <<< 5) ||| t 10]

/-- `decode11`. -/
def decode11 : SliceInput → List U32 → List U32 → Result (List U32 × List U32 × SliceInput) :=
  decodeUnrolled 88 5 11 (mask16 11) (mask16 5) 8 11 88 body11

/-- The loop body of `decode12`. -/
def body12 (t : Nat → U32) : List U32 :=
  [(t 0 <<< 8) ||| (t 1 <<< 4) ||| t 2]

/-- `decode12`. -/
def decode12 : SliceInput → List U32 → List U32 → Result (List U32 × List U32 × SliceInput) :=
  decodeUnrolled 96 4 12 (mask16 12) (mask16 4) 32 3 96 body12

/-- The loop body of `decode13`. -/
def body13 (t : Nat → U32) : List U32 :=
  [(t 0 <<< 10) ||| (t 1 <<< 7) ||| (t 2 <<< 4) ||| (t 3 <<< 1) ||| ((t 4 >>> 2) &&& mask16 1),
    ((t 4 &&& mask16 2) <<< 11) ||| (t 5 <<< 8) ||| (t 6 <<< 5) ||| (t 7 <<< 2)
      ||| ((t 8 >>> 1) &&& mask16 2),
    ((t 8 &&& mask16 1) <<< 12) ||| (t 9 <<< 9) ||| (t 10 <<< 6) ||| (t 11 <<< 3) ||| t 12]

/-- `decode13`. -/
def decode13 : SliceInput → List U32 → List U32 → Result (List U32 × List U32 × SliceInput) :=
  decodeUnrolled 104 3 13 (mask16 13) (mask16 3) 8 13 104 body13

/-- The loop body of `decode14`. -/
def body14 (t : Nat → U32) : List U32 :=
  [(t 0 <<< 12) ||| (t 1 <<< 10) ||| (t 2 <<< 8) ||| (t 3 <<< 6) ||| (t 4 <<< 4)
    ||| (t 5 <<< 2) ||| t 6]

/-- `decode14`. -/
def decode14 : SliceInput → List U32 → List U32 → Result (List U32 × List U32 × SliceInput) :=
  decodeUnrolled 112 2 14 (mask16 14) (mask16 2) 16 7 112 body14

/-- The loop body of `decode15`. -/
def body15 (t : Nat → U32) : List U32 :=
  [(t 0 <<< 14) ||| (t 1 <<< 13) ||| (t 2 <<< 12) ||| (t 3 <<< 11) ||| (t 4 <<< 10)
    ||| (t 5 <<< 9) ||| (t 6 <<< 8) ||| (t 7 <<< 7) ||| (t 8 <<< 6) ||| (t 9 <<< 5)
    ||| (t 10 <<< 4) ||| (t 11 <<< 3) ||| (t 12 <<< 2) ||| (t 13 <<< 1) ||| t 14]

/-- `decode15`. -/
def decode15 : SliceInput → List U32 → List U32 → Result (List U32 × List U32 × SliceInput) :=
  decodeUnrolled 120 1 15 (mask16 15) (mask16 1) 8 15 120 body15

/-! ## `ForUtil` -/

/-- A decoder without a scratch buffer, and the lanes that it leaves. -/
def thenExpand (expand : List U32 → List U32) (tmp : List U32)
    (x : Result (List U32 × SliceInput)) : Result (List U32 × List U32 × SliceInput) := do
  let (ints, inp) ← x
  .ok (tmp, expand ints, inp)

/-- A decoder with the scratch buffer, and the lanes that it leaves. -/
def thenExpandWith (expand : List U32 → List U32)
    (x : Result (List U32 × List U32 × SliceInput)) :
    Result (List U32 × List U32 × SliceInput) := do
  let (tmp, ints, inp) ← x
  .ok (tmp, expand ints, inp)

/-- `ForUtil::decode`: the scratch buffer and the array after it. -/
def decode (bitsPerValue : Nat) (inp : SliceInput) (tmp ints : List U32) :
    Result (List U32 × List U32 × SliceInput) :=
  if ¬(1 ≤ bitsPerValue ∧ bitsPerValue ≤ 32) then
    .err (.corrupted ("ForUtil bitsPerValue out of range: " ++ toString bitsPerValue))
  else
    match bitsPerValue with
    | 1 => thenExpand expand8 tmp (decode1 inp ints)
    | 2 => thenExpand expand8 tmp (decode2 inp ints)
    | 3 => thenExpandWith expand8 (decode3 inp tmp ints)
    | 4 => thenExpand expand8 tmp (decode4 inp ints)
    | 5 => thenExpandWith expand8 (decode5 inp tmp ints)
    | 6 => thenExpandWith expand8 (decode6 inp tmp ints)
    | 7 => thenExpandWith expand8 (decode7 inp tmp ints)
    | 8 => thenExpand expand8 tmp (decode8 inp ints)
    | 9 => thenExpandWith expand16 (decode9 inp tmp ints)
    | 10 => thenExpandWith expand16 (decode10 inp tmp ints)
    | 11 => thenExpandWith expand16 (decode11 inp tmp ints)
    | 12 => thenExpandWith expand16 (decode12 inp tmp ints)
    | 13 => thenExpandWith expand16 (decode13 inp tmp ints)
    | 14 => thenExpandWith expand16 (decode14 inp tmp ints)
    | 15 => thenExpandWith expand16 (decode15 inp tmp ints)
    | 16 => thenExpand expand16 tmp (decode16 inp ints)
    | _ => decodeSlow bitsPerValue inp tmp ints

/-- `num_bytes`. -/
def numBytes (bitsPerValue : Nat) : Nat := bitsPerValue <<< 5

/-! ## `encode` -/

/-- One turn of the second loop of `encode_generic`: `idx`, `shift` and
`tmp`. -/
def shiftPass (ints : List U32) (bitsPerValue numIntsPerShift : Nat) (s : Nat × Int × List U32) :
    Result ((Nat × Int × List U32) ⊕ (Nat × Int × List U32)) :=
  let (idx, shift, tmp) := s
  if 0 ≤ shift then do
    let values ← .expect (slice ints idx (idx + numIntsPerShift))
    let packed := List.zipWith (fun t v : U32 => t ||| (v <<< shift.toNat)) tmp values
    .ok (.inl (idx + numIntsPerShift, shift - bitsPerValue, splice tmp 0 packed))
  else .ok (.inr s)

/-- One turn of the last loop of `encode_generic`: `idx`,
`remaining_bits_per_value`, `tmp_idx` and `tmp`. -/
def spillPass (ints : List U32) (bitsPerValue primitiveSize numInts r : Nat)
    (s : Nat × Nat × Nat × List U32) :
    Result ((Nat × Nat × Nat × List U32) ⊕ List U32) :=
  let (idx, remaining, tmpIdx, tmp) := s
  if idx < numInts then do
    let v ← .expect ints[idx]?
    let t ← .expect tmp[tmpIdx]?
    if r ≤ remaining then do
      let rest := remaining - r
      let tmp := tmp.set tmpIdx (t ||| ((v >>> rest) &&& maskFor r primitiveSize))
      if rest = 0 then .ok (.inl (idx + 1, bitsPerValue, tmpIdx + 1, tmp))
      else .ok (.inl (idx, rest, tmpIdx + 1, tmp))
    else do
      let t := t ||| ((v &&& maskFor remaining primitiveSize) <<< (r - remaining))
      let rest := remaining + (bitsPerValue - r)
      let v ← .expect ints[idx + 1]?
      let t := t ||| ((v >>> rest) &&& maskFor (r - remaining) primitiveSize)
      .ok (.inl (idx + 1, rest, tmpIdx + 1, tmp.set tmpIdx t))
  else .ok (.inr tmp)

/-- `encode_generic`: the output and the scratch buffer after it.  The words go
to the output sixteen at a time. -/
def encodeGeneric (ints : List U32) (bitsPerValue primitiveSize : Nat) (out : List U8)
    (tmp : List U32) : Result (List U8 × List U32) := do
  let numInts := blockSize * primitiveSize / 32
  let numIntsPerShift := bitsPerValue * 8
  let shift ← sub primitiveSize bitsPerValue
  let values ← .expect (slice ints 0 numIntsPerShift)
  let tmp := splice tmp 0 (values.map fun v : U32 => v <<< shift)
  let (idx, shift, tmp) ← iterate (shiftPass ints bitsPerValue numIntsPerShift) (primitiveSize + 1)
    (numIntsPerShift, (shift : Int) - bitsPerValue, tmp)
  let r := (shift + bitsPerValue).toNat
  let tmp ← iterate (spillPass ints bitsPerValue primitiveSize numInts r) (blockSize + 1)
    (idx, bitsPerValue, 0, tmp)
  let words ← .expect (slice tmp 0 numIntsPerShift)
  .ok ((chunks 16 words).foldl (fun out words => writeBytes out (words.flatMap (toLeBytes 4))) out,
    tmp)

/-- `ForUtil::encode`: the output, the array and the scratch buffer after it. -/
def encode (ints : List U32) (bitsPerValue : Nat) (out : List U8) (tmp : List U32) :
    Result (List U8 × List U32 × List U32) := do
  .guardOk (1 ≤ bitsPerValue ∧ bitsPerValue ≤ 32)
  let primitiveSize := if bitsPerValue ≤ 8 then 8 else if bitsPerValue ≤ 16 then 16 else 32
  let ints := if primitiveSize = 8 then collapse8 ints
    else if primitiveSize = 16 then collapse16 ints
    else ints
  let (out, tmp) ← encodeGeneric ints bitsPerValue primitiveSize out tmp
  .ok (out, ints, tmp)

/-! ## `PForUtil` -/

/-- The exceptions of a block. -/
def readExceptions (bitsPerValue : Nat) : Nat → SliceInput → List U32 →
    Result (List U32 × SliceInput)
  | 0, inp, ints => .ok (ints, inp)
  | n + 1, inp, ints => do
    let (idx, inp) ← inp.readByte
    let (patch, inp) ← inp.readByte
    let v ← .expect ints[idx.toNat]?
    readExceptions bitsPerValue n inp
      (ints.set idx.toNat (v ||| (patch.setWidth 32 <<< bitsPerValue)))

/-- `ForUtil::pfor_decode`. -/
def pforDecode (inp : SliceInput) (tmp ints : List U32) :
    Result (List U32 × List U32 × SliceInput) := do
  let (token, inp) ← inp.readByte
  let bitsPerValue := (token &&& 0x1F#8).toNat
  let (tmp, ints, inp) ←
    if bitsPerValue = 0 then do
      let (v, inp) ← inp.readVint
      .ok (tmp, List.replicate blockSize v, inp)
    else decode bitsPerValue inp tmp ints
  let (ints, inp) ← readExceptions bitsPerValue (token >>> 5).toNat inp ints
  .ok (tmp, ints, inp)

/-- `MAX_EXCEPTIONS`. -/
def maxExceptions : Nat := 7

/-- `bits_required`. -/
def bitsRequired (v : U32) : Nat := max (32 - v.clz.toNat) 1

/-- `histogram` and `max_bits_required`. -/
def countBits (ints : List U32) : List Nat × Nat :=
  ints.foldl (fun s v => (s.1.modify (bitsRequired v) (· + 1), max s.2 (bitsRequired v)))
    (List.replicate 33 0, 0)

/-- One turn of the search for the width: `b`, `cumulative_exceptions`,
`patched_bits_required` and `num_exceptions`. -/
def widthPass (histogram : List Nat) (minBits : Nat) (s : Nat × Nat × Nat × Nat) :
    Result ((Nat × Nat × Nat × Nat) ⊕ (Nat × Nat)) :=
  let (b, cumulative, patchedBits, exceptions) := s
  if maxExceptions < cumulative then .ok (.inr (patchedBits, exceptions))
  else do
    let count ← .expect histogram[b]?
    if b = minBits then .ok (.inr (b, cumulative))
    else do
      let next ← sub b 1
      .ok (.inl (next, cumulative + count, b, cumulative))

/-- `patched_bits_required` and `num_exceptions`. -/
def patchedBits (ints : List U32) : Result (Nat × Nat) :=
  let (histogram, maxBits) := countBits ints
  iterate (widthPass histogram (maxBits - 8)) 33 (maxBits, 0, maxBits, 0)

/-- The loop over the values that fills `patches`, from index `i` on, and the
values that are left. -/
def takePatches (bits : Nat) : Nat → List U32 → List (U8 × U8) →
    Result (List (U8 × U8) × List U32)
  | _, [], patches => .ok (patches, [])
  | i, v :: values, patches =>
    if mask32 bits < v then do
      .guardOk (patches.length < maxExceptions)
      let (patches, values) ← takePatches bits (i + 1) values
        (patches ++ [(BitVec.ofNat 8 i, (v >>> bits).setWidth 8)])
      .ok (patches, (v &&& mask32 bits) :: values)
    else do
      let (patches, values) ← takePatches bits (i + 1) values patches
      .ok (patches, v :: values)

/-- `all_equal`. -/
def allEqual (ints : List U32) : Bool := ints.all (· == slot ints 0)

/-- The patches of the all-equal form.  A `u8` is shifted by less than 8. -/
def writeShiftedPatches (bits : Nat) : List (U8 × U8) → List U8 → Result (List U8)
  | [], out => .ok out
  | (idx, patch) :: patches, out => do
    .guardOk (bits < 8)
    writeShiftedPatches bits patches (writeByte (writeByte out idx) (patch <<< bits))

/-- The patches of a packed block. -/
def writePatches (patches : List (U8 × U8)) (out : List U8) : List U8 :=
  patches.foldl (fun out p => writeByte (writeByte out p.1) p.2) out

/-- `pfor_encode_with`: the output, the array and the scratch buffer after
it. -/
def pforEncode (bmi2 : Bool) (ints : List U32) (out : List U8) (tmp : List U32) :
    Result (List U8 × List U32 × List U32) := do
  let (bits, exceptions) ← patchedBits ints
  let (patches, values) ← if 0 < exceptions then takePatches bits 0 ints [] else .ok ([], ints)
  if allEqual values ∧ (countBits ints).2 ≤ 8 then do
    let out := writeByte out (BitVec.ofNat 8 (exceptions <<< 5))
    let out ← writeShiftedPatches bits patches (writeVint bmi2 out (slot values 0))
    .ok (out, values, tmp)
  else do
    let out := writeByte out (BitVec.ofNat 8 ((exceptions <<< 5) ||| bits))
    let (out, values, tmp) ← encode values bits out tmp
    .ok (writePatches patches out, values, tmp)

/-- `pfor_skip`. -/
def pforSkip (inp : SliceInput) : Result SliceInput := do
  let (token, inp) ← inp.readByte
  let bitsPerValue := (token &&& 0x1F#8).toNat
  let inp ←
    if bitsPerValue = 0 then do
      let (_, inp) ← inp.readVint
      .ok inp
    else inp.skip (numBytes bitsPerValue)
  inp.skip ((token >>> 5).toNat <<< 1)

end LuceneRust.Codecs.ForUtil
