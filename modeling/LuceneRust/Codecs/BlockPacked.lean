import LuceneRust.Codecs.PackedInts
import LuceneRust.Store.DataOutput
import LuceneRust.Util.Packed.BulkBytes

/-!
# `lucene_codecs::block_packed`

A sequence of longs in blocks.  A block is a token, the least value of the
block if it is not zero, and the differences from it, packed at the width
that the token says.  A block of equal values has no differences.

`decode_all` reads a whole sequence of blocks of 64.  The iterator reads a
sequence of any block size: it decodes one block at a time, and `skip` passes
over whole blocks without decoding them.

Not modelled: the buffer that `decode_all` reserves, which does not change
what it returns, and the check `count > 0` of `next_values`, which a release
build does not have.
-/

namespace LuceneRust.Codecs.BlockPacked

open RustSem
open Store (Result Error SliceInput zigzagEncode zigzagDecode)
open Util.Packed (BulkOperation)

/-- `BLOCK_SIZE`. -/
def defaultBlockSize : Nat := 64

/-- `token & MIN_VALUE_EQUALS_0 != 0`. -/
def minValueEquals0 (token : U8) : Bool := token &&& 1#8 ≠ 0#8

/-- `token >> 1`. -/
def tokenBits (token : U8) : Nat := (token >>> 1).toNat

/-! ## The least value of a block -/

/-- The loop of `read_min_value_vlong`: the value so far and the shift. -/
def readMinValuePass (s : U64 × Nat × SliceInput) :
    Result ((U64 × Nat × SliceInput) ⊕ (U64 × SliceInput)) :=
  let (l, shift, inp) := s
  if shift < 56 then do
    let (b, inp) ← inp.readByte
    let l := l ||| (b &&& 0x7F#8).setWidth 64 <<< shift
    if b &&& 0x80#8 = 0#8 then .ok (.inr (l, inp))
    else .ok (.inl (l, shift + 7, inp))
  else do
    -- The ninth byte gives all its bits.
    let (b, inp) ← inp.readByte
    .ok (.inr (l ||| b.setWidth 64 <<< 56, inp))

/-- `read_min_value_vlong`. -/
def readMinValueVlong (inp : SliceInput) : Result (U64 × SliceInput) :=
  iterate readMinValuePass 9 (0#64, 0, inp)

/-- The loop of `write_min_value_vlong`, with at most `k` groups to come
before the last byte. -/
def minValueBytes : Nat → U64 → List U8
  | 0, i => [i.setWidth 8]
  | k + 1, i =>
    if i &&& ~~~0x7F#64 ≠ 0 then
      ((i &&& 0x7F#64).setWidth 8 ||| 0x80#8) :: minValueBytes k (i >>> 7)
    else [i.setWidth 8]

/-- `write_min_value_vlong`. -/
def writeMinValueVlong (i : U64) : List U8 := minValueBytes 8 i

/-- The least value behind a token. -/
def readMinValue (token : U8) (inp : SliceInput) : Result (U64 × SliceInput) :=
  if minValueEquals0 token then .ok (0#64, inp)
  else do
    let (v, inp) ← readMinValueVlong inp
    .ok (zigzagDecode (1#64 + v), inp)

/-! ## `decode_all` -/

/-- The refill of the accumulator of `unpack_block`. -/
def loadPass (bytes : List U8) (bpv : Nat) (s : U128 × Nat × Nat) :
    Result ((U128 × Nat × Nat) ⊕ (U128 × Nat × Nat)) :=
  let (acc, accBits, byteAt) := s
  if accBits < bpv then
    .ok (.inl (acc <<< 8 ||| (bytes.getD byteAt 0).setWidth 128, accBits + 8, byteAt + 1))
  else .ok (.inr s)

/-- One value of `unpack_block`. -/
def unpackValue (bytes : List U8) (bpv : Nat) (minValue : U64)
    (s : (U128 × Nat × Nat) × List U64) (_ : Nat) :
    Result ((U128 × Nat × Nat) × List U64) := do
  let mask : U128 := (1#128 <<< bpv) - 1#128
  let (acc, accBits, byteAt) ← iterate (loadPass bytes bpv) (bpv + 1) s.1
  let rest ← sub accBits bpv
  let raw : U64 := ((acc >>> rest) &&& mask).setWidth 64
  .ok ((acc, rest, byteAt), s.2 ++ [raw + minValue])

/-- `unpack_block`. -/
def unpackBlock (bytes : List U8) (bpv count : Nat) (minValue : U64) (out : List U64) :
    Result (List U64) := do
  let s ← (List.range count).foldlM (unpackValue bytes bpv minValue) ((0#128, 0, 0), out)
  .ok s.2

/-- The values of a block of `decode_all`. -/
def decodeBlock (bpv count : Nat) (minValue : U64) (out : List U64) (inp : SliceInput) :
    Result (List U64 × SliceInput) :=
  if bpv = 0 then .ok (out ++ List.replicate count minValue, inp)
  else do
    let byteLen := PackedInts.byteCount count bpv
    .guardOk (byteLen ≤ defaultBlockSize * 8)
    let (blockBytes, inp) ← inp.readN byteLen
    let out ← unpackBlock blockBytes bpv count minValue out
    .ok (out, inp)

/-- The loop of `decode_all`. -/
def decodePass (total : Int) (s : List U64 × Int × SliceInput) :
    Result ((List U64 × Int × SliceInput) ⊕ (List U64 × SliceInput)) :=
  let (out, produced, inp) := s
  if produced < total then do
    let (token, inp) ← inp.readByte
    let bpv := tokenBits token
    if 64 < bpv then
      .err (.corrupted ("block-packed bitsPerValue out of range: " ++ toString bpv))
    else do
      let (minValue, inp) ← readMinValue token inp
      let count := (min (total - produced) defaultBlockSize).toNat
      let (out, inp) ← decodeBlock bpv count minValue out inp
      .ok (.inl (out, produced + count, inp))
  else .ok (.inr (out, inp))

/-- `decode_all`. -/
def decodeAll (inp : SliceInput) (total : Int) : Result (List U64 × SliceInput) :=
  iterate (decodePass total) (total.toNat + 1) ([], 0, inp)

/-! ## `encode_all_with_block_size` -/

/-- `unsigned_bits_required`. -/
def unsignedBitsRequired (v : U64) : Nat := max (64 - v.clz.toNat) 1

/-- `max_value`. -/
def maxValue (bitsPerValue : Nat) : U64 := (1#64 <<< bitsPerValue) - 1#64

/-- `block.iter().min()`. -/
def iterMin : List U64 → Option U64
  | [] => none
  | v :: vs => some (vs.foldl (fun m u => if u.slt m then u else m) v)

/-- `block.iter().max()`. -/
def iterMax : List U64 → Option U64
  | [] => none
  | v :: vs => some (vs.foldl (fun m u => if m.slt u then u else m) v)

/-- The least value that is written, as small as the width allows. -/
def writtenMin (min max : U64) (bitsRequired : Nat) : U64 :=
  if bitsRequired = 64 then 0#64
  else if 0#64 |>.slt min then
    let low := max - maxValue bitsRequired
    if (0#64).slt low then low else 0#64
  else min

/-- One block of `encode_all_with_block_size`. -/
def encodeBlock (block : List U64) : Result (List U8) := do
  let min ← .expect (iterMin block)
  let max ← .expect (iterMax block)
  let delta := max - min
  let bitsRequired := if delta = 0#64 then 0 else unsignedBitsRequired delta
  let min := writtenMin min max bitsRequired
  let token := (bitsRequired <<< 1) ||| (if min = 0#64 then 1 else 0)
  let head := BitVec.ofNat 8 token ::
    if min ≠ 0#64 then writeMinValueVlong (zigzagEncode min - 1#64) else []
  if 0 < bitsRequired then do
    let body ← PackedInts.encode (block.map fun v => v - min) bitsRequired
    .ok (head ++ body)
  else .ok head

/-- `encode_all_with_block_size`. -/
def encodeAllWithBlockSize (values : List U64) (blockSize : Nat) : Result (List U8) := do
  .guardOk (0 < blockSize)
  let parts ← (chunks blockSize values).mapM encodeBlock
  .ok parts.flatten

/-- `encode_all`. -/
def encodeAll (values : List U64) : Result (List U8) :=
  encodeAllWithBlockSize values defaultBlockSize

/-! ## `BlockPackedReaderIterator` -/

/-- `BlockPackedReaderIterator`. -/
structure BlockPackedReaderIterator where
  input : SliceInput
  valueCount : Nat
  blockSize : Nat
  values : List U64
  blocks : List U8
  off : Nat
  ord : Nat

/-- `packed::check_version`, with the error that `new` makes of it. -/
def checkVersion (version : Int) : Result Unit :=
  if version < 2 then
    .err (.corrupted ("Version is too old, should be at least 2 (got " ++
      toString version ++ ")"))
  else if 2 < version then
    .err (.corrupted ("Version is too new, should be at most 2 (got " ++
      toString version ++ ")"))
  else .ok ()

/-- `packed::check_block_size`, with the error that `new` makes of it. -/
def checkBlockSize (blockSize minBlockSize maxBlockSize : Nat) : Result Unit :=
  if blockSize < minBlockSize ∨ maxBlockSize < blockSize then
    .err (.corrupted ("blockSize must be >= " ++ toString minBlockSize ++ " and <= " ++
      toString maxBlockSize ++ ", got " ++ toString blockSize))
  else if ¬ blockSize.isPowerOfTwo then
    .err (.corrupted ("blockSize must be a power of two, got " ++ toString blockSize))
  else .ok ()

/-- A call of `lucene_util::packed`, which returns or panics. -/
def ofCall {α : Type} : Util.Packed.Call α → Result α
  | .ok a => .ok a
  | .err e => nomatch e
  | .panic => .panic

namespace BlockPackedReaderIterator

/-- `BlockPackedReaderIterator::new`. -/
def new (input : SliceInput) (packedIntsVersion : Int) (blockSize valueCount : Nat) :
    Result BlockPackedReaderIterator := do
  checkVersion packedIntsVersion
  checkBlockSize blockSize 64 (2 ^ 27)
  .ok
    { input := input
      valueCount := valueCount
      blockSize := blockSize
      values := List.replicate blockSize 0#64
      blocks := []
      off := blockSize
      ord := 0 }

/-- The packed body of a block of `refill`, behind the token and the least
value. -/
def refillBody (it : BlockPackedReaderIterator) (bpv : Nat) (minValue : U64)
    (inp : SliceInput) : Result BlockPackedReaderIterator := do
  let decoder ← ofCall (BulkOperation.of .packed bpv)
  let iterations := it.blockSize / decoder.byteValueCount
  let blocksSize := iterations * decoder.byteBlockCount
  let valueCount ← sub it.valueCount it.ord
  let valueCount := min valueCount it.blockSize
  let blocks := it.blocks ++ List.replicate (blocksSize - it.blocks.length) 0#8
  let blocksCount := PackedInts.byteCount valueCount bpv
  .guardOk (blocksCount ≤ blocks.length)
  let (bytes, inp) ← inp.readN blocksCount
  let blocks := bytes ++ blocks.drop blocksCount
  let values ← ofCall (decoder.decodeBytes blocks it.values iterations)
  .guardOk (minValue ≠ 0#64 → valueCount ≤ values.length)
  let values :=
    if minValue ≠ 0#64 then
      (values.take valueCount).map (fun v => v + minValue) ++ values.drop valueCount
    else values
  .ok { it with input := inp, values := values, blocks := blocks, off := 0 }

/-- `refill`. -/
def refill (it : BlockPackedReaderIterator) : Result BlockPackedReaderIterator := do
  let (token, inp) ← it.input.readByte
  let bpv := tokenBits token
  if 64 < bpv then .err (.corrupted "Corrupted")
  else do
    let (minValue, inp) ← readMinValue token inp
    if bpv = 0 then
      .ok { it with
        input := inp, values := List.replicate it.values.length minValue, off := 0 }
    else it.refillBody bpv minValue inp

/-- `if self.off == self.block_size { self.refill()? }`. -/
def ensure (it : BlockPackedReaderIterator) : Result BlockPackedReaderIterator :=
  if it.off = it.blockSize then it.refill else .ok it

/-- `next_value`. -/
def nextValue (it : BlockPackedReaderIterator) : Result (U64 × BlockPackedReaderIterator) :=
  if it.ord = it.valueCount then .err (.eof it.input.remaining)
  else do
    let it ← it.ensure
    let value ← .expect it.values[it.off]?
    .ok (value, { it with off := it.off + 1, ord := it.ord + 1 })

/-- `next_values`. -/
def nextValues (it : BlockPackedReaderIterator) (count : Nat) :
    Result (List U64 × BlockPackedReaderIterator) :=
  if it.ord = it.valueCount then .err (.eof it.input.remaining)
  else do
    let it ← it.ensure
    let room ← sub it.blockSize it.off
    let left ← sub it.valueCount it.ord
    let count := min (min count room) left
    let run ← .expect (slice it.values it.off (it.off + count))
    .ok (run, { it with off := it.off + count, ord := it.ord + count })

/-- The loop of `skip` over whole blocks: the count that is left. -/
def skipPass (s : Nat × BlockPackedReaderIterator) :
    Result ((Nat × BlockPackedReaderIterator) ⊕ (Nat × BlockPackedReaderIterator)) :=
  let (count, it) := s
  if it.blockSize ≤ count then do
    let (token, inp) ← it.input.readByte
    let bpv := tokenBits token
    if 64 < bpv then .err (.corrupted "Corrupted")
    else do
      let (_, inp) ← readMinValue token inp
      let inp ← inp.skip (PackedInts.byteCount it.blockSize bpv)
      .ok (.inl (count - it.blockSize,
        { it with input := inp, ord := it.ord + it.blockSize }))
  else .ok (.inr (count, it))

/-- The last values of `skip`, inside the next block. -/
def skipLast (s : Nat × BlockPackedReaderIterator) : Result BlockPackedReaderIterator :=
  if s.1 = 0 then .ok s.2
  else do
    let it ← s.2.refill
    .ok { it with ord := it.ord + s.1, off := it.off + s.1 }

/-- What `skip` does behind the values that are buffered. -/
def skipBlocks (count : Nat) (it : BlockPackedReaderIterator) :
    Result BlockPackedReaderIterator :=
  if count = 0 then .ok it
  else do
    let s ← iterate skipPass (count + 1) (count, it)
    skipLast s

/-- `skip`. -/
def skip (it : BlockPackedReaderIterator) (count : Nat) : Result BlockPackedReaderIterator :=
  match checkedAdd it.ord count with
  | none => .err (.eof it.input.remaining)
  | some target =>
    if it.valueCount < target then .err (.eof it.input.remaining)
    else do
      let room ← sub it.blockSize it.off
      let skipBuffer := min count room
      skipBlocks (count - skipBuffer)
        { it with off := it.off + skipBuffer, ord := it.ord + skipBuffer }

end BlockPackedReaderIterator

end LuceneRust.Codecs.BlockPacked
