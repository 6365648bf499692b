import LuceneRust.Codecs.BlockPacked
import LuceneRust.Store.DataOutput
import LuceneRust.Util.Packed.BulkEncode

/-!
# `lucene_codecs::packed_ints`, the streams

`PackedWriter` buffers values and writes them out through the byte encoder of
a format.  `PackedReaderIterator` decodes the stream a buffer at a time.  The
stream has no header: the reader is told the format, the width and the number
of values.

Not modelled: the accessors, and `next_value`.
-/

namespace LuceneRust.Codecs.PackedInts

open RustSem
open Store (Result Error SliceInput writeBytes)
open Util.Packed (BulkOperation Format vecZeroed unsignedBitsRequired)
open BlockPacked (ofCall checkVersion)

/-- `vec![0u8; n]`. -/
def byteBuffer (n : Nat) : Result (List U8) :=
  if n ≤ maxAlloc then .ok (List.replicate n 0#8) else .panic

/-- The name of a format. -/
def formatName : Format → String
  | .packed => "Packed"
  | .packedSingleBlock => "PackedSingleBlock"

/-! ## The writer -/

/-- `PackedWriter`. -/
structure PackedWriter where
  out : List U8
  format : Format
  valueCount : Option Nat
  bitsPerValue : Nat
  encoder : BulkOperation
  nextBlocks : List U8
  nextValues : List U64
  iterations : Nat
  off : Nat
  written : Nat
  finished : Bool

namespace PackedWriter

/-- `PackedWriter::new`. -/
def new (out : List U8) (format : Format) (valueCount : Option Nat) (bitsPerValue mem : Nat) :
    Result PackedWriter := do
  let encoder ← ofCall (BulkOperation.of format bitsPerValue)
  let iterations := encoder.computeIterations (valueCount.getD (2 ^ 31 - 1)) mem
  let nextBlocks ← byteBuffer (iterations * encoder.byteBlockCount)
  let nextValues ← ofCall (vecZeroed (iterations * encoder.byteValueCount))
  .ok ⟨out, format, valueCount, bitsPerValue, encoder, nextBlocks, nextValues, iterations, 0, 0,
    false⟩

/-- `flush`. -/
def flush (w : PackedWriter) : Result PackedWriter := do
  let nextBlocks ← ofCall (w.encoder.encodeBytes w.nextValues w.nextBlocks w.iterations)
  let blockCount := w.format.byteCount w.off w.bitsPerValue
  let bytes ← .expect (slice nextBlocks 0 blockCount)
  .ok { w with
    out := writeBytes w.out bytes
    nextBlocks := nextBlocks
    nextValues := List.replicate w.nextValues.length 0#64
    off := 0 }

/-- A known number of values is not exceeded. -/
def checkCount (w : PackedWriter) : Result Unit :=
  match w.valueCount with
  | some count => if count ≤ w.written then .err (.eof w.written) else .ok ()
  | none => .ok ()

/-- The flush of `add`. -/
def flushIfFull (w : PackedWriter) : Result PackedWriter :=
  if w.off = w.nextValues.length then w.flush else .ok w

/-- `add`. -/
def add (w : PackedWriter) (v : U64) : Result PackedWriter := do
  .guardOk (unsignedBitsRequired v ≤ w.bitsPerValue)
  .guardOk (w.finished = false)
  w.checkCount
  .guardOk (w.off < w.nextValues.length)
  let w ← flushIfFull { w with nextValues := w.nextValues.set w.off v, off := w.off + 1 }
  .ok { w with written := w.written + 1 }

/-- The loop of `finish`. -/
def padPass (count : Nat) (w : PackedWriter) : Result (PackedWriter ⊕ PackedWriter) :=
  if w.written < count then do
    let w ← w.add 0#64
    .ok (.inl w)
  else .ok (.inr w)

/-- The padding of `finish`. -/
def pad (w : PackedWriter) : Result PackedWriter :=
  match w.valueCount with
  | some count => iterate (padPass count) (count + 1) w
  | none => .ok w

/-- `finish`. -/
def finish (w : PackedWriter) : Result PackedWriter := do
  .guardOk (w.finished = false)
  let w ← w.pad
  let w ← w.flush
  .ok { w with finished := true }

end PackedWriter

/-- A stream of values: what stands in the output after `finish`. -/
def writeStream (out : List U8) (format : Format) (valueCount : Option Nat)
    (bitsPerValue mem : Nat) (values : List U64) : Result (List U8) := do
  let w ← PackedWriter.new out format valueCount bitsPerValue mem
  let w ← values.foldlM PackedWriter.add w
  let w ← w.finish
  .ok w.out

/-! ## The reader -/

/-- `PackedReaderIterator`. -/
structure PackedReaderIterator where
  input : SliceInput
  format : Format
  valueCount : Nat
  bitsPerValue : Nat
  bulkOperation : BulkOperation
  nextBlocks : List U8
  nextValues : List U64
  valuesOffset : Nat
  valuesLength : Nat
  iterations : Nat
  position : Int

namespace PackedReaderIterator

/-- `PackedReaderIterator::new`. -/
def new (input : SliceInput) (format : Format) (version : Int)
    (valueCount bitsPerValue mem : Nat) : Result PackedReaderIterator := do
  checkVersion version
  if format.isSupported bitsPerValue = false then
    .err (.corrupted ("unsupported bitsPerValue " ++ toString bitsPerValue ++ " for " ++
      formatName format))
  else if input.remaining < format.byteCount valueCount bitsPerValue then
    .err (.eof input.remaining)
  else do
    let bulkOperation ← ofCall (BulkOperation.of format bitsPerValue)
    let iterations := bulkOperation.computeIterations valueCount mem
    let nextBlocks ← byteBuffer (iterations * bulkOperation.byteBlockCount)
    let nextValues ← ofCall (vecZeroed (iterations * bulkOperation.byteValueCount))
    .ok ⟨input, format, valueCount, bitsPerValue, bulkOperation, nextBlocks, nextValues,
      iterations * bulkOperation.byteValueCount, 0, iterations, -1⟩

/-- The read of a buffer in `next_values`. -/
def refill (it : PackedReaderIterator) (remaining : Nat) : Result PackedReaderIterator := do
  let remainingBlocks := it.format.byteCount remaining it.bitsPerValue
  let blocksToRead := min remainingBlocks it.nextBlocks.length
  let (bytes, input) ← it.input.readN blocksToRead
  let nextBlocks := bytes ++ List.replicate (it.nextBlocks.length - blocksToRead) 0#8
  let nextValues ← ofCall (it.bulkOperation.decodeBytes nextBlocks it.nextValues it.iterations)
  .ok { it with
    input := input, nextBlocks := nextBlocks, nextValues := nextValues, valuesOffset := 0 }

/-- A buffer is read when the last one is used up. -/
def refillIfEmpty (it : PackedReaderIterator) (remaining : Nat) : Result PackedReaderIterator :=
  if it.valuesOffset = it.nextValues.length then it.refill remaining else .ok it

/-- `next_values`. -/
def next (it : PackedReaderIterator) (count : Nat) :
    Result (List U64 × PackedReaderIterator) := do
  .guardOk (0 < count)
  let it := { it with valuesOffset := it.valuesOffset + it.valuesLength }
  let remaining := (it.valueCount : Int) - it.position - 1
  if remaining ≤ 0 then .err (.eof it.valueCount)
  else do
    let count := min remaining.toNat count
    let it ← it.refillIfEmpty remaining.toNat
    let room ← sub it.nextValues.length it.valuesOffset
    let valuesLength := min room count
    let values ← .expect (slice it.nextValues it.valuesOffset (it.valuesOffset + valuesLength))
    .ok (values, { it with
      valuesLength := valuesLength, position := it.position + valuesLength })

/-- What calls of `next_values` return, up to the first that fails. -/
def nextAll (it : PackedReaderIterator) : List Nat → List (Result (List U64))
  | [] => []
  | k :: ks =>
    match it.next k with
    | .ok (values, it) => .ok values :: it.nextAll ks
    | .err e => [.err e]
    | .panic => [.panic]

end PackedReaderIterator

end LuceneRust.Codecs.PackedInts
