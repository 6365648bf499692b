import LuceneRust.Lib.Compressed
import LuceneRust.Util.Packed.BulkOperation

/-!
# `lucene_util::sparse_fixed_bit_set`

A bit set that stores its non-zero words only.  The index space is cut into
blocks of 4096 bits; of each block, a word of `indices` says which of its 64
words are not zero, and `bits` holds these words in order, with zeros behind
them for the words to come.

A call returns or panics.  The unchecked accesses of the source are modelled
as checked ones.
-/

namespace LuceneRust.Util

open RustSem WordTape
open Packed (Call divCeil)

/-- `block_count`. -/
def blockCount (length : Nat) : Nat := divCeil length 4096

/-- `oversize`. -/
def oversize (s : Nat) : Nat :=
  let n := s + s / 2
  if 50 < n then 64 else n

/-- `SparseFixedBitSet`. -/
structure SparseFixedBitSet where
  indices : List U64
  bits : List (Option (List U64))
  length : Nat
  nonZeroLongCount : Nat
  indicesRoom : indices.length = blockCount length
  bitsRoom : bits.length = blockCount length

namespace SparseFixedBitSet

/-- `new`. -/
def new (length : Nat) : Call SparseFixedBitSet :=
  if 1 ≤ length ∧ 24 * blockCount length ≤ maxAlloc then
    .ok
      { indices := List.replicate (blockCount length) 0#64
        bits := List.replicate (blockCount length) none
        length := length
        nonZeroLongCount := 0
        indicesRoom := by simp
        bitsRoom := by simp }
  else .panic

/-- `clear_all`. -/
def clearAll (s : SparseFixedBitSet) : SparseFixedBitSet :=
  { s with
    indices := List.replicate s.indices.length 0#64
    bits := List.replicate s.bits.length none
    nonZeroLongCount := 0
    indicesRoom := by rw [List.length_replicate, s.indicesRoom]
    bitsRoom := by rw [List.length_replicate, s.bitsRoom] }

/-- `cardinality`. -/
def cardinality (s : SparseFixedBitSet) : Nat :=
  popcount (s.bits.flatMap fun b => b.getD [])

/-! ## Blocks -/

/-- `(index & (i64bit - 1)).count_ones()`: the words before the word of the
bit `i64bit`. -/
def ordOf (index i64bit : U64) : Nat := countOnes (index &&& (i64bit - 1#64))

/-- `self.indices[i4096]`. -/
def indexAt (s : SparseFixedBitSet) (i4096 : Nat) : Call U64 :=
  .expect s.indices[i4096]?

/-- `self.bits[i4096].as_ref().expect("block")`. -/
def blockAt (s : SparseFixedBitSet) (i4096 : Nat) : Call (List U64) := do
  let block ← .expect s.bits[i4096]?
  .expect block

/-- The index and the words of a block, replaced. -/
def putBlock (s : SparseFixedBitSet) (i4096 : Nat) (index : U64)
    (block : Option (List U64)) (count : Nat) : SparseFixedBitSet :=
  { s with
    indices := s.indices.set i4096 index
    bits := s.bits.set i4096 block
    nonZeroLongCount := count
    indicesRoom := by rw [List.length_set, s.indicesRoom]
    bitsRoom := by rw [List.length_set, s.bitsRoom] }

/-- The words of a block with `value` inserted before word `o`: into a free
slot at the end, or into a larger array. -/
def insertWord (block : List U64) (o : Nat) (value : U64) : Call (List U64) := do
  let last ← .expect block.getLast?
  if last = 0#64 then
    -- shift right by one
    .guardOk (o ≤ block.length - 1)
    let block ← copyWithin block o (block.length - 1 - o) (o + 1)
    .guardOk (o < block.length)
    .ok (block.set o value)
  else
    let newSize := oversize (block.length + 1)
    .guardOk (o ≤ block.length ∧ block.length + 1 ≤ newSize)
    let grown := splice (List.replicate newSize 0#64) 0 (block.take o)
    .ok (splice (grown.set o value) (o + 1) (block.drop o))

/-- `insert`: add a new non-zero word. -/
def insert (s : SparseFixedBitSet) (i4096 : Nat) (i64bit value index : U64) :
    Call SparseFixedBitSet :=
  if index = 0#64 then do
    let block ← .expect s.bits[i4096]?
    .guardOk (block = none)
    .ok (s.putBlock i4096 i64bit (some [value]) (s.nonZeroLongCount + 1))
  else do
    let old ← s.indexAt i4096
    let block ← s.blockAt i4096
    let block ← insertWord block (ordOf index i64bit) value
    .ok (s.putBlock i4096 (old ||| i64bit) (some block) (s.nonZeroLongCount + 1))

/-- `remove_long`. -/
def removeLong (s : SparseFixedBitSet) (i4096 i64 : Nat) (index : U64) (o : Nat) :
    Call SparseFixedBitSet := do
  let index := index &&& ~~~oneBit i64
  let count ← sub s.nonZeroLongCount 1
  if index = 0#64 then .ok (s.putBlock i4096 index none count)
  else
    let length := countOnes index
    let block ← s.blockAt i4096
    .guardOk (o ≤ length)
    let block ← copyWithin block (o + 1) (length - o) o
    .guardOk (length < block.length)
    .ok (s.putBlock i4096 index (some (block.set length 0#64)) count)

/-- `or_long`. -/
def orLong (s : SparseFixedBitSet) (i4096 i64 : Nat) (newBits : U64) :
    Call SparseFixedBitSet :=
  if newBits = 0#64 then .ok s
  else do
    let index ← s.indexAt i4096
    let i64bit := oneBit i64
    if index &&& i64bit ≠ 0#64 then
      let o := ordOf index i64bit
      let block ← s.blockAt i4096
      let word ← .expect block[o]?
      .ok (s.putBlock i4096 index (some (block.set o (word ||| newBits)))
        s.nonZeroLongCount)
    else s.insert i4096 i64bit newBits index

/-- `and`. -/
def and (s : SparseFixedBitSet) (i4096 i64 : Nat) (mask : U64) :
    Call SparseFixedBitSet := do
  let index ← s.indexAt i4096
  if index &&& oneBit i64 ≠ 0#64 then
    let o := ordOf index (oneBit i64)
    let block ← s.blockAt i4096
    let word ← .expect block[o]?
    let b := word &&& mask
    if b = 0#64 then s.removeLong i4096 i64 index o
    else
      .ok (s.putBlock i4096 index (some (block.set o b)) s.nonZeroLongCount)
  else .ok s

/-! ## Single bits -/

/-- `get`. -/
def get (s : SparseFixedBitSet) (i : Nat) : Call Bool := do
  .guardOk (i < s.length)
  let index ← s.indexAt (i / 4096)
  let i64bit := oneBit (i / 64 % 64)
  if index &&& i64bit = 0#64 then .ok false
  else
    let block ← s.blockAt (i / 4096)
    let word ← .expect block[ordOf index i64bit]?
    .ok ((word &&& oneBit (i % 64)) != 0#64)

/-- `get_and_set`. -/
def getAndSet (s : SparseFixedBitSet) (i : Nat) : Call (SparseFixedBitSet × Bool) := do
  .guardOk (i < s.length)
  let index ← s.indexAt (i / 4096)
  let i64bit := oneBit (i / 64 % 64)
  if index &&& i64bit ≠ 0#64 then
    let o := ordOf index i64bit
    let bit := oneBit (i % 64)
    let block ← s.blockAt (i / 4096)
    let word ← .expect block[o]?
    .ok (s.putBlock (i / 4096) index (some (block.set o (word ||| bit)))
      s.nonZeroLongCount, (word &&& bit) != 0#64)
  else
    let t ← s.insert (i / 4096) i64bit (oneBit (i % 64)) index
    .ok (t, false)

/-- `set`. -/
def set (s : SparseFixedBitSet) (i : Nat) : Call SparseFixedBitSet := do
  let (t, _) ← s.getAndSet i
  .ok t

/-- `clear`. -/
def clear (s : SparseFixedBitSet) (i : Nat) : Call SparseFixedBitSet := do
  .guardOk (i < s.length)
  s.and (i / 4096) (i / 64 % 64) (~~~oneBit (i % 64))

/-! ## Ranges -/

/-- `mask`: the bits `lo..=hi` of a word. -/
def mask (lo hi : Nat) : U64 :=
  let span := hi - lo + 1
  let m := if 64 ≤ span then BitVec.allOnes 64 else oneBit span - 1#64
  m <<< (lo % 64)

/-- `clear_within_block`, the last word first. -/
def clearWithinBlock (s : SparseFixedBitSet) (i4096 lo hi : Nat) :
    Call SparseFixedBitSet :=
  let first := lo / 64
  let last := hi / 64
  if first = last then s.and i4096 first (~~~mask (lo % 64) (hi % 64))
  else do
    let s ← s.and i4096 last (~~~mask 0 (hi % 64))
    let s ← (List.range' (first + 1) (last - (first + 1))).reverse.foldlM
      (fun s i => s.and i4096 i 0#64) s
    s.and i4096 first (~~~mask (lo % 64) 63)

/-- `set_within_block`, the last word first. -/
def setWithinBlock (s : SparseFixedBitSet) (i4096 lo hi : Nat) :
    Call SparseFixedBitSet :=
  let first := lo / 64
  let last := hi / 64
  if first = last then s.orLong i4096 first (mask (lo % 64) (hi % 64))
  else do
    let s ← s.orLong i4096 last (mask 0 (hi % 64))
    let s ← (List.range' (first + 1) (last - (first + 1))).foldlM
      (fun s i => s.orLong i4096 i (BitVec.allOnes 64)) s
    s.orLong i4096 first (mask (lo % 64) 63)

/-- `set(startIndex, endIndex)`. -/
def setRange (s : SparseFixedBitSet) (lo hi : Nat) : Call SparseFixedBitSet :=
  if hi ≤ lo then .ok s
  else do
    .guardOk (lo < s.length ∧ hi ≤ s.length)
    let first := lo / 4096
    let last := (hi - 1) / 4096
    if first = last then s.setWithinBlock first (lo % 4096) ((hi - 1) % 4096)
    else
      let s ← s.setWithinBlock first (lo % 4096) 4095
      let s ← (List.range' (first + 1) (last - (first + 1))).foldlM
        (fun s i => s.setWithinBlock i 0 4095) s
      s.setWithinBlock last 0 ((hi - 1) % 4096)

/-- The whole blocks of `clear(from, to)`. -/
def dropBlock (s : SparseFixedBitSet) (i : Nat) : Call SparseFixedBitSet := do
  let index ← s.indexAt i
  let count ← sub s.nonZeroLongCount (countOnes index)
  .ok (s.putBlock i 0#64 none count)

/-- `clear(from, to)`. -/
def clearRange (s : SparseFixedBitSet) (lo hi : Nat) : Call SparseFixedBitSet :=
  if hi ≤ lo then .ok s
  else do
    .guardOk (hi ≤ s.length)
    let first := lo / 4096
    let last := (hi - 1) / 4096
    if first = last then s.clearWithinBlock first (lo % 4096) ((hi - 1) % 4096)
    else
      let s ← s.clearWithinBlock first (lo % 4096) 4095
      let s ← (List.range' (first + 1) (last - (first + 1))).foldlM dropBlock s
      s.clearWithinBlock last 0 ((hi - 1) % 4096)

/-! ## Unions -/

/-- `or(DocIdSetIterator)`. -/
def orIter (s : SparseFixedBitSet) (docs : List Nat) : Call SparseFixedBitSet :=
  docs.foldlM set s

/-- One word of a block of `or`: the set, the index bits that are left and
the next word. -/
def orPass (i4096 : Nat) (block : List U64) (st : SparseFixedBitSet × U64 × Nat) :
    Call ((SparseFixedBitSet × U64 × Nat) ⊕ SparseFixedBitSet) :=
  let (s, idx, o) := st
  if idx = 0#64 then .ok (.inr s)
  else do
    let word ← .expect block[o]?
    let s ← s.orLong i4096 idx.ctz.toNat word
    .ok (.inl (s, idx &&& (idx - 1#64), o + 1))

/-- One block of `or`.  An index word has at most 64 bits. -/
def orBlock (s other : SparseFixedBitSet) (i4096 : Nat) : Call SparseFixedBitSet := do
  let index ← other.indexAt i4096
  if index = 0#64 then .ok s
  else
    let block ← other.blockAt i4096
    iterate (orPass i4096 block) 65 (s, index, 0)

/-- `or(SparseFixedBitSet)`. -/
def or (s other : SparseFixedBitSet) : Call SparseFixedBitSet :=
  (List.range (min other.indices.length s.indices.length)).foldlM
    (fun s i4096 => s.orBlock other i4096) s

/-! ## Queries -/

/-- `word`. -/
def word (s : SparseFixedBitSet) (w : Nat) : Call U64 := do
  let index ← s.indexAt (w / 64)
  let i64bit := oneBit (w % 64)
  if index &&& i64bit = 0#64 then .ok 0#64
  else
    let block ← s.blockAt (w / 64)
    .expect block[ordOf index i64bit]?

/-- `first_doc`, over the blocks that are left. -/
def firstDoc (s : SparseFixedBitSet) : List Nat → Call (Option Nat)
  | [] => .ok none
  | i4096 :: rest => do
    let index ← s.indexAt i4096
    if index ≠ 0#64 then
      let block ← s.blockAt i4096
      let w ← .expect block[0]?
      .ok (some (4096 * i4096 + 64 * index.ctz.toNat + w.ctz.toNat))
    else s.firstDoc rest

/-- The answer below the upper bound. -/
def below (upperBound r : Nat) : Option Nat := if r < upperBound then some r else none

/-- `next_set_bit_in_range` from the words behind the word of `start`. -/
def nextSetWord (s : SparseFixedBitSet) (i4096 i64 : Nat) (index : U64) (o : Nat)
    (upperBound : Nat) : Call (Option Nat) :=
  let indexBits := (index >>> i64) >>> 1
  if indexBits = 0#64 then do
    let upper := if upperBound = s.length then s.indices.length else blockCount upperBound
    let r ← s.firstDoc (List.range' (i4096 + 1) (upper - (i4096 + 1)))
    .ok (r.bind (below upperBound))
  else do
    let i64 := i64 + (1 + indexBits.ctz.toNat)
    let block ← s.blockAt i4096
    let w ← .expect block[o]?
    .ok (below upperBound (4096 * i4096 + 64 * i64 + w.ctz.toNat))

/-- `next_set_bit_in_range`. -/
def nextSetBitInRange (s : SparseFixedBitSet) (start upperBound : Nat) :
    Call (Option Nat) :=
  if upperBound ≤ start then .ok none
  else do
    let i4096 := start / 4096
    let index ← s.indexAt i4096
    let i64 := start / 64 % 64
    let i64bit := oneBit i64
    let o := ordOf index i64bit
    if index &&& i64bit ≠ 0#64 then
      let block ← s.blockAt i4096
      let word ← .expect block[o]?
      let b := word >>> (start % 64)
      if b ≠ 0#64 then .ok (below upperBound (start + b.ctz.toNat))
      else s.nextSetWord i4096 i64 index (o + 1) upperBound
    else s.nextSetWord i4096 i64 index o upperBound

/-- `next_set_bit`. -/
def nextSetBit (s : SparseFixedBitSet) (i : Nat) : Call (Option Nat) :=
  if s.length ≤ i then .ok none else s.nextSetBitInRange i s.length

/-- The loop of `next_clear_bit_in_range`, over the words that are left. -/
def nextClearWord (s : SparseFixedBitSet) (upperBound : Nat) :
    Nat → List Nat → Call (Option Nat)
  | _, [] => .ok none
  | lo, w :: rest => do
    let index ← s.indexAt (w / 64)
    let i64bit := oneBit (w % 64)
    if index &&& i64bit = 0#64 then .ok (below upperBound (64 * w + lo))
    else
      let block ← s.blockAt (w / 64)
      let word ← .expect block[ordOf index i64bit]?
      let clear := ~~~word &&& fromBit lo
      if clear = 0#64 then s.nextClearWord upperBound 0 rest
      else .ok (below upperBound (64 * w + clear.ctz.toNat))

/-- `next_clear_bit_in_range`. -/
def nextClearBitInRange (s : SparseFixedBitSet) (start upperBound : Nat) :
    Call (Option Nat) :=
  let upperBound := min upperBound s.length
  if upperBound ≤ start then .ok none
  else
    let last := (upperBound - 1) / 64
    s.nextClearWord upperBound (start % 64)
      (List.range' (start / 64) (last + 1 - start / 64))

/-- `next_clear_bit`. -/
def nextClearBit (s : SparseFixedBitSet) (index : Nat) : Call (Option Nat) :=
  s.nextClearBitInRange index s.length

/-- `last_doc`, from the block before `i4096` down. -/
def lastDoc (s : SparseFixedBitSet) : Nat → Call (Option Nat)
  | 0 => .ok none
  | i4096 + 1 => do
    let index ← s.indexAt i4096
    if index ≠ 0#64 then
      let block ← s.blockAt i4096
      let w ← .expect block[countOnes index - 1]?
      .ok (some (4096 * i4096 + 64 * Compressed.topBit index + Compressed.topBit w))
    else s.lastDoc i4096

/-- `prev_set_bit` from the words before the word of `i`. -/
def prevSetWord (s : SparseFixedBitSet) (i4096 : Nat) (indexBits : U64) :
    Call (Option Nat) :=
  if indexBits = 0#64 then s.lastDoc i4096
  else do
    let block ← s.blockAt i4096
    let o ← sub (countOnes indexBits) 1
    let w ← .expect block[o]?
    .ok (some (4096 * i4096 + 64 * Compressed.topBit indexBits + Compressed.topBit w))

/-- `prev_set_bit`. -/
def prevSetBit (s : SparseFixedBitSet) (i : Nat) : Call (Option Nat) := do
  .guardOk (i < s.length)
  let i4096 := i / 4096
  let index ← s.indexAt i4096
  let i64 := i / 64 % 64
  let indexBits := index &&& (oneBit i64 - 1#64)
  if index &&& oneBit i64 ≠ 0#64 then
    let bitMask := if i % 64 = 63 then BitVec.allOnes 64 else oneBit (i % 64 + 1) - 1#64
    let block ← s.blockAt i4096
    let word ← .expect block[countOnes indexBits]?
    let b := word &&& bitMask
    if b ≠ 0#64 then
      .ok (some (4096 * i4096 + 64 * i64 + Compressed.topBit b))
    else s.prevSetWord i4096 indexBits
  else s.prevSetWord i4096 indexBits

/-- `non_zero_long_count`. -/
def longCount (s : SparseFixedBitSet) : Nat := s.nonZeroLongCount

end SparseFixedBitSet

end LuceneRust.Util
