import LuceneRust.Codecs.IndexedDisi

/-!
# `lucene_codecs::indexed_disi::DisiCursor`

A forward-only cursor over a region that `write_with_dense_rank_power` wrote:
whether a document is there, and how many are there before it.

A call that changes the cursor returns the cursor behind its result.  One that
fails returns the error alone: on a region of the writer no call fails
(`DisiCursorRuns`), so the cursor that it would leave is not needed.
-/

namespace LuceneRust.Codecs.IndexedDisi

open RustSem WordTape
open Store (Result)

/-- `read_u16_at`. -/
def readU16At (data : List U8) (pos : Nat) : Result U16 := do
  let b ← .okOr (slice data pos (pos + 2)) (.eof pos)
  .ok (fromLeBytes 16 b)

/-- `read_i32_at`. -/
def readI32At (data : List U8) (pos : Nat) : Result Int := do
  let b ← .okOr (slice data pos (pos + 4)) (.eof pos)
  .ok (fromLeBytes 32 b).toInt

/-- `Method`. -/
inductive Method where
  | sparse
  | dense
  | all
  deriving Repr, DecidableEq

/-- `DisiCursor`. -/
structure DisiCursor where
  data : List U8
  jumpTable : List U8
  jumpTableEntryCount : Int
  denseRankPower : U8
  block : Int
  blockEnd : Nat
  method : Method
  index : Int
  nextBlockIndex : Int
  doc : Int
  existsDoc : Bool
  nextExistDocInBlock : Int
  sparseDocs : List U8
  sparsePos : Nat
  denseRank : List U8
  denseBitmap : List U8
  word : U64
  wordIndex : Int
  numberOfOnes : Int
  denseOrigoIndex : Int
  gap : Int
  deriving Repr

namespace DisiCursor

/-- `at_start`. -/
def atStart (data jumpTable : List U8) (jumpTableEntryCount : Int) (denseRankPower : U8) :
    DisiCursor where
  data := data
  jumpTable := jumpTable
  jumpTableEntryCount := jumpTableEntryCount
  denseRankPower := denseRankPower
  block := -1
  blockEnd := 0
  method := .sparse
  index := -1
  nextBlockIndex := -1
  doc := -1
  existsDoc := false
  nextExistDocInBlock := -1
  sparseDocs := []
  sparsePos := 0
  denseRank := []
  denseBitmap := []
  word := 0#64
  wordIndex := -1
  numberOfOnes := 0
  denseOrigoIndex := 0
  gap := 0

/-- `new`. -/
def new (data : List U8) (denseRankPower : U8) (jumpTableEntryCount : Int) : DisiCursor :=
  let jumpBytes := jumpTableEntryCount.toNat * 8
  match checkedSub data.length jumpBytes with
  | some split =>
    if 0 < jumpBytes then
      atStart (data.take split) (data.drop split) jumpTableEntryCount denseRankPower
    else atStart data [] jumpTableEntryCount denseRankPower
  | none => atStart data [] jumpTableEntryCount denseRankPower

/-- `DisiCursor::or_into_words`. -/
def orIntoWords (c : DisiCursor) (words : List U64) : Result (List U64) :=
  IndexedDisi.orIntoWords c.data c.denseRankPower words

/-- `reset`. -/
def reset (c : DisiCursor) : DisiCursor :=
  atStart c.data c.jumpTable c.jumpTableEntryCount c.denseRankPower

/-- `DisiCursor::slice`. -/
def sliceData (c : DisiCursor) (lo hi : Nat) : Result (List U8) :=
  .okOr (slice c.data lo hi) (.eof lo)

/-- The three branches at the end of `read_block_header`: the payload of the
block, at `payload`. -/
def readPayload (c : DisiCursor) (payload numValues : Nat) : Result DisiCursor := do
  if numValues ≤ maxArrayLength then do
    let blockEnd := payload + numValues * 2
    let sparseDocs ← c.sliceData payload blockEnd
    .ok { c with
      method := .sparse, blockEnd := blockEnd, sparseDocs := sparseDocs, sparsePos := 0,
      nextExistDocInBlock := -1 }
  else if numValues = blockSize then
    .ok { c with method := .all, blockEnd := payload, gap := c.block - c.index - 1 }
  else do
    let rankLen ← denseRankBytes c.denseRankPower
    let bitmapStart := payload + rankLen
    let blockEnd := bitmapStart + denseBlockLongs * 8
    let denseRank ← c.sliceData payload bitmapStart
    let denseBitmap ← c.sliceData bitmapStart blockEnd
    .ok { c with
      method := .dense, blockEnd := blockEnd, denseRank := denseRank,
      denseBitmap := denseBitmap, word := 0#64, wordIndex := -1, numberOfOnes := c.index + 1,
      denseOrigoIndex := c.index + 1 }

/-- `read_block_header`. -/
def readBlockHeader (c : DisiCursor) : Result DisiCursor := do
  let pos := c.blockEnd
  let blockIndex ← readU16At c.data pos
  let n ← readU16At c.data (pos + 2)
  let numValues := 1 + n.toNat
  let index := c.nextBlockIndex
  if 2 ^ 63 ≤ index + numValues then
    .err (.corrupted "IndexedDISI block ordinals overflow i64")
  else
    readPayload { c with
      block := (blockIndex.setWidth 32 <<< 16).toInt, index := index,
      nextBlockIndex := index + numValues } (pos + 4) numValues

/-- One turn of the loop of `advance_block`. -/
def advanceBlockPass (targetBlock : Int) (c : DisiCursor) : Result (DisiCursor ⊕ DisiCursor) := do
  let c ← c.readBlockHeader
  if targetBlock ≤ c.block then .ok (.inr c) else .ok (.inl c)

/-- `advance_block`. -/
def advanceBlock (c : DisiCursor) (targetBlock : Int) : Result DisiCursor :=
  let blockIndex := targetBlock >>> (16 : Nat)
  if c.jumpTable ≠ [] ∧ (c.block >>> (16 : Nat)) + 2 ≤ blockIndex then do
    let inRange :=
      if blockIndex < c.jumpTableEntryCount then blockIndex.toNat
      else (c.jumpTableEntryCount - 1).toNat
    let entry := inRange * 8
    let index ← readI32At c.jumpTable entry
    let offset ← readI32At c.jumpTable (entry + 4)
    if offset < 0 then
      .err (.corrupted ("IndexedDISI jump-table offset is negative: " ++ toString offset))
    else
      readBlockHeader { c with nextBlockIndex := index - 1, blockEnd := offset.toNat }
  else iterate (advanceBlockPass targetBlock) (c.data.length + 1) c

/-- One turn of the loop of `sparse_advance_exact`. -/
def sparsePass (targetInBlock : Int) (c : DisiCursor) :
    Result (DisiCursor ⊕ (Bool × DisiCursor)) :=
  if c.index < c.nextBlockIndex ∧ c.sparsePos + 2 ≤ c.sparseDocs.length then do
    let b ← .expect (slice c.sparseDocs c.sparsePos (c.sparsePos + 2))
    let d : Int := (fromLeBytes 16 b).toNat
    let c := { c with sparsePos := c.sparsePos + 2, index := c.index + 1 }
    if targetInBlock ≤ d then
      let c := { c with nextExistDocInBlock := d }
      if d ≠ targetInBlock then
        .ok (.inr (false,
          { c with index := c.index - 1, sparsePos := c.sparsePos - 2, existsDoc := false }))
      else .ok (.inr (true, { c with existsDoc := true }))
    else .ok (.inl c)
  else .ok (.inr (false, { c with existsDoc := false }))

/-- `sparse_advance_exact`. -/
def sparseAdvanceExact (c : DisiCursor) (target : Int) : Result (Bool × DisiCursor) :=
  let targetInBlock := target % 65536
  if targetInBlock < c.nextExistDocInBlock then do
    .guardOk (c.existsDoc = false)
    .ok (false, c)
  else if target = c.doc then .ok (c.existsDoc, c)
  else iterate (sparsePass targetInBlock) (c.sparseDocs.length + 1) c

/-- `rank_skip`. -/
def rankSkip (c : DisiCursor) (targetInBlock : Nat) : Result DisiCursor := do
  let rankIndex := targetInBlock >>> c.denseRankPower.toNat
  let entry := rankIndex <<< 1
  let hi ← .expect c.denseRank[entry]?
  let lo ← .expect c.denseRank[entry + 1]?
  let rank := (hi.toNat <<< 8) ||| lo.toNat
  let rankAlignedWordIndex := (rankIndex <<< c.denseRankPower.toNat) >>> 6
  let at' := rankAlignedWordIndex * 8
  let b ← .expect (slice c.denseBitmap at' (at' + 8))
  let rankWord : U64 := fromLeBytes 64 b
  .ok { c with
    wordIndex := (rankAlignedWordIndex : Int), word := rankWord,
    numberOfOnes := c.denseOrigoIndex + rank + countOnes rankWord }

/-- One word of the run that `dense_advance_exact` counts.  The state is
`last` and `ones`. -/
def denseWord (s : U64 × Nat) (chunk : List U8) : U64 × Nat :=
  let last : U64 := fromLeBytes 64 chunk
  (last, s.2 + countOnes last)

/-- The head of `dense_advance_exact`: the rank lookup, when the jump is at
least as far as an entry covers. -/
def denseJump (c : DisiCursor) (targetInBlock : Nat) : Result DisiCursor :=
  if c.denseRank ≠ [] ∧ ((1 <<< (c.denseRankPower.toNat - 6) : Nat) : Int) ≤
      ((targetInBlock >>> 6 : Nat) : Int) - c.wordIndex then
    c.rankSkip targetInBlock
  else .ok c

/-- The run of `dense_advance_exact` over the words up to the target's. -/
def denseRun (c : DisiCursor) (targetWordIndex : Nat) : Result DisiCursor :=
  let lo := (c.wordIndex + 1).toNat * 8
  let hi := (targetWordIndex + 1) * 8
  if lo < hi then do
    let bytes ← .expect (slice c.denseBitmap lo hi)
    let (last, ones) := (chunks 8 bytes).foldl denseWord (c.word, 0)
    .ok { c with word := last, numberOfOnes := c.numberOfOnes + ones }
  else .ok c

/-- `dense_advance_exact`. -/
def denseAdvanceExact (c : DisiCursor) (target : Int) : Result (Bool × DisiCursor) := do
  let targetInBlock := (target % 65536).toNat
  let targetWordIndex := targetInBlock >>> 6
  let c ← c.denseJump targetInBlock
  let c ← c.denseRun targetWordIndex
  let leftBits := c.word >>> (targetInBlock &&& 63)
  .ok (leftBits.getLsbD 0,
    { c with wordIndex := targetWordIndex, index := c.numberOfOnes - countOnes leftBits })

/-- `advance_exact_within_block`. -/
def advanceExactWithinBlock (c : DisiCursor) (target : Int) : Result (Bool × DisiCursor) :=
  match c.method with
  | .all => .ok (true, { c with index := target - c.gap })
  | .sparse => c.sparseAdvanceExact target
  | .dense => c.denseAdvanceExact target

/-- The first document of the block of a document: `doc & !0xFFFF`. -/
def blockStart (doc : Int) : Int := doc - doc % 65536

/-- `found.then_some(self.index as usize)`. -/
def ordinal (c : DisiCursor) (found : Bool) : Option Nat :=
  if found then some c.index.toNat else none

/-- `advance_exact_in_block`. -/
def advanceExactInBlock (c : DisiCursor) (doc : Int) :
    Result (Option (Option Nat) × DisiCursor) :=
  if doc < c.doc ∨ doc = noMoreDocs ∨ blockStart doc ≠ c.block then .ok (none, c)
  else do
    let (found, c) ← c.advanceExactWithinBlock doc
    .ok (some (c.ordinal found), { c with doc := doc })

/-- The head of `advance_exact`: go on to the block of the target. -/
def seekBlock (c : DisiCursor) (targetBlock : Int) : Result DisiCursor :=
  if c.block < targetBlock then c.advanceBlock targetBlock else .ok c

/-- The lookup of `advance_exact`, in the block that the cursor is at. -/
def lookUp (c : DisiCursor) (doc : Int) : Result (Bool × DisiCursor) :=
  if c.block = blockStart doc then c.advanceExactWithinBlock doc else .ok (false, c)

/-- `advance_exact`. -/
def advanceExact (c : DisiCursor) (doc : Int) : Result (Option Nat × DisiCursor) := do
  .guardOk (0 ≤ doc)
  .guardOk (c.doc ≤ doc)
  if doc = noMoreDocs then .ok (none, { c with doc := doc })
  else do
    let c ← c.seekBlock (blockStart doc)
    let (found, c) ← c.lookUp doc
    .ok (c.ordinal found, { c with doc := doc })

/-- The words of a DENSE block's bitmap that a window covers. -/
def windowWords (c : DisiCursor) (start : Int) (len : Nat) : Result (List U64) := do
  let firstWord := (start % 65536).toNat >>> 6
  let bytes ← .expect (slice c.denseBitmap (firstWord * 8) ((firstWord + len) * 8))
  .ok ((chunks 8 bytes).map (fromLeBytes 64))

/-- The end of `window_bits`, behind `advance_exact(start)`. -/
def windowHere (c : DisiCursor) (start : Int) (words : List U64) :
    Result (Option Int × List U64 × DisiCursor) :=
  if c.block ≠ blockStart start then
    .ok (some (c.index + 1), List.replicate words.length 0#64, c)
  else match c.method with
    | .all => .ok (some c.index, List.replicate words.length (BitVec.allOnes 64), c)
    | .dense => do
      let words ← c.windowWords start words.length
      .ok (some c.index, words, c)
    | .sparse => .ok (none, words, c)

/-- `window_bits`: the answer, the words and the cursor. -/
def windowBits (c : DisiCursor) (start : Int) (words : List U64) :
    Result (Option Int × List U64 × DisiCursor) :=
  let n := words.length
  let end' := start + 64 * n
  if noMoreDocs < n * 64 ∨ noMoreDocs < end' then .ok (none, words, c)
  else if n = 0 ∨ start < 0 ∨ start % 64 ≠ 0 ∨ start < c.doc then .ok (none, words, c)
  else if blockStart (end' - 1) ≠ blockStart start then .ok (none, words, c)
  else do
    let (_, c) ← c.advanceExact start
    c.windowHere start words

end DisiCursor

end LuceneRust.Codecs.IndexedDisi
