import LuceneRust.Lib.WordOps
import LuceneRust.Store.DataInput
import LuceneRust.Store.DataOutput
import LuceneRust.Util.Packed.Mutable

/-!
# `lucene_codecs::indexed_disi`

A set of documents, in blocks of 65,536: a list of the low halves of the ids
(SPARSE), a bit set with an optional rank table (DENSE), or nothing at all
where every document is there (ALL).  The block of `i32::MAX` ends the
structure, and a table of the blocks may follow it.

An `i32` or `i64` is an integer, and a cast is written out where a value may
be out of its range.
-/

namespace LuceneRust.Codecs.IndexedDisi

open RustSem WordTape
open Store (Result SliceInput writeI16 writeI32 writeI64)
open Util.Packed (Call)

/-- `MAX_ARRAY_LENGTH`. -/
def maxArrayLength : Nat := 4095

/-- `BLOCK_SIZE`. -/
def blockSize : Nat := 65536

/-- `DENSE_BLOCK_LONGS`. -/
def denseBlockLongs : Nat := 1024

/-- `NO_RANK`. -/
def noRank : U8 := 0xFF#8

/-- `NO_MORE_DOCS`, which is `i32::MAX`. -/
def noMoreDocs : Int := 2147483647

/-- `dense_rank_bytes`. -/
def denseRankBytes (denseRankPower : U8) : Result Nat :=
  if denseRankPower = noRank then .ok 0
  else if ¬(7 ≤ denseRankPower.toNat ∧ denseRankPower.toNat ≤ 15) then
    .err (.corrupted ("IndexedDISI denseRankPower must be 7-15 or 0xFF (none), got " ++
      toString denseRankPower.toNat))
  else .ok (denseBlockLongs >>> (denseRankPower.toNat - 7))

/-! ## `decode_doc_ids` -/

/-- The closure `check` of `decode_doc_ids_below`. -/
def checkDocs (maxDoc first end' last : Int) : Result Unit :=
  if first ≤ last ∨ maxDoc ≤ end' then
    .err (.corrupted ("IndexedDISI documents " ++ toString first ++ "..=" ++ toString end' ++
      " after document " ++ toString last ++ " in a segment of " ++ toString maxDoc ++
      ": out of order or past the segment"))
  else .ok ()

/-- The state of `decode_doc_ids_below`: `docs`, `last` and `input`. -/
abbrev DecodeState := List Int × Int × SliceInput

/-- The documents of a SPARSE block, and whether the sentinel was among
them. -/
def takeSparse (maxDoc : Int) (block : Nat) : Nat → DecodeState → Result (Bool × DecodeState)
  | 0, s => .ok (false, s)
  | n + 1, (docs, last, inp) => do
    let (low, inp) ← inp.readU16
    let doc : Int := ((block <<< 16) ||| low.toNat : Nat)
    if doc = noMoreDocs then .ok (true, docs, last, inp)
    else do
      checkDocs maxDoc doc doc last
      takeSparse maxDoc block n (docs ++ [doc], doc, inp)

/-- One turn of the loop over the bits of a word of a DENSE block. -/
def takeBitPass (start : Int) (s : U64 × List Int) : Result ((U64 × List Int) ⊕ List Int) :=
  let (w, docs) := s
  if w ≠ 0#64 then .ok (.inl (w &&& (w - 1#64), docs ++ [start + w.ctz.toNat]))
  else .ok (.inr docs)

/-- The words of a DENSE block, of the given indices. -/
def takeDense (maxDoc base : Int) : List Nat → DecodeState → Result DecodeState
  | [], s => .ok s
  | i :: is, (docs, last, inp) => do
    let (word, inp) ← inp.readI64
    if word = 0#64 then takeDense maxDoc base is (docs, last, inp)
    else do
      let start := base + (i : Int) * 64
      let end' := start + 63 - word.clz.toNat
      checkDocs maxDoc (start + word.ctz.toNat) end' last
      let docs ← iterate (takeBitPass start) 65 (word, docs)
      takeDense maxDoc base is (docs, end', inp)

/-- One turn of the loop of `decode_doc_ids_below`: one block. -/
def decodePass (denseRankPower : U8) (maxDoc : Int) (s : DecodeState) :
    Result (DecodeState ⊕ List Int) := do
  let (docs, last, inp) := s
  let (block, inp) ← inp.readU16
  let (n, inp) ← inp.readU16
  let numValues := 1 + n.toNat
  let base : Int := (block.toNat <<< 16 : Nat)
  if numValues ≤ maxArrayLength then do
    let (reachedSentinel, docs, last, inp) ←
      takeSparse maxDoc block.toNat numValues (docs, last, inp)
    if reachedSentinel then .ok (.inr docs) else .ok (.inl (docs, last, inp))
  else if numValues = blockSize then do
    let end' := base + blockSize - 1
    checkDocs maxDoc base end' last
    .ok (.inl (docs ++ (List.range blockSize).map fun i : Nat => base + (i : Int), end', inp))
  else do
    let rank ← denseRankBytes denseRankPower
    let inp ← inp.skip rank
    let s ← takeDense maxDoc base (List.range denseBlockLongs) (docs, last, inp)
    .ok (.inl s)

/-- `decode_doc_ids_below`. -/
def decodeDocIdsBelow (data : List U8) (denseRankPower : U8) (maxDoc : Int) :
    Result (List Int) :=
  iterate (decodePass denseRankPower maxDoc) (data.length + 1) ([], -1, SliceInput.new data)

/-- `decode_doc_ids`. -/
def decodeDocIds (data : List U8) (denseRankPower : U8) : Result (List Int) :=
  decodeDocIdsBelow data denseRankPower noMoreDocs

/-! ## `or_into_words` -/

/-- The closure `past` of `or_into_words`. -/
def past {α : Type} (len doc : Nat) : Result α :=
  .err (.corrupted ("IndexedDISI document " ++ toString doc ++ " past a " ++ toString (len * 64) ++
    "-document set"))

/-- The documents of a SPARSE block, and whether the sentinel was among
them. -/
def orSparse (block : Nat) : Nat → List U64 × SliceInput → Result (Bool × List U64 × SliceInput)
  | 0, s => .ok (false, s)
  | n + 1, (words, inp) => do
    let (low, inp) ← inp.readU16
    let doc := (block <<< 16) ||| low.toNat
    if (doc : Int) = noMoreDocs then .ok (true, words, inp)
    else if words.length ≤ doc >>> 6 then past words.length doc
    else orSparse block n (words.modify (doc >>> 6) (· ||| oneBit (doc &&& 63)), inp)

/-- The words of a DENSE block, of the given indices. -/
def orDense (baseWord : Nat) : List Nat → List U64 × SliceInput → Result (List U64 × SliceInput)
  | [], s => .ok s
  | i :: is, (words, inp) => do
    let (word, inp) ← inp.readI64
    if word = 0#64 then orDense baseWord is (words, inp)
    else if words.length ≤ baseWord + i then past words.length ((baseWord + i) <<< 6)
    else orDense baseWord is (words.modify (baseWord + i) (· ||| word), inp)

/-- One turn of the loop of `or_into_words`: one block. -/
def orPass (denseRankPower : U8) (s : List U64 × SliceInput) :
    Result ((List U64 × SliceInput) ⊕ List U64) := do
  let (words, inp) := s
  let (block, inp) ← inp.readU16
  let (n, inp) ← inp.readU16
  let numValues := 1 + n.toNat
  let baseWord := block.toNat <<< 10
  if numValues ≤ maxArrayLength then do
    let (reachedSentinel, words, inp) ← orSparse block.toNat numValues (words, inp)
    if reachedSentinel then .ok (.inr words) else .ok (.inl (words, inp))
  else if numValues = blockSize then
    let end' := baseWord + denseBlockLongs
    if words.length < end' then past words.length ((end' <<< 6) - 1)
    else .ok (.inl (splice words baseWord (List.replicate denseBlockLongs (BitVec.allOnes 64)), inp))
  else do
    let rank ← denseRankBytes denseRankPower
    let inp ← inp.skip rank
    let s ← orDense baseWord (List.range denseBlockLongs) (words, inp)
    .ok (.inl s)

/-- `or_into_words`: the words after a call that returns. -/
def orIntoWords (data : List U8) (denseRankPower : U8) (words : List U64) : Result (List U64) :=
  iterate (orPass denseRankPower) (data.length + 1) (words, SliceInput.new data)

/-! ## The writer -/

/-- `add_jumps`. -/
def addJumps (jumps : List (Int × Int)) (offset : Nat) (index : Int) (startBlock endBlock : Nat) :
    Call (List (Int × Int)) := do
  .guardOk (jumps.length = startBlock)
  .guardOk ((offset : Int) ≤ noMoreDocs)
  .ok (jumps ++ List.replicate (endBlock - startBlock) (index, (offset : Int)))

/-- One turn of the loop of `create_rank`, at a word and its index.  The state
is `rank` and `bit_count`. -/
def createRankPass (denseRankPower : Nat) (s : List U8 × Nat) (p : U64 × Nat) :
    Call (List U8 × Nat) := do
  let (rank, bitCount) := s
  let (w, word) := p
  let rankMark := (1 <<< (denseRankPower - 6)) - 1
  let at' := word >>> (denseRankPower - 7)
  if word &&& rankMark = 0 then do
    .guardOk (at' + 1 < rank.length)
    .ok ((rank.set at' (BitVec.ofNat 8 (bitCount >>> 8))).set (at' + 1)
      (BitVec.ofNat 8 (bitCount &&& 0xFF)), bitCount + countOnes w)
  else .ok (rank, bitCount + countOnes w)

/-- `create_rank`. -/
def createRank (words : List U64) (denseRankPower : Nat) : Call (List U8) := do
  .guardOk (words.length = denseBlockLongs)
  let rank := List.replicate (denseBlockLongs >>> (denseRankPower - 7)) 0#8
  let (rank, _) ← words.zipIdx.foldlM (createRankPass denseRankPower) (rank, 0)
  .ok rank

/-- Set the bit of a document of a DENSE block. -/
def setRel (blockBase : Int) (words : List U64) (d : Int) : Call (List U64) := do
  let rel := (d - blockBase).toNat
  .guardOk (rel / 64 < words.length)
  .ok (words.modify (rel / 64) (· ||| oneBit (rel % 64)))

/-- What a block holds behind its header. -/
def writePayload (denseRankPower : U8) (blockBase : Int) (blockDocs : List Int) (out : List U8) :
    Call (List U8) := do
  if blockDocs.length ≤ maxArrayLength then
    .ok (blockDocs.foldl (fun out d => writeI16 out (BitVec.ofInt 16 (d - blockBase))) out)
  else if blockDocs.length = blockSize then .ok out
  else do
    let words ← blockDocs.foldlM (setRel blockBase) (List.replicate denseBlockLongs 0#64)
    if denseRankPower ≠ noRank then do
      let rank ← createRank words denseRankPower.toNat
      .ok (words.foldl writeI64 (out ++ rank))
    else .ok (words.foldl writeI64 out)

/-- The state of the loop of `write_with_dense_rank_power`: `docs` are the
documents from `i` on. -/
structure WriteState where
  docs : List Int
  out : List U8
  jumps : List (Int × Int)
  lastBlock : Nat
  totalCardinality : Int

/-- One turn of the loop of `write_with_dense_rank_power`: one block. -/
def writePass (denseRankPower : U8) (s : WriteState) : Call (WriteState ⊕ WriteState) :=
  match s.docs with
  | [] => .ok (.inr s)
  | doc :: _ => do
    let block : U16 := BitVec.ofInt 16 (doc >>> (16 : Nat))
    let blockBase : Int := (block.toNat <<< 16 : Nat)
    let blockEnd := blockBase + blockSize
    let blockDocs := s.docs.takeWhile fun d => d < blockEnd
    let count := blockDocs.length
    let jumps ← addJumps s.jumps s.out.length s.totalCardinality s.lastBlock (block.toNat + 1)
    let out := s.out ++ toLeBytes 2 block ++ toLeBytes 2 (BitVec.ofNat 16 (count - 1))
    let out ← writePayload denseRankPower blockBase blockDocs out
    .ok (.inl ⟨s.docs.dropWhile fun d => d < blockEnd, out, jumps, block.toNat + 1,
      s.totalCardinality + count⟩)

/-- The two words of an entry of the jump table. -/
def writeJump (out : List U8) (jump : Int × Int) : List U8 :=
  writeI32 (writeI32 out (BitVec.ofInt 32 jump.1)) (BitVec.ofInt 32 jump.2)

/-- `write_with_dense_rank_power`. -/
def writeWithDenseRankPower (docIds : List Int) (denseRankPower : U8) :
    Call (List U8 × Int) := do
  .guardOk (denseRankPower = noRank ∨
    (7 ≤ denseRankPower.toNat ∧ denseRankPower.toNat ≤ 15))
  .guardOk (docIds.IsChain (· < ·))
  .guardOk (docIds.getLast? ≠ some noMoreDocs)
  .guardOk (∀ d ∈ docIds.head?, 0 ≤ d)
  let s ← iterate (writePass denseRankPower) (docIds.length + 1) ⟨docIds, [], [], 0, 0⟩
  let jumps ← addJumps s.jumps s.out.length s.totalCardinality s.lastBlock (s.lastBlock + 1)
  let sentinelBlock : U16 := BitVec.ofInt 16 (noMoreDocs >>> (16 : Nat))
  let out := s.out ++ toLeBytes 2 sentinelBlock ++ toLeBytes 2 0#16
  let out := writeI16 out (BitVec.ofInt 16 noMoreDocs)
  let blockCount := if s.lastBlock + 1 = 2 then 0 else s.lastBlock + 1
  let out := (jumps.take blockCount).foldl writeJump out
  .ok (out, (BitVec.ofNat 16 blockCount).toInt)

/-- `write`. -/
def write (docIds : List Int) : Call (List U8 × Int) :=
  writeWithDenseRankPower docIds noRank

end LuceneRust.Codecs.IndexedDisi
