import LuceneRust.Codecs.DirectReader
import LuceneRust.Store.DataInput

/-!
# `lucene_codecs::direct_monotonic`

A monotonic sequence of longs in blocks.  A block has a `min` and an average
slope `avg`, and packs only the deltas from that line.

Three readers answer for one sequence: `get` (checked on every call),
`Reader` (each block's packed reader resolved once) and `fill` (a run of
consecutive indexes).

The two floating-point expressions are the parameter `FloatOps`, over the
bits of an `f32`.  Arithmetic on `i64` is the source's own `wrapping_add` and
`wrapping_sub`.
-/

namespace LuceneRust.Codecs.DirectMonotonic

open RustSem
open Store (Result Error SliceInput)
open DirectReader (isSupportedBits unsignedBitsRequired paddingBytesNeeded)
open Util (PackedLongs)

/-- The floating-point expressions of the module, on the bits of an `f32`. -/
structure FloatOps where
  /-- `(diff as f64 / n as f64) as f32`. -/
  avgInc : U64 → Nat → U32
  /-- `(avg * i as f32) as i64`. -/
  scaled : U32 → Nat → U64

/-- `MIN_BLOCK_SHIFT`. -/
def minBlockShift : Nat := 2

/-- `MAX_BLOCK_SHIFT`. -/
def maxBlockShift : Nat := 22

/-- `Block`: the header of one block, with a width that `load_meta` lets
through. -/
structure Block where
  min : U64
  offset : U64
  avg : U32
  bpv : U8
  bpv_ok : bpv = 0#8 ∨ isSupportedBits bpv = true

/-- `Meta`, as `load_meta` constructs it: the shift is at most the writer's
ceiling, and there are no more blocks than an `i64` can count values. -/
structure Meta where
  blockShift : Nat
  blocks : List Block
  shift_le : blockShift ≤ maxBlockShift
  blocks_le : blocks.length ≤ 2 ^ 63

/-! ## `load_meta` -/

/-- The number of blocks of `numValues` values. -/
def numBlocks (numValues : U64) (blockShift : Nat) : Nat :=
  let n := numValues.sshiftRight blockShift
  if (n <<< blockShift).toInt < numValues.toInt then (n + 1#64).toNat
  else n.toNat

/-- One block's header. -/
def readBlock (inp : SliceInput) : Result (Block × SliceInput) := do
  let (min, inp) ← inp.readI64
  let (avg, inp) ← inp.readI32
  let (offset, inp) ← inp.readI64
  let (bpv, inp) ← inp.readByte
  if h : bpv = 0#8 ∨ isSupportedBits bpv = true then
    .ok (⟨min, offset, avg, bpv, h⟩, inp)
  else
    .err (.corrupted ("DirectMonotonic block has unsupported bitsPerValue: " ++
      toString bpv.toNat))

/-- The headers of `n` blocks. -/
def readBlocks : (n : Nat) → SliceInput →
    Result ({blocks : List Block // blocks.length = n} × SliceInput)
  | 0, inp => .ok (⟨[], rfl⟩, inp)
  | n + 1, inp => do
    let (block, inp) ← readBlock inp
    let (blocks, inp) ← readBlocks n inp
    .ok (⟨block :: blocks.1, by rw [List.length_cons, blocks.2]⟩, inp)

theorem numBlocks_le {numValues : U64} (h : 0 ≤ numValues.toInt)
    {blockShift : Nat} : numBlocks numValues blockShift ≤ 2 ^ 63 := by
  have hlt := (nonneg_iff numValues).1 h
  have hle := Nat.div_le_self numValues.toNat (2 ^ blockShift)
  simp only [numBlocks]
  split
  · rw [BitVec.toNat_add, toNat_sshiftRight hlt]
    exact (Nat.mod_le _ _).trans (by simp only [BitVec.toNat_ofNat]; omega)
  · rw [toNat_sshiftRight hlt]
    omega

/-- `load_meta`. -/
def loadMeta (inp : SliceInput) (numValues : U64) (blockShift : Nat) :
    Result (Meta × SliceInput) :=
  if hs : maxBlockShift < blockShift then
    .err (.corrupted ("DirectMonotonic blockShift must be at most " ++
      toString maxBlockShift ++ ", got " ++ toString blockShift))
  else if hn : numValues.toInt < 0 then
    .err (.corrupted ("DirectMonotonic numValues must be non-negative, got " ++
      toString numValues.toInt))
  else do
    let (blocks, inp) ← readBlocks (numBlocks numValues blockShift) inp
    .ok (⟨blockShift, blocks.1, Nat.le_of_not_lt hs,
      by rw [blocks.2]; exact numBlocks_le (Int.not_lt.1 hn)⟩, inp)

/-! ## `get` -/

/-- The mask of an index in its block: `(1 << block_shift) - 1`. -/
def blockMask (blockShift : Nat) : U64 := (1#64 <<< blockShift) - 1#64

/-- `fast_packed_get`. -/
def fastPackedGet (data : List U8) (offset : U64) (bpv : U8) (index : U64) :
    Option U64 := do
  if !isSupportedBits bpv then none
  else
    let offset ← tryUsize offset
    let index ← tryUsize index
    let bit ← if index * bpv.toNat < 2 ^ 64 then some (index * bpv.toNat)
      else none
    let byte ← checkedAdd offset (bit / 8)
    let limit ← checkedAdd byte 8
    let window ← slice data byte limit
    let word := fromLeBytes 64 window
    let mask ← if 64 - bpv.toNat < 64
      then some (BitVec.allOnes 64 >>> (64 - bpv.toNat)) else none
    some ((word >>> (bit % 8)) &&& mask)

/-- The delta of a block at an index in it, as `get` reads it. -/
def blockDelta (data : List U8) (block : Block) (blockIndex : U64) :
    Result U64 :=
  if block.bpv = 0#8 then .ok 0#64
  else
    match fastPackedGet data block.offset block.bpv blockIndex with
    | some v => .ok v
    | none =>
      match sliceFrom data block.offset.toNat with
      | none => .err (.eof 0)
      | some slice => DirectReader.get slice block.bpv blockIndex

section

variable (fl : FloatOps)

/-- `direct_monotonic::get`. -/
def get (data : List U8) (m : Meta) (index : U64) : Result U64 :=
  let blockIndex := index &&& blockMask m.blockShift
  match m.blocks[(index.sshiftRight m.blockShift).toNat]? with
  | none => .err (.eof 0)
  | some block => do
    let delta ← blockDelta data block blockIndex
    .ok (block.min + fl.scaled block.avg blockIndex.toNat + delta)

/-! ## `Reader` -/

/-- `ResolvedBlock`. -/
structure ResolvedBlock where
  min : U64
  avg : U32
  zero : Bool
  packed : Option PackedLongs

/-- The packed reader of a block's deltas. -/
def resolve (data : List U8) (block : Block) : Option PackedLongs := do
  let o ← tryUsize block.offset
  let slice ← sliceFrom data o
  PackedLongs.new slice block.bpv.toNat

/-- `Reader`. -/
structure Reader where
  data : List U8
  meta' : Meta
  blocks : List ResolvedBlock

/-- `Reader::new`. -/
def Reader.new (data : List U8) (m : Meta) : Reader where
  data := data
  meta' := m
  blocks := m.blocks.map fun b =>
    ⟨b.min, b.avg, b.bpv = 0#8, resolve data b⟩

/-- `Reader::get`. -/
def Reader.get (r : Reader) (index : U64) : Result U64 :=
  let shift := r.meta'.blockShift
  match (tryUsize (index.sshiftRight shift)).bind fun b => r.blocks[b]? with
  | none => DirectMonotonic.get fl r.data r.meta' index
  | some block =>
    let blockIndex := index &&& blockMask shift
    let answer := fun delta : U64 =>
      block.min + fl.scaled block.avg blockIndex.toNat + delta
    if block.zero then .ok (answer 0#64)
    else
      match block.packed.bind fun p => p.get blockIndex.toNat with
      | some v => .ok (answer v)
      | none => DirectMonotonic.get fl r.data r.meta' index

/-! ## `fill` -/

/-- The slots of a run that the packed reader could not reach. -/
def fillTail (data : List U8) (block : Block) (blockIndex : U64)
    (run : List U64) (k : Nat) : Result (List U64) :=
  match (tryUsize block.offset).bind fun o => sliceFrom data o with
  | none => .err (.eof 0)
  | some slice => do
    let v ← DirectReader.get slice block.bpv (blockIndex + BitVec.ofNat 64 k)
    .ok (run.set k v)

/-- The start of a run: its slots, and how many of them are decoded. -/
def fillDecode (data : List U8) (block : Block) (blockIndex : U64)
    (run : List U64) : List U64 × Nat :=
  if block.bpv = 0#8 then (List.replicate run.length 0#64, run.length)
  else if isSupportedBits block.bpv then
    match resolve data block with
    | some packed => packed.decodeRange blockIndex.toNat run
    | none => (run, 0)
  else (run, 0)

/-- One run of `fill`, inside one block. -/
def fillRun (data : List U8) (block : Block) (blockIndex : U64)
    (run : List U64) : Result (List U64) := do
  let (run, decoded) := fillDecode data block blockIndex run
  let run ← (List.range' decoded (run.length - decoded)).foldlM
    (fillTail data block blockIndex) run
  .ok (run.mapIdx fun k v => block.min +
    fl.scaled block.avg (blockIndex + BitVec.ofNat 64 k).toNat + v)

/-- The loop body of `fill`: the number of slots done, and the slots. -/
def fillPass (data : List U8) (m : Meta) (first : U64)
    (s : Nat × List U64) : Result ((Nat × List U64) ⊕ List U64) :=
  let (i, out) := s
  if i < out.length then
    match if i < 2 ^ 63 then checkedAddI64 first i else none with
    | none => .err (.eof 0)
    | some index =>
      if index.toInt < 0 then .err (.eof 0)
      else
        match m.blocks[(index.sshiftRight m.blockShift).toNat]? with
        | none => .err (.eof 0)
        | some block => do
          let mask := blockMask m.blockShift
          let blockIndex := index &&& mask
          let inBlock := (tryUsize (mask - blockIndex + 1#64)).getD
            (usizeSize - 1)
          let n := min (out.length - i) inBlock
          let run ← .expect (slice out i (i + n))
          let run ← fillRun fl data block blockIndex run
          .ok (.inl (i + n, splice out i run))
  else .ok (.inr out)

/-- `fill`: the slots `out` after the call. -/
def fill (data : List U8) (m : Meta) (first : U64) (out : List U64) :
    Result (List U64) :=
  iterate (fillPass fl data m first) (out.length + 1) (0, out)

/-! ## `write` -/

/-- `chunk.windows(2).all(|w| w[0] <= w[1])`. -/
def ascending : List U64 → Bool
  | a :: b :: rest => a.toInt ≤ b.toInt && ascending (b :: rest)
  | _ => true

/-- `iter().min()` of `i64` values. -/
def minI64 : List U64 → Option U64
  | [] => none
  | v :: vs => some (vs.foldl (fun m v => if v.toInt < m.toInt then v else m) v)

/-- One chunk of `write`, behind the metadata and the data so far.  The
`debug_assert!` is there in a build with debug assertions only. -/
def writeBlock (debugAssertions : Bool) (s : List U8 × List U8)
    (chunk : List U64) : Result (List U8 × List U8) := do
  let (metaBytes, data) := s
  .guardOk (debugAssertions = true → ascending chunk = true)
  let avgInc := if chunk.length ≤ 1 then 0#32
    else fl.avgInc (chunk.getLastD 0#64 - chunk.headD 0#64) (chunk.length - 1)
  let deltas := chunk.mapIdx fun i v => v - fl.scaled avgInc i
  let min ← .expect (minI64 deltas)
  let deltas := deltas.map fun d => d - min
  let maxDelta := deltas.foldl (fun acc d => acc ||| d) 0#64
  let metaBytes := Store.writeI64 metaBytes min
  let metaBytes := Store.writeI32 metaBytes avgInc
  let metaBytes := Store.writeI64 metaBytes (BitVec.ofNat 64 data.length)
  if maxDelta = 0#64 then .ok (metaBytes ++ [0#8], data)
  else
    let bitsPerValue := unsignedBitsRequired maxDelta
    .ok (metaBytes ++ [bitsPerValue],
      data ++ DirectReader.encode deltas bitsPerValue ++
        List.replicate (paddingBytesNeeded bitsPerValue) 0#8)

/-- `write`: the metadata and the data. -/
def write (debugAssertions : Bool) (values : List U64) (blockShift : Nat) :
    Result (List U8 × List U8) := do
  .guardOk (minBlockShift ≤ blockShift ∧ blockShift ≤ maxBlockShift)
  (chunks (2 ^ blockShift) values).foldlM (writeBlock fl debugAssertions)
    ([], [])

end

end LuceneRust.Codecs.DirectMonotonic
