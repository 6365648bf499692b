import LuceneRust.Util.Packed.Mutable

/-!
# `lucene_util::bytes_ref_hash`

A hash set of byte strings that hands out the ids `0, 1, 2, ...` in the order
of the insertions.  The strings stand in a pool of blocks of 32 KiB, each
behind its length; the table is open addressed, and a slot holds an id in its
low bits and the high bits of the hash above them, or `-1`.

A call that takes `&mut self` returns the new value beside its result, so
that what a failed call leaves behind can be seen.
-/

namespace LuceneRust.Util

open RustSem
open Packed (Call)

/-- `murmurhash3_x86_32`, the mixing of one word. -/
def murmurMix (k1 : U32) : U32 :=
  (k1 * 0xcc9e2d51#32).rotateLeft 15 * 0x1b873593#32

/-- `murmurhash3_x86_32`. -/
def murmurhash3X8632 (data : List U8) (seed : U32) : U32 :=
  let whole := 4 * (data.length / 4)
  let h1 := (chunks 4 (data.take whole)).foldl
    (fun h1 block =>
      (h1 ^^^ murmurMix (fromLeBytes 32 block)).rotateLeft 13 * 5#32 + 0xe6546b64#32) seed
  let tail := data.drop whole
  let h1 := if tail.isEmpty then h1 else h1 ^^^ murmurMix (fromLeBytes 32 tail)
  let h1 := h1 ^^^ BitVec.ofNat 32 data.length
  let h1 := (h1 ^^^ h1 >>> 16) * 0x85ebca6b#32
  let h1 := (h1 ^^^ h1 >>> 13) * 0xc2b2ae35#32
  h1 ^^^ h1 >>> 16

/-- `BytesRefHashError`. -/
inductive BytesRefHashError where
  | maxBytesLengthExceeded (length : Nat)
  | notInitialized
  | poolOverflow
  | badCapacity (capacity : Nat)
  deriving Repr, DecidableEq

/-- The result of a call that reports its errors. -/
abbrev HashResult := Except BytesRefHashError

/-- `BYTE_BLOCK_SIZE`. -/
def byteBlockSize : Nat := 32768

/-- An `i32` as a `usize`. -/
def asUsize (x : U32) : Nat := (x.signExtend 64).toNat

/-- `BytesRefBlockPool`. -/
structure BytesRefBlockPool where
  blocks : List (List U8)
  byteUpto : Nat
  byteOffset : Int

namespace BytesRefBlockPool

/-- `new`. -/
def new : BytesRefBlockPool :=
  { blocks := [], byteUpto := byteBlockSize, byteOffset := -byteBlockSize }

/-- `next_buffer`. -/
def nextBuffer (pool : BytesRefBlockPool) : HashResult BytesRefBlockPool :=
  let next := pool.byteOffset + byteBlockSize
  if 2 ^ 31 - 1 < next then .error .poolOverflow
  else
    .ok
      { blocks := pool.blocks ++ [List.replicate byteBlockSize 0#8]
        byteUpto := 0
        byteOffset := next }

/-- The length prefix and the bytes of a string. -/
def encode (bytes : List U8) : List U8 :=
  let length := bytes.length
  if length < 128 then BitVec.ofNat 8 length :: bytes
  else
    let head : U16 := BitVec.ofNat 16 length ||| 0x8000#16
    head.extractLsb' 8 8 :: head.extractLsb' 0 8 :: bytes

/-- The end of `add_bytes_ref`: the string goes into the head block. -/
def appendBytes (pool : BytesRefBlockPool) (bytes : List U8) :
    Call (BytesRefBlockPool × HashResult U32) :=
  match pool.blocks.getLast? with
  | none => .ok (pool, .error .notInitialized)
  | some buffer => do
    let upto := pool.byteUpto
    .guardOk (upto + (encode bytes).length ≤ buffer.length)
    .ok ({ pool with
        blocks := pool.blocks.dropLast ++ [splice buffer upto (encode bytes)]
        byteUpto := upto + (encode bytes).length },
      .ok (BitVec.ofInt 32 (upto + pool.byteOffset)))

/-- `add_bytes_ref`. -/
def addBytesRef (pool : BytesRefBlockPool) (bytes : List U8) :
    Call (BytesRefBlockPool × HashResult U32) :=
  let len2 := 2 + bytes.length
  if byteBlockSize < len2 + pool.byteUpto then
    if byteBlockSize < len2 then
      .ok (pool, .error (.maxBytesLengthExceeded bytes.length))
    else
      match pool.nextBuffer with
      | .error e => .ok (pool, .error e)
      | .ok pool => pool.appendBytes bytes
  else pool.appendBytes bytes

/-- `get`. -/
def get (pool : BytesRefBlockPool) (start : U32) : Call (List U8) := do
  let block ← .expect pool.blocks[asUsize start / byteBlockSize]?
  let pos := asUsize start % byteBlockSize
  let b0 ← .expect block[pos]?
  if b0 &&& 0x80#8 = 0#8 then .expect (slice block (pos + 1) (pos + 1 + b0.toNat))
  else
    let b1 ← .expect block[pos + 1]?
    let len := ((b0 ++ b1) &&& 0x7fff#16).toNat
    .expect (slice block (pos + 2) (pos + 2 + len))

end BytesRefBlockPool

/-- `BytesRefHash`. -/
structure BytesRefHash where
  pool : BytesRefBlockPool
  bytesStart : Option (List U32)
  hashes : List U32
  hashSize : Nat
  hashHalfSize : Nat
  hashMask : U32
  highMask : U32
  count : Nat
  lastCount : Int
  ids : Option (List U32)
  seed : U32

namespace BytesRefHash

/-- `-1`, the mark of a free slot. -/
def freeSlot : U32 := BitVec.allOnes 32

/-- `vec![-1; n]`. -/
def freeTable (n : Nat) : List U32 := List.replicate n freeSlot

/-- `(n - 1) as i32`. -/
def maskOf (n : Nat) : U32 := BitVec.ofNat 32 (n - 1)

/-- `with_capacity`. -/
def withCapacity (capacity : Nat) (seed : U32) : HashResult BytesRefHash :=
  if capacity < 2 ∨ ¬ capacity.isPowerOfTwo ∨ 2 ^ 30 < capacity then
    .error (.badCapacity capacity)
  else
    .ok
      { pool := .new
        bytesStart := some []
        hashes := []
        hashSize := capacity
        hashHalfSize := capacity / 2
        hashMask := maskOf capacity
        highMask := ~~~maskOf capacity
        count := 0
        lastCount := -1
        ids := some (freeTable capacity)
        seed := seed }

/-- `get`. -/
def get (h : BytesRefHash) (bytesId : Nat) : Call (Option (List U8)) :=
  match h.bytesStart with
  | none => .ok none
  | some starts =>
    match starts[bytesId]? with
    | none => .ok none
    | some start => do
      let bytes ← h.pool.get start
      .ok (some bytes)

/-- `byte_start`. -/
def byteStart (h : BytesRefHash) (bytesId : Nat) : Option U32 := do
  let starts ← h.bytesStart
  starts[bytesId]?

/-- `do_hash`. -/
def doHash (h : BytesRefHash) (bytes : List U8) : U32 := murmurhash3X8632 bytes h.seed

/-! ## Probing -/

/-- One slot of the loop of `find_hash`. -/
def findPass (h : BytesRefHash) (ids starts : List U32) (bytes : List U8) (highBits : U32)
    (code : U32) : Call (U32 ⊕ Nat) := do
  let pos := asUsize (code &&& h.hashMask)
  let e ← .expect ids[pos]?
  if e = freeSlot then .ok (.inr pos)
  else if e &&& h.highMask ≠ highBits then .ok (.inl (code + 1))
  else
    let start ← .expect starts[asUsize (e &&& h.hashMask)]?
    let term ← h.pool.get start
    if term ≠ bytes then .ok (.inl (code + 1)) else .ok (.inr pos)

/-- `find_hash`. -/
def findHash (h : BytesRefHash) (bytes : List U8) (hashcode : U32) :
    Call (HashResult Nat) :=
  match h.ids, h.bytesStart with
  | some ids, some starts => do
    let pos ← iterate (h.findPass ids starts bytes (hashcode &&& h.highMask))
      (ids.length + 1) hashcode
    .ok (.ok pos)
  | _, _ => .ok (.error .notInitialized)

/-- One slot of the loop of `rehash`. -/
def placePass (ids : List U32) (newMask code : U32) : Call (U32 ⊕ Nat) := do
  let pos := asUsize (code &&& newMask)
  let e ← .expect ids[pos]?
  if e = freeSlot then .ok (.inr pos) else .ok (.inl (code + 1))

/-- One id of `rehash`. -/
def place (h : BytesRefHash) (hashOnData : Bool) (newMask : U32) (ids : List U32)
    (entry : U32 × Nat) : Call (List U32) := do
  let (start, id) := entry
  let (hashcode, code) ← (if hashOnData then do
      let hash ← .expect h.hashes[id]?
      .ok (hash, hash)
    else .ok (0#32, start) : Call (U32 × U32))
  let pos ← iterate (placePass ids newMask) (ids.length + 1) code
  .guardOk (pos < ids.length)
  .ok (ids.set pos (BitVec.ofNat 32 id ||| (hashcode &&& ~~~newMask)))

/-- `rehash`. -/
def rehash (h : BytesRefHash) (newSize : Nat) (hashOnData : Bool) : Call BytesRefHash := do
  let newMask := maskOf newSize
  let starts := h.bytesStart.getD []
  let ids ← (starts.zipIdx.take h.count).foldlM (h.place hashOnData newMask)
    (freeTable newSize)
  .ok { h with
    ids := some ids
    hashMask := newMask
    highMask := ~~~newMask
    hashSize := newSize
    hashHalfSize := newSize / 2 }

/-- `add` of a string that is not in the table, into the free slot `pos`. -/
def addNew (h : BytesRefHash) (bytes : List U8) (hashcode : U32) (pos : Nat)
    (ids : List U32) : Call (BytesRefHash × HashResult U32) := do
  let (pool, result) ← h.pool.addBytesRef bytes
  let h := { h with pool := pool }
  match result with
  | .error e => .ok (h, .error e)
  | .ok start =>
    let id := BitVec.ofNat 32 h.count
    match h.bytesStart with
    | none => .ok (h, .error .notInitialized)
    | some starts =>
      .guardOk (pos < ids.length)
      let h := { h with
        bytesStart := some (starts ++ [start])
        hashes := h.hashes ++ [hashcode]
        count := h.count + 1
        ids := some (ids.set pos (id ||| (hashcode &&& h.highMask))) }
      if h.count = h.hashHalfSize then
        let h ← h.rehash (2 * h.hashSize) true
        .ok (h, .ok id)
      else .ok (h, .ok id)

/-- `add`. -/
def add (h : BytesRefHash) (bytes : List U8) : Call (BytesRefHash × HashResult U32) := do
  let hashcode := h.doHash bytes
  match ← h.findHash bytes hashcode with
  | .error e => .ok (h, .error e)
  | .ok pos =>
    match h.ids with
    | none => .ok (h, .error .notInitialized)
    | some ids =>
      let e ← .expect ids[pos]?
      if e ≠ freeSlot then .ok (h, .ok (-((e &&& h.hashMask) + 1)))
      else h.addNew bytes hashcode pos ids

/-- `find`. -/
def find (h : BytesRefHash) (bytes : List U8) : Call (HashResult U32) := do
  match ← h.findHash bytes (h.doHash bytes) with
  | .error e => .ok (.error e)
  | .ok pos =>
    match h.ids with
    | none => .ok (.error .notInitialized)
    | some ids =>
      let id ← .expect ids[pos]?
      .ok (.ok (if id = freeSlot then freeSlot else id &&& h.hashMask))

/-! ## Emptying the table -/

/-- The loop of `shrink`. -/
def shrinkLoop (targetSize : Nat) : Nat → Nat → Nat
  | 0, newSize => newSize
  | fuel + 1, newSize =>
    if 8 ≤ newSize ∧ targetSize < newSize / 4 then shrinkLoop targetSize fuel (newSize / 2)
    else newSize

/-- `shrink`. -/
def shrink (h : BytesRefHash) (targetSize : Nat) : BytesRefHash × Bool :=
  let newSize := shrinkLoop targetSize h.hashSize h.hashSize
  if newSize ≠ h.hashSize then
    ({ h with
      hashSize := newSize
      ids := some (freeTable newSize)
      hashHalfSize := newSize / 2
      hashMask := maskOf newSize
      highMask := ~~~maskOf newSize }, true)
  else (h, false)

/-- `clear`. -/
def clear (h : BytesRefHash) (resetPool : Bool) : BytesRefHash :=
  let h := { h with
    lastCount := h.count
    count := 0
    pool := if resetPool then .new else h.pool
    bytesStart := none
    hashes := [] }
  let (h, shrunk) := if h.lastCount ≠ -1 then h.shrink h.lastCount.toNat else (h, false)
  if shrunk then h
  else { h with ids := h.ids.map fun ids => freeTable ids.length }

/-- `close`. -/
def close (h : BytesRefHash) : BytesRefHash := { h.clear true with ids := none }

/-- `reinit`. -/
def reinit (h : BytesRefHash) : BytesRefHash :=
  { h with
    bytesStart := some (h.bytesStart.getD [])
    ids := some (h.ids.getD (freeTable h.hashSize)) }

/-! ## Sorting -/

/-- `u64::from_be_bytes`. -/
def fromBeBytes (bs : List U8) : U64 :=
  bs.foldl (fun acc b => acc <<< 8 ||| b.setWidth 64) 0#64

/-- `be_prefix`. -/
def bePrefix (term : List U8) : U64 :=
  let k := min term.length 8
  fromBeBytes (splice (List.replicate 8 0#8) 0 (term.take k))

/-- The comparison of two keys, the smaller one or an equal one first. -/
def keyLe (a b : U64 × List U8 × U32) : Bool :=
  decide (a.1 < b.1) || (a.1 == b.1 && decide (a.2.1 ≤ b.2.1))

/-- `Vec::resize`. -/
def resize (l : List U32) (n : Nat) (x : U32) : List U32 :=
  l.take n ++ List.replicate (n - l.length) x

/-- `sort`. -/
def sort (h : BytesRefHash) : Call (BytesRefHash × List U32) := do
  let h := { h with lastCount := h.count }
  let out ← (match h.bytesStart with
    | some starts => do
      .guardOk (h.count ≤ starts.length)
      let keyed ← (starts.take h.count).zipIdx.mapM fun (start, id) => do
        let term ← h.pool.get start
        .ok (bePrefix term, term, BitVec.ofNat 32 id)
      .ok ((keyed.mergeSort keyLe).map fun k => k.2.2)
    | none => .ok ((List.range h.count).map (BitVec.ofNat 32)) : Call (List U32))
  let out := resize out h.hashSize freeSlot
  match h.ids with
  | some ids =>
    .guardOk (ids.length = out.length)
    .ok ({ h with ids := some out }, out)
  | none => .ok (h, out)

end BytesRefHash

end LuceneRust.Util
