import LuceneRust.Util.Packed.GrowableWriter

/-!
# `lucene_util::packed::packed_long_values`

A buffer of longs that is appended to and packed page by page.  A page stores
its values as they are, as differences from the least of them, or as
differences from a line with the average slope of the page, from which the
least is taken in turn (`Kind`).

The slope is a float.  The code makes it from the ends of a page, and takes
from it the product with an index, cast to a long.  `FloatOps` has the two as
functions and nothing is assumed of them.

The count of values, a `u64`, is a natural number.  Not modelled: the memory
that a buffer reports, and the accessors of its parts.
-/

namespace LuceneRust.Util.Packed

open RustSem

/-- `PackedError`. -/
inductive PackedError where
  | illegalArgument (message : String)
  deriving DecidableEq, Repr

/-- `check_block_size`. -/
def checkBlockSize (blockSize minBlockSize maxBlockSize : Nat) : Outcome PackedError Nat :=
  if blockSize < minBlockSize ∨ maxBlockSize < blockSize then
    .err (.illegalArgument ("blockSize must be >= " ++ toString minBlockSize ++ " and <= " ++
      toString maxBlockSize ++ ", got " ++ toString blockSize))
  else if blockSize ≠ 2 ^ blockSize.log2 then
    .err (.illegalArgument ("blockSize must be a power of two, got " ++ toString blockSize))
  else .ok blockSize.log2

/-- `bits_required`, of which the caller only unwraps the value. -/
def bitsRequired (maxValue : U64) : Option Nat :=
  if maxValue.toInt < 0 then none else some (unsignedBitsRequired maxValue)

/-- `i64::min`. -/
def minI64 (a b : U64) : U64 := if b.toInt < a.toInt then b else a

/-- `i64::max`. -/
def maxI64 (a b : U64) : U64 := if a.toInt ≤ b.toInt then b else a

namespace PackedLongValues

/-- `MIN_PAGE_SIZE`. -/
def minPageSize : Nat := 64

/-- `MAX_PAGE_SIZE`. -/
def maxPageSize : Nat := 2 ^ 20

inductive Kind where
  | packed
  | deltaPacked
  | monotonic
  deriving DecidableEq, Repr

/-- What the code does with the slope of a page. -/
structure FloatOps (F : Type) where
  /-- `0.0` -/
  zero : F
  /-- `difference as f32 / steps as f32` -/
  average : U64 → Nat → F
  /-- `(average * index as f32) as i64` -/
  product : F → U64 → U64

/-- `Page`: a `NullReader` or a packed array. -/
inductive Page where
  | null (valueCount : Nat)
  | packed (m : PackedMutable)

namespace Page

def size : Page → Nat
  | null n => n
  | packed m => Mutable.size m

def get : Page → Nat → Call U64
  | null _, _ => .ok 0#64
  | packed m, index => Mutable.get m index

def getBulk : Page → Nat → List U64 → Call (List U64 × Nat)
  | null n, index, arr => do
    .guardOk (arr ≠ [])
    .guardOk (index < n)
    let len := min arr.length (n - index)
    .ok (List.replicate len 0#64 ++ arr.drop len, len)
  | packed m, index, arr => Mutable.getBulk m index arr

end Page

section

variable {F : Type} (fl : FloatOps F)

/-- `expected`. -/
def expected (origin : U64) (average : F) (index : U64) : U64 := origin + fl.product average index

end

end PackedLongValues

open PackedLongValues

/-- `PackedLongValues`. -/
structure PackedLongValues (F : Type) where
  kind : Kind
  values : List Page
  mins : List U64
  averages : List F
  pageShift : Nat
  pageMask : Nat
  size : Nat

namespace PackedLongValues

variable {F : Type} (fl : FloatOps F)

/-- `get_in`. -/
def getIn (v : PackedLongValues F) (block element : Nat) : Call U64 := do
  let page ← .expect v.values[block]?
  let raw ← page.get element
  match v.kind with
  | .packed => .ok raw
  | .deltaPacked => do
    let min ← .expect v.mins[block]?
    .ok (min + raw)
  | .monotonic => do
    let min ← .expect v.mins[block]?
    let average ← .expect v.averages[block]?
    .ok (expected fl min average (BitVec.ofNat 64 element) + raw)

/-- `get`. -/
def get (v : PackedLongValues F) (index : Nat) : Call U64 := do
  .guardOk (index < v.size)
  v.getIn fl (index >>> v.pageShift) (index &&& v.pageMask)

/-- The bulk reads of `decode_block`. -/
def readPass (vals : Page) (s : Nat × List U64) : Call ((Nat × List U64) ⊕ List U64) :=
  let (k, dest) := s
  if k < vals.size then do
    let slots ← .expect (slice dest k vals.size)
    let (slots, n) ← vals.getBulk k slots
    .ok (.inl (k + n, splice dest k slots))
  else .ok (.inr dest)

/-- What `decode_block` does to the values it has read. -/
def decodeValues (v : PackedLongValues F) (block : Nat) (values : List U64) : Call (List U64) :=
  match v.kind with
  | .packed => .ok values
  | .deltaPacked => do
    let min ← .expect v.mins[block]?
    .ok (values.map fun d => d + min)
  | .monotonic => do
    let min ← .expect v.mins[block]?
    let average ← .expect v.averages[block]?
    .ok ((values.map fun d => d + min).mapIdx fun i d =>
      d + expected fl 0#64 average (BitVec.ofNat 64 i))

/-- `decode_block`: the slots after the call, and how many were decoded. -/
def decodeBlock (v : PackedLongValues F) (block : Nat) (dest : List U64) :
    Call (List U64 × Nat) := do
  let vals ← .expect v.values[block]?
  let size := vals.size
  let dest ← iterate (readPass vals) (size + 1) (0, dest)
  let head ← .expect (slice dest 0 size)
  let head ← v.decodeValues fl block head
  .ok (splice dest 0 head, size)

end PackedLongValues

/-! ## The iterator -/

/-- `Iter`. -/
structure PackedLongValues.Iter (F : Type) where
  owner : PackedLongValues F
  currentValues : List U64
  vOff : Nat
  pOff : Nat
  currentCount : Nat

namespace PackedLongValues

variable {F : Type} (fl : FloatOps F)

/-- `fill_block`. -/
def Iter.fillBlock (it : Iter F) : Call (Iter F) :=
  if it.vOff = it.owner.values.length then .ok { it with currentCount := 0 }
  else do
    let (values, count) ← it.owner.decodeBlock fl it.vOff it.currentValues
    .guardOk (0 < count)
    .ok { it with currentValues := values, currentCount := count }

/-- `iter`. -/
def iter (v : PackedLongValues F) : Call (Iter F) := do
  let cap := min v.size (v.pageMask + 1)
  let currentValues ← vecZeroed cap
  Iter.fillBlock fl ⟨v, currentValues, 0, 0, 0⟩

/-- The step of `next` behind a value. -/
def Iter.advance (it : Iter F) : Call (Iter F) :=
  if it.pOff + 1 = it.currentCount then
    Iter.fillBlock fl { it with vOff := it.vOff + 1, pOff := 0 }
  else .ok { it with pOff := it.pOff + 1 }

/-- `next`. -/
def Iter.next (it : Iter F) : Call (Option U64 × Iter F) :=
  if it.currentCount ≤ it.pOff then .ok (none, it)
  else do
    let result ← .expect it.currentValues[it.pOff]?
    let it ← it.advance fl
    .ok (some result, it)

/-- What `n` calls of `next` return. -/
def Iter.nexts (it : Iter F) : Nat → Call (List (Option U64))
  | 0 => .ok []
  | n + 1 => do
    let (x, it) ← it.next fl
    let xs ← it.nexts n
    .ok (x :: xs)

end PackedLongValues

/-! ## The builder -/

/-- `PackedLongValuesBuilder`. -/
structure PackedLongValuesBuilder (F : Type) where
  kind : Kind
  pageShift : Nat
  pageMask : Nat
  overhead : Nat → Int
  pending : Option (List U64)
  size : Nat
  values : List Page
  mins : List U64
  averages : List F
  pendingOff : Nat

namespace PackedLongValuesBuilder

variable {F : Type} (fl : FloatOps F)

/-- `new`. -/
def new (kind : Kind) (pageSize : Nat) (overhead : Nat → Int) :
    Outcome PackedError (PackedLongValuesBuilder F) := do
  let pageShift ← checkBlockSize pageSize minPageSize maxPageSize
  .ok ⟨kind, pageShift, pageSize - 1, overhead, some (List.replicate pageSize 0#64), 0, [], [], [],
    0⟩

/-- The slope of a page. -/
def averageOf (values : List U64) : Call F :=
  let n := values.length
  if n = 1 then .ok fl.zero
  else do
    let last ← sub n 1
    let hi ← .expect values[last]?
    let lo ← .expect values[0]?
    .ok (fl.average (hi - lo) last)

/-- The monotonic part of `pack_values`: the differences from the line. -/
def packMonotonic (b : PackedLongValuesBuilder F) (values : List U64) :
    Call (PackedLongValuesBuilder F × List U64) := do
  let average ← averageOf fl values
  .ok ({ b with averages := b.averages ++ [average] },
    values.mapIdx fun i v => v - expected fl 0#64 average (BitVec.ofNat 64 i))

/-- `values.iter().copied().min()`. -/
def minimum : List U64 → Option U64
  | [] => none
  | v :: vs => some (vs.foldl minI64 v)

/-- The delta part of `pack_values`: the differences from the least value. -/
def packDelta (b : PackedLongValuesBuilder F) (values : List U64) :
    Call (PackedLongValuesBuilder F × List U64) := do
  let min ← .expect (minimum values)
  .ok ({ b with mins := b.mins ++ [min] }, values.map fun v => v - min)

/-- The bounds of the values that a page stores. -/
def bounds (values : List U64) : Call (U64 × U64) := do
  let first ← .expect values[0]?
  let rest ← .expect (sliceFrom values 1)
  .ok (rest.foldl (fun s v => (minI64 s.1 v, maxI64 s.2 v)) (first, first))

/-- The width of a page. -/
def pageBits (minValue maxValue : U64) : Call Nat :=
  if minValue.toInt < 0 then .ok 64 else .expect (bitsRequired maxValue)

/-- The page that stores `values`. -/
def makePage (overhead : Nat → Int) (values : List U64) : Call Page := do
  let (minValue, maxValue) ← bounds values
  if minValue = 0#64 ∧ maxValue = 0#64 then .ok (.null values.length)
  else do
    let bits ← pageBits minValue maxValue
    let m ← getMutable values.length bits overhead
    let m ← iterate setAllPass (values.length + 1) (m, 0, values)
    .ok (.packed m)

/-- What `pack_values` does to the values before it makes a page of them. -/
def packDifferences (b : PackedLongValuesBuilder F) (values : List U64) :
    Call (PackedLongValuesBuilder F × List U64) :=
  match b.kind with
  | .packed => .ok (b, values)
  | .deltaPacked => b.packDelta values
  | .monotonic => do
    let (b, values) ← b.packMonotonic fl values
    b.packDelta values

/-- `pack_values`: the builder and the values after the call. -/
def packValues (b : PackedLongValuesBuilder F) (values : List U64) :
    Call (PackedLongValuesBuilder F × List U64) := do
  .guardOk (values ≠ [])
  let (b, values) ← b.packDifferences fl values
  let page ← makePage b.overhead values
  .ok ({ b with values := b.values ++ [page] }, values)

/-- `pack`. -/
def pack (b : PackedLongValuesBuilder F) : Call (PackedLongValuesBuilder F) := do
  let pending ← .expect b.pending
  let n := b.pendingOff
  let head ← .expect (slice pending 0 n)
  let (b, head) ← packValues fl { b with pending := none } head
  .ok { b with pending := some (splice pending 0 head), pendingOff := 0 }

/-- `pack_if_full`. -/
def packIfFull (b : PackedLongValuesBuilder F) : Call (PackedLongValuesBuilder F) :=
  if b.pending.map List.length = some b.pendingOff then b.pack fl else .ok b

/-- `add`. -/
def add (b : PackedLongValuesBuilder F) (l : U64) : Call (PackedLongValuesBuilder F) := do
  let b ← b.packIfFull fl
  let pending ← .expect b.pending
  .guardOk (b.pendingOff < pending.length)
  .ok { b with
    pending := some (pending.set b.pendingOff l), pendingOff := b.pendingOff + 1,
    size := b.size + 1 }

/-- Put `src` where the pending values end. -/
def putPending (b : PackedLongValuesBuilder F) (pending src : List U64) :
    Call (PackedLongValuesBuilder F) := do
  .guardOk (b.pendingOff + src.length ≤ pending.length)
  .ok { b with
    pending := some (splice pending b.pendingOff src),
    pendingOff := b.pendingOff + src.length, size := b.size + src.length }

/-- The loop of `add_repeated`. -/
def addRepeatedPass (value : U64) (s : PackedLongValuesBuilder F × Nat) :
    Call ((PackedLongValuesBuilder F × Nat) ⊕ PackedLongValuesBuilder F) :=
  let (b, count) := s
  if 0 < count then do
    let b ← b.packIfFull fl
    let pending ← .expect b.pending
    let room ← sub pending.length b.pendingOff
    let toFill := min count room
    let b ← b.putPending pending (List.replicate toFill value)
    .ok (.inl (b, count - toFill))
  else .ok (.inr b)

/-- `add_repeated`. -/
def addRepeated (b : PackedLongValuesBuilder F) (value : U64) (count : Nat) :
    Call (PackedLongValuesBuilder F) :=
  iterate (addRepeatedPass fl value) (count + 1) (b, count)

/-- The loop of `add_all`. -/
def addAllPass (s : PackedLongValuesBuilder F × List U64) :
    Call ((PackedLongValuesBuilder F × List U64) ⊕ PackedLongValuesBuilder F) :=
  let (b, rest) := s
  if rest ≠ [] then do
    let b ← b.packIfFull fl
    let pending ← .expect b.pending
    let room ← sub pending.length b.pendingOff
    let toFill := min rest.length room
    let b ← b.putPending pending (rest.take toFill)
    .ok (.inl (b, rest.drop toFill))
  else .ok (.inr b)

/-- `add_all`. -/
def addAll (b : PackedLongValuesBuilder F) (values : List U64) :
    Call (PackedLongValuesBuilder F) :=
  iterate (addAllPass fl) (values.length + 1) (b, values)

/-- `finish`. -/
def finish (b : PackedLongValuesBuilder F) : Call (PackedLongValuesBuilder F) :=
  if 0 < b.pendingOff then b.pack fl else .ok b

/-- `build`. -/
def build (b : PackedLongValuesBuilder F) : Call (PackedLongValues F) := do
  let b ← b.finish fl
  .ok ⟨b.kind, b.values, b.mins, b.averages, b.pageShift, b.pageMask, b.size⟩

/-- A call that adds to a builder. -/
inductive Addition where
  | add (l : U64)
  | addRepeated (value : U64) (count : Nat)
  | addAll (values : List U64)

/-- The values that a call adds. -/
def Addition.values : Addition → List U64
  | .add l => [l]
  | .addRepeated value count => List.replicate count value
  | .addAll values => values

/-- The call. -/
def Addition.run (b : PackedLongValuesBuilder F) : Addition → Call (PackedLongValuesBuilder F)
  | .add l => b.add fl l
  | .addRepeated value count => b.addRepeated fl value count
  | .addAll values => b.addAll fl values

/-- A sequence of calls and the buffer that it makes. -/
def buildFrom (b : PackedLongValuesBuilder F) (adds : List Addition) :
    Call (PackedLongValues F) := do
  let b ← adds.foldlM (fun b a => a.run fl b) b
  b.build fl

end PackedLongValuesBuilder

end LuceneRust.Util.Packed
