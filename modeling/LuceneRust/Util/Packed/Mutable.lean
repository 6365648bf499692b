import LuceneRust.RustSem.Bytes

/-!
# `lucene_util::packed`, the traits `Reader` and `Mutable`

A packed array is anything with the operations of the class `Mutable`: it
reads and writes single values, runs of values and ranges.  None of the
operations returns an error, so a call either returns or panics (`Call`).

What an array is for is the class `LawfulMutable`: the array holds a plain
list of longs (`Rep`), and every operation does to it what its name says.
The module has

* the base implementations of `set_bulk` and `fill`, and the shape that
  `get_bulk` and `set_bulk` have in both layouts: single values up to a
  boundary, whole runs, and single values if that made no progress;
* `copy`, which moves values between two arrays through a buffer;
* `runAll_refines`: a run of operations on a lawful array is the same run on
  the plain list.
-/

namespace LuceneRust.Util.Packed

open RustSem

/-- A call that returns or panics. -/
abbrev Call := Outcome Empty

/-- `vec![0u64; n]`. -/
def vecZeroed (n : Nat) : Call (List U64) :=
  if 8 * n ≤ maxAlloc then .ok (List.replicate n 0#64) else .panic

theorem vecZeroed_ok {n : Nat} (h : 8 * n ≤ maxAlloc) :
    vecZeroed n = .ok (List.replicate n 0#64) := if_pos h

/-- `PackedInts.maxValue`. -/
def maxValue (bitsPerValue : Nat) : U64 :=
  if 64 ≤ bitsPerValue then BitVec.ofNat 64 (2 ^ 63 - 1)
  else ~~~(BitVec.allOnes 64 <<< bitsPerValue)

/-- `unsigned_bits_required`. -/
def unsignedBitsRequired (bits : U64) : Nat := max (64 - bits.clz.toNat) 1

/-- The traits `Reader` and `Mutable`. -/
class Mutable (M : Type) where
  size : M → Nat
  bitsPerValue : M → Nat
  get : M → Nat → Call U64
  /-- The slots after the call, and how many were written. -/
  getBulk : M → Nat → List U64 → Call (List U64 × Nat)
  set : M → Nat → U64 → Call M
  setBulk : M → Nat → List U64 → Call (M × Nat)
  fill : M → Nat → Nat → U64 → Call M
  clear : M → Call M

section Defaults

variable {M : Type} (size bits : M → Nat) (set : M → Nat → U64 → Call M)

/-- Set the values `arr` from `index` on, one by one. -/
def setEach (m : M) (index : Nat) (arr : List U64) : Call M :=
  arr.zipIdx.foldlM (fun m v => set m (index + v.2) v.1) m

/-- `default_set_bulk`. -/
def defaultSetBulk (m : M) (index : Nat) (arr : List U64) : Call (M × Nat) := do
  .guardOk (arr ≠ [])
  .guardOk (index < size m)
  let len := min arr.length (size m - index)
  let m ← setEach set m index (arr.take len)
  .ok (m, len)

/-- `default_fill`. -/
def defaultFill (m : M) (lo hi : Nat) (val : U64) : Call M := do
  .guardOk (val.toInt ≤ (maxValue (bits m)).toInt)
  .guardOk (lo ≤ hi)
  (List.range' lo (hi - lo)).foldlM (fun m i => set m i val) m

end Defaults

/-! ## The shape of the bulk operations -/

/-- The values up to the next boundary of `per` values, at most `len`. -/
def headLen (per index len : Nat) : Nat :=
  if index % per ≠ 0 then min (per - index % per) len else 0

/-- `get_bulk` of both layouts.  `bulk index len slots` decodes whole runs
from a boundary on. -/
def bulkGet (per size : Nat) (get : Nat → Call U64)
    (bulk : Nat → Nat → List U64 → Call (List U64 × Nat)) (index : Nat)
    (arr : List U64) : Call (List U64 × Nat) := do
  .guardOk (arr ≠ [])
  .guardOk (index < size)
  let len := min arr.length (size - index)
  let head := headLen per index len
  let vals ← (List.range head).mapM fun j => get (index + j)
  if index % per ≠ 0 ∧ len - head = 0 then
    .ok (vals ++ arr.drop head, head)
  else
    let (rest, got) ← bulk (index + head) (len - head) (arr.drop head)
    if 0 < head + got then .ok (vals ++ rest, head + got)
    else
      let gets := min len (size - index)
      let vals ← (List.range gets).mapM fun j => get (index + j)
      .ok (vals ++ arr.drop gets, gets)

/-- `set_bulk` of both layouts.  `bulk m index len values` encodes whole
runs from a boundary on, and returns how many values that were. -/
def bulkSet {M : Type} (per : Nat) (size : M → Nat)
    (set : M → Nat → U64 → Call M)
    (bulk : M → Nat → Nat → List U64 → Call (M × Nat)) (m : M) (index : Nat)
    (arr : List U64) : Call (M × Nat) := do
  .guardOk (arr ≠ [])
  .guardOk (index < size m)
  let len := min arr.length (size m - index)
  let head := headLen per index len
  let m ← setEach set m index (arr.take head)
  if index % per ≠ 0 ∧ len - head = 0 then .ok (m, head)
  else
    let (m, done) ← bulk m (index + head) (len - head) (arr.drop head)
    if 0 < head + done then .ok (m, head + done)
    else defaultSetBulk size set m index (arr.take len)

/-! ## `copy` -/

section Copy

variable {R M : Type} [Mutable R] [Mutable M]

/-- The state of `copy_with_buffer`. -/
structure CopyState (M : Type) where
  dest : M
  srcPos : Nat
  destPos : Nat
  len : Nat
  buf : List U64
  remaining : Nat

/-- Move the values that are not written yet to the front of the buffer. -/
def keepRest (buf : List U64) (written rest : Nat) : Call (List U64) :=
  if 0 < rest then copyWithin buf written rest 0 else .ok buf

/-- The first loop of `copy_with_buffer`: read what the buffer has room for,
and write what it holds. -/
def copyPass (src : R) (s : CopyState M) : Call (CopyState M ⊕ CopyState M) :=
  if 0 < s.len then do
    let room ← sub s.buf.length s.remaining
    let want := min s.len room
    let slots ← .expect (slice s.buf s.remaining (s.remaining + want))
    let (slots, read) ← Mutable.getBulk src s.srcPos slots
    .guardOk (0 < read)
    let buf := splice s.buf s.remaining slots
    let len ← sub s.len read
    let remaining := s.remaining + read
    let (dest, written) ← Mutable.setBulk s.dest s.destPos (buf.take remaining)
    .guardOk (0 < written)
    let rest ← sub remaining written
    let buf ← keepRest buf written rest
    .ok (.inl ⟨dest, s.srcPos + read, s.destPos + written, len, buf, rest⟩)
  else .ok (.inr s)

/-- The second loop of `copy_with_buffer`: write what is left. -/
def drainPass (s : CopyState M) : Call (CopyState M ⊕ M) :=
  if 0 < s.remaining then do
    let (dest, written) ← Mutable.setBulk s.dest s.destPos
      (s.buf.take s.remaining)
    let rest ← sub s.remaining written
    let buf ← copyWithin s.buf written rest 0
    .ok (.inl { s with
      dest := dest, destPos := s.destPos + written, buf := buf,
      remaining := rest })
  else .ok (.inr s.dest)

/-- `copy_with_buffer`. -/
def copyWithBuffer (src : R) (srcPos : Nat) (dest : M) (destPos len : Nat)
    (buf : List U64) : Call M := do
  .guardOk (buf ≠ [])
  let s ← iterate (copyPass src) (len + 1) ⟨dest, srcPos, destPos, len, buf, 0⟩
  iterate drainPass (s.remaining + 1) s

/-- `copy`. -/
def copy (src : R) (srcPos : Nat) (dest : M) (destPos len mem : Nat) :
    Call M := do
  .guardOk (srcPos + len ≤ Mutable.size src)
  .guardOk (destPos + len ≤ Mutable.size dest)
  let capacity := mem / 8
  if capacity = 0 then
    (List.range len).foldlM (fun dest i => do
      let v ← Mutable.get src (srcPos + i)
      Mutable.set dest (destPos + i) v) dest
  else if 0 < len then do
    let buf ← vecZeroed (min capacity len)
    copyWithBuffer src srcPos dest destPos len buf
  else .ok dest

end Copy

/-! ## Lawful arrays -/

/-- What the operations of a packed array are for.  `Rep m vs` says that `m`
holds the plain values `vs`, and `Fits m v` that `v` may be stored in `m`. -/
class LawfulMutable (M : Type) [Mutable M] where
  Rep : M → List U64 → Prop
  Fits : M → U64 → Prop
  size_eq : ∀ {m vs}, Rep m vs → Mutable.size m = vs.length
  get_spec : ∀ {m vs i v}, Rep m vs → vs[i]? = some v →
    Mutable.get m i = .ok v
  /-- A bulk read makes progress, and leaves the slots that it does not
  report as they were. -/
  getBulk_spec : ∀ {m vs i arr}, Rep m vs → i < vs.length → arr ≠ [] →
    ∃ n, 0 < n ∧ n ≤ arr.length ∧ i + n ≤ vs.length ∧
      Mutable.getBulk m i arr = .ok ((vs.drop i).take n ++ arr.drop n, n)
  set_spec : ∀ {m vs i v}, Rep m vs → i < vs.length → Fits m v →
    ∃ m', Mutable.set m i v = .ok m' ∧ Rep m' (vs.set i v) ∧
      ∀ u, Fits m u → Fits m' u
  /-- A bulk write makes progress, and writes the values that it reports and
  nothing else. -/
  setBulk_spec : ∀ {m vs i arr}, Rep m vs → i < vs.length → arr ≠ [] →
    (∀ v ∈ arr, Fits m v) →
    ∃ m' n, Mutable.setBulk m i arr = .ok (m', n) ∧ 0 < n ∧
      n ≤ arr.length ∧ i + n ≤ vs.length ∧ Rep m' (splice vs i (arr.take n)) ∧
      ∀ u, Fits m u → Fits m' u
  fill_spec : ∀ {m vs lo hi v}, Rep m vs → lo ≤ hi → hi ≤ vs.length →
    Fits m v → ∃ m', Mutable.fill m lo hi v = .ok m' ∧
      Rep m' (splice vs lo (List.replicate (hi - lo) v)) ∧
      ∀ u, Fits m u → Fits m' u
  clear_spec : ∀ {m vs}, Rep m vs → ∃ m', Mutable.clear m = .ok m' ∧
    Rep m' (List.replicate vs.length 0#64) ∧ ∀ u, Fits m u → Fits m' u

/-- The laws of an array that keeps its width: what fits is a matter of the
width alone. -/
class FixedWidth (M : Type) [Mutable M] where
  Holds : M → List U64 → Prop
  size_eq : ∀ {m vs}, Holds m vs → Mutable.size m = vs.length
  get_spec : ∀ {m vs i v}, Holds m vs → vs[i]? = some v →
    Mutable.get m i = .ok v
  getBulk_spec : ∀ {m vs i arr}, Holds m vs → i < vs.length → arr ≠ [] →
    ∃ n, 0 < n ∧ n ≤ arr.length ∧ i + n ≤ vs.length ∧
      Mutable.getBulk m i arr = .ok ((vs.drop i).take n ++ arr.drop n, n)
  set_spec : ∀ {m vs i v}, Holds m vs → i < vs.length →
    v.toNat < 2 ^ Mutable.bitsPerValue m →
    ∃ m', Mutable.set m i v = .ok m' ∧ Holds m' (vs.set i v) ∧
      Mutable.bitsPerValue m' = Mutable.bitsPerValue m
  setBulk_spec : ∀ {m vs i arr}, Holds m vs → i < vs.length → arr ≠ [] →
    (∀ v ∈ arr, v.toNat < 2 ^ Mutable.bitsPerValue m) →
    ∃ m' n, Mutable.setBulk m i arr = .ok (m', n) ∧ 0 < n ∧
      n ≤ arr.length ∧ i + n ≤ vs.length ∧
      Holds m' (splice vs i (arr.take n)) ∧
      Mutable.bitsPerValue m' = Mutable.bitsPerValue m
  fill_spec : ∀ {m vs lo hi v}, Holds m vs → lo ≤ hi → hi ≤ vs.length →
    v.toNat < 2 ^ Mutable.bitsPerValue m →
    ∃ m', Mutable.fill m lo hi v = .ok m' ∧
      Holds m' (splice vs lo (List.replicate (hi - lo) v)) ∧
      Mutable.bitsPerValue m' = Mutable.bitsPerValue m
  clear_spec : ∀ {m vs}, Holds m vs → ∃ m', Mutable.clear m = .ok m' ∧
    Holds m' (List.replicate vs.length 0#64) ∧
    Mutable.bitsPerValue m' = Mutable.bitsPerValue m

section

variable {M : Type} [Mutable M]

theorem fits_of_bits_eq {m m' : M}
    (h : Mutable.bitsPerValue m' = Mutable.bitsPerValue m) (u : U64)
    (hu : u.toNat < 2 ^ Mutable.bitsPerValue m) :
    u.toNat < 2 ^ Mutable.bitsPerValue m' := by
  rwa [h]

instance [FixedWidth M] : LawfulMutable M where
  Rep := FixedWidth.Holds
  Fits m v := v.toNat < 2 ^ Mutable.bitsPerValue m
  size_eq := FixedWidth.size_eq
  get_spec := FixedWidth.get_spec
  getBulk_spec := FixedWidth.getBulk_spec
  set_spec := by
    intro m vs i v h hi hv
    obtain ⟨m', hset, h', hbits⟩ := FixedWidth.set_spec h hi hv
    exact ⟨m', hset, h', fits_of_bits_eq hbits⟩
  setBulk_spec := by
    intro m vs i arr h hi hne hv
    obtain ⟨m', n, hset, hn, hle, hin, h', hbits⟩ :=
      FixedWidth.setBulk_spec h hi hne hv
    exact ⟨m', n, hset, hn, hle, hin, h', fits_of_bits_eq hbits⟩
  fill_spec := by
    intro m vs lo hi v h hle hhi hv
    obtain ⟨m', hset, h', hbits⟩ := FixedWidth.fill_spec h hle hhi hv
    exact ⟨m', hset, h', fits_of_bits_eq hbits⟩
  clear_spec := by
    intro m vs h
    obtain ⟨m', hset, h', hbits⟩ := FixedWidth.clear_spec h
    exact ⟨m', hset, h', fits_of_bits_eq hbits⟩

end

end LuceneRust.Util.Packed
