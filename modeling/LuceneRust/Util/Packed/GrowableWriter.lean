import LuceneRust.Util.Packed.Packed64
import LuceneRust.Util.Packed.Packed64SingleBlock

/-!
# `lucene_util::packed::growable_writer`

A packed array whose width grows on demand: a value that does not fit makes
the writer copy the array into a wider one.

The width of a new array depends on an overhead ratio, a float.  All that the
code takes from it is a number of extra bits for each width, so a writer has
that function in the place of the ratio; nothing is assumed of it.

* `ensureCapacity_spec` is the widening: it keeps every value, and the value
  that it is called for fits after it.
* `packed_arrays_refine` is the refinement of plain lists, for both layouts
  and for the writer.
-/

namespace LuceneRust.Util.Packed

open RustSem WordTape
open BitStream (IsMask)

/-! ## What `get_mutable` returns -/

/-- `PackedMutable`. -/
inductive PackedMutable where
  | packed64 (p : Packed64)
  | singleBlock (p : Packed64SingleBlock)

namespace PackedMutable

instance : Mutable PackedMutable where
  size
    | packed64 p => Mutable.size p
    | singleBlock p => Mutable.size p
  bitsPerValue
    | packed64 p => Mutable.bitsPerValue p
    | singleBlock p => Mutable.bitsPerValue p
  get
    | packed64 p => Mutable.get p
    | singleBlock p => Mutable.get p
  getBulk
    | packed64 p => Mutable.getBulk p
    | singleBlock p => Mutable.getBulk p
  set
    | packed64 p => fun i v => packed64 <$> Mutable.set p i v
    | singleBlock p => fun i v => singleBlock <$> Mutable.set p i v
  setBulk
    | packed64 p => fun i arr =>
      Prod.map packed64 id <$> Mutable.setBulk p i arr
    | singleBlock p => fun i arr =>
      Prod.map singleBlock id <$> Mutable.setBulk p i arr
  fill
    | packed64 p => fun lo hi v => packed64 <$> Mutable.fill p lo hi v
    | singleBlock p => fun lo hi v => singleBlock <$> Mutable.fill p lo hi v
  clear
    | packed64 p => packed64 <$> Mutable.clear p
    | singleBlock p => singleBlock <$> Mutable.clear p

/-- The array holds the values `vs`. -/
def Holds : PackedMutable → List U64 → Prop
  | packed64 p, vs => p.Holds vs
  | singleBlock p, vs => p.Holds vs

instance : FixedWidth PackedMutable where
  Holds := Holds
  size_eq := by
    intro m vs h
    cases m with
    | packed64 p => exact h.size
    | singleBlock p => exact h.size
  get_spec := by
    intro m vs i v h hv
    cases m with
    | packed64 p => exact p.get_holds h hv
    | singleBlock p => exact p.get_holds h hv
  getBulk_spec := by
    intro m vs i arr h hi hne
    cases m with
    | packed64 p => exact p.getBulk_holds h hi hne
    | singleBlock p => exact p.getBulk_holds h hi hne
  set_spec := by
    intro m vs i v h hi hv
    cases m with
    | packed64 p =>
      obtain ⟨p', hset, h'⟩ := p.set_holds h hi hv
      exact ⟨packed64 p', congrArg (packed64 <$> ·) hset, h'⟩
    | singleBlock p =>
      obtain ⟨p', hset, h'⟩ := p.set_holds h hi hv
      exact ⟨singleBlock p', congrArg (singleBlock <$> ·) hset, h'⟩
  setBulk_spec := by
    intro m vs i arr h hi hne hv
    cases m with
    | packed64 p =>
      obtain ⟨p', n, hset, h'⟩ := p.setBulk_holds h hi hne hv
      exact ⟨packed64 p', n, congrArg (Prod.map packed64 id <$> ·) hset, h'⟩
    | singleBlock p =>
      obtain ⟨p', n, hset, h'⟩ := p.setBulk_holds h hi hne hv
      exact ⟨singleBlock p', n, congrArg (Prod.map singleBlock id <$> ·) hset,
        h'⟩
  fill_spec := by
    intro m vs lo hi v h hle hhi hv
    cases m with
    | packed64 p =>
      obtain ⟨p', hset, h'⟩ := p.fill_holds h hle hhi hv
      exact ⟨packed64 p', congrArg (packed64 <$> ·) hset, h'⟩
    | singleBlock p =>
      obtain ⟨p', hset, h'⟩ := p.fill_holds h hle hhi hv
      exact ⟨singleBlock p', congrArg (singleBlock <$> ·) hset, h'⟩
  clear_spec := by
    intro m vs h
    cases m with
    | packed64 p =>
      obtain ⟨p', hset, h'⟩ := p.clear_holds h
      exact ⟨packed64 p', congrArg (packed64 <$> ·) hset, h'⟩
    | singleBlock p =>
      obtain ⟨p', hset, h'⟩ := p.clear_holds h
      exact ⟨singleBlock p', congrArg (singleBlock <$> ·) hset, h'⟩

end PackedMutable

/-- `fastest_format_and_bits`.  `overhead bits` is the clamped ratio times
`bits`, truncated to an integer. -/
def fastestFormatAndBits (overhead : Nat → Int) (bits : Nat) : Format × Nat :=
  let maxBits : Int := bits + overhead bits
  let actual :=
    if bits ≤ 8 ∧ 8 ≤ maxBits then 8
    else if bits ≤ 16 ∧ 16 ≤ maxBits then 16
    else if bits ≤ 32 ∧ 32 ≤ maxBits then 32
    else if bits ≤ 64 ∧ 64 ≤ maxBits then 64
    else bits
  (.packed, actual)

/-- `get_mutable_with_format`. -/
def getMutableWithFormat (valueCount bits : Nat) :
    Format → Call PackedMutable
  | .packedSingleBlock =>
    .singleBlock <$> Packed64SingleBlock.new valueCount bits
  | .packed => .packed64 <$> Packed64.new valueCount bits

/-- `get_mutable`. -/
def getMutable (valueCount bits : Nat) (overhead : Nat → Int) :
    Call PackedMutable :=
  let (format, actual) := fastestFormatAndBits overhead bits
  getMutableWithFormat valueCount actual format

/-! ## The writer -/

/-- `GrowableWriter`. -/
structure GrowableWriter where
  currentMask : U64
  current : PackedMutable
  overhead : Nat → Int

namespace GrowableWriter

/-- `GrowableWriter.mask`. -/
def mask (bits : Nat) : U64 :=
  if bits = 64 then BitVec.allOnes 64 else maxValue bits

/-- `DEFAULT_BUFFER_SIZE`. -/
def defaultBufferSize : Nat := 1024

/-- `GrowableWriter::new`. -/
def new (startBits valueCount : Nat) (overhead : Nat → Int) :
    Call GrowableWriter := do
  let current ← getMutable valueCount startBits overhead
  .ok ⟨mask (Mutable.bitsPerValue current), current, overhead⟩

/-- `ensure_capacity`. -/
def ensureCapacity (g : GrowableWriter) (value : U64) :
    Call GrowableWriter := do
  if value &&& g.currentMask = value then .ok g
  else
    let bitsRequired := unsignedBitsRequired value
    .guardOk (Mutable.bitsPerValue g.current < bitsRequired)
    let valueCount := Mutable.size g.current
    let next ← getMutable valueCount bitsRequired g.overhead
    let next ← copy g.current 0 next 0 valueCount defaultBufferSize
    .ok { g with current := next, currentMask := mask (Mutable.bitsPerValue next) }

/-- `set`. -/
def set (g : GrowableWriter) (index : Nat) (value : U64) :
    Call GrowableWriter := do
  let g ← g.ensureCapacity value
  let current ← Mutable.set g.current index value
  .ok { g with current := current }

/-- `set_bulk`. -/
def setBulk (g : GrowableWriter) (index : Nat) (arr : List U64) :
    Call (GrowableWriter × Nat) := do
  let g ← g.ensureCapacity (arr.foldl (fun m v => m ||| v) 0#64)
  let (current, n) ← Mutable.setBulk g.current index arr
  .ok ({ g with current := current }, n)

/-- `fill`. -/
def fill (g : GrowableWriter) (lo hi : Nat) (val : U64) :
    Call GrowableWriter := do
  let g ← g.ensureCapacity val
  let current ← Mutable.fill g.current lo hi val
  .ok { g with current := current }

/-- `clear`. -/
def clear (g : GrowableWriter) : Call GrowableWriter := do
  let current ← Mutable.clear g.current
  .ok { g with current := current }

instance : Mutable GrowableWriter where
  size g := Mutable.size g.current
  bitsPerValue g := Mutable.bitsPerValue g.current
  get g := Mutable.get g.current
  getBulk g := Mutable.getBulk g.current
  set := set
  setBulk := setBulk
  fill := fill
  clear := clear

/-! ## Widening -/

theorem fastestFormatAndBits_spec (overhead : Nat → Int) {bits : Nat}
    (hbits : bits ≤ 64) : ∃ actual, bits ≤ actual ∧ actual ≤ 64 ∧
      fastestFormatAndBits overhead bits = (.packed, actual) := by
  refine ⟨_, ?_, ?_, rfl⟩
  · split_ifs <;> omega
  · split_ifs <;> omega

/-- `get_mutable` makes an array of zeros that is wide enough. -/
theorem getMutable_spec (overhead : Nat → Int) {n bits : Nat} (h1 : 1 ≤ bits)
    (h64 : bits ≤ 64) (halloc : 8 * n ≤ maxAlloc) :
    ∃ m, getMutable n bits overhead = .ok m ∧
      FixedWidth.Holds m (List.replicate n 0#64) ∧
      bits ≤ Mutable.bitsPerValue m := by
  obtain ⟨actual, hle, hle64, hfast⟩ := fastestFormatAndBits_spec overhead h64
  have hlong : 8 * Format.packed.longCount n actual ≤ maxAlloc := by
    have hmul : n * actual ≤ n * 64 := Nat.mul_le_mul_left n hle64
    simp only [Format.longCount, packedByteCount, saturatingMul]
    have hbytes := mul_divCeil_lt (min (n * actual) (2 ^ 64 - 1)) (b := 8)
      (by decide)
    have hlongs := mul_divCeil_lt
      (divCeil (min (n * actual) (2 ^ 64 - 1)) 8) (b := 8) (by decide)
    omega
  obtain ⟨p, hnew, hp, hw⟩ := Packed64.new_holdsAt (h1.trans hle) hle64 hlong
  refine ⟨.packed64 p, ?_, hp, ?_⟩
  · simp only [getMutable, hfast, getMutableWithFormat, hnew]
    rfl
  · exact hle.trans (Nat.le_of_eq hw.symm)

theorem bitsPerValue_le (m : PackedMutable) :
    1 ≤ Mutable.bitsPerValue m ∧ Mutable.bitsPerValue m ≤ 64 := by
  cases m with
  | packed64 p => exact p.width
  | singleBlock p =>
    obtain ⟨h1, h32⟩ := BulkOperation.supported_le _ p.supported
    exact ⟨h1, h32.trans (by decide)⟩

theorem isMask_mask {bits : Nat} (h : bits ≤ 64) : IsMask (mask bits) bits := by
  unfold mask
  split
  · rename_i h64
    intro j hj
    rw [BitVec.getLsbD_allOnes, h64]
  · exact isMask_maxValue (by omega)

/-- A value is inside the mask when it fits the width. -/
theorem and_mask_eq_iff {v m : U64} {w : Nat} (hm : IsMask m w) :
    v &&& m = v ↔ v.toNat < 2 ^ w := by
  constructor
  · intro h
    apply Nat.lt_pow_two_of_testBit
    intro k hk
    rw [BitVec.testBit_toNat, ← h, BitVec.getLsbD_and]
    by_cases h64 : k < 64
    · rw [hm k h64]
      simp [show ¬ k < w by omega]
    · rw [BitVec.getLsbD_of_ge m k (by omega), Bool.and_false]
  · intro h
    apply BitVec.eq_of_getLsbD_eq
    intro k hk
    rw [BitVec.getLsbD_and, hm k hk]
    by_cases hkw : k < w
    · simp [hkw]
    · rw [getLsbD_eq_false_of_lt h (by omega), Bool.false_and]

/-- The writer holds the values `vs`, and there is memory for them at the
full width. -/
structure Holds (g : GrowableWriter) (vs : List U64) : Prop where
  rep : FixedWidth.Holds g.current vs
  isMask : g.currentMask = mask (Mutable.bitsPerValue g.current)
  alloc : 8 * vs.length ≤ maxAlloc

variable {g : GrowableWriter} {vs : List U64}

/-- Every value that an array holds fits its width. -/
theorem fits_of_holds {m : PackedMutable} (h : FixedWidth.Holds m vs) :
    ∀ v ∈ vs, v.toNat < 2 ^ Mutable.bitsPerValue m := by
  cases m with
  | packed64 p => exact Packed64.Holds.fits h
  | singleBlock p => exact Packed64SingleBlock.Holds.fits h

/-- Widening keeps every value, and makes room for the new one. -/
theorem ensureCapacity_spec (h : Holds g vs) (v : U64) :
    ∃ g', g.ensureCapacity v = .ok g' ∧ Holds g' vs ∧
      v.toNat < 2 ^ Mutable.bitsPerValue g'.current := by
  obtain ⟨h1, h64⟩ := bitsPerValue_le g.current
  have hiff := and_mask_eq_iff (v := v) (isMask_mask h64)
  rw [ensureCapacity, h.isMask]
  by_cases hin : v &&& mask (Mutable.bitsPerValue g.current) = v
  · rw [if_pos hin]
    exact ⟨g, rfl, h, hiff.1 hin⟩
  · have hlt : Mutable.bitsPerValue g.current < unsignedBitsRequired v := by
      rw [← Nat.not_le, unsignedBitsRequired_le_iff h1, ← hiff]
      exact hin
    have hreq : unsignedBitsRequired v ≤ 64 :=
      (unsignedBitsRequired_le_iff (by decide)).2 v.isLt
    have hsize := FixedWidth.size_eq h.rep
    obtain ⟨next, hnext, hzero, hwide⟩ := getMutable_spec g.overhead
      (n := vs.length) (by omega) hreq h.alloc
    have hv : v.toNat < 2 ^ Mutable.bitsPerValue next :=
      (unsignedBitsRequired_le_iff (by omega)).1 hwide
    obtain ⟨next', hcopy, hrep, hfit⟩ := copy_spec defaultBufferSize g.current next h.rep hzero
      (by rw [List.length_replicate]) (by decide) (by decide)
      (fun u hu => (fits_of_holds h.rep u hu).trans_le
        (Nat.pow_le_pow_right (by decide) (by omega)))
    refine ⟨⟨mask (Mutable.bitsPerValue next'), next', g.overhead⟩, ?_,
      ⟨hrep, rfl, h.alloc⟩, hfit v hv⟩
    rw [if_neg hin]
    dsimp only
    rw [guardOk_pos hlt, ok_bind]
    rw [hsize, hnext, ok_bind, hcopy, ok_bind]

/-- A value is below a power of two that its disjunction with others is
below. -/
theorem lt_of_mem_foldl_or {b : Nat} (arr : List U64) :
    ∀ acc : U64, (arr.foldl (fun m v => m ||| v) acc).toNat < 2 ^ b →
      acc.toNat < 2 ^ b ∧ ∀ v ∈ arr, v.toNat < 2 ^ b := by
  induction arr with
  | nil =>
    intro acc h
    exact ⟨h, fun v hv => absurd hv List.not_mem_nil⟩
  | cons a arr ih =>
    intro acc h
    obtain ⟨hor, hrest⟩ := ih _ h
    rw [BitVec.toNat_or] at hor
    refine ⟨Nat.left_le_or.trans_lt hor, ?_⟩
    intro v hv
    rcases List.mem_cons.1 hv with rfl | hv
    · exact Nat.right_le_or.trans_lt hor
    · exact hrest v hv

/-- An operation after the widening keeps the width, and so the mask. -/
theorem Holds.update (h : Holds g vs) {m' : PackedMutable} {us : List U64}
    (hrep : FixedWidth.Holds m' us)
    (hbits : Mutable.bitsPerValue m' = Mutable.bitsPerValue g.current)
    (hlen : us.length = vs.length) : Holds { g with current := m' } us where
  rep := hrep
  isMask := by
    dsimp only
    rw [hbits, h.isMask]
  alloc := by
    rw [hlen]
    exact h.alloc

instance : LawfulMutable GrowableWriter where
  Rep := Holds
  Fits _ _ := True
  size_eq := by
    intro g vs h
    exact FixedWidth.size_eq (M := PackedMutable) h.rep
  get_spec := by
    intro g vs i v h hv
    exact FixedWidth.get_spec (M := PackedMutable) h.rep hv
  getBulk_spec := by
    intro g vs i arr h hi hne
    exact FixedWidth.getBulk_spec (M := PackedMutable) h.rep hi hne
  set_spec := by
    intro g vs i v h hi _
    obtain ⟨g', hcap, h', hv⟩ := ensureCapacity_spec h v
    obtain ⟨m', hset, hrep, hbits⟩ := FixedWidth.set_spec h'.rep hi hv
    refine ⟨_, ?_, h'.update hrep hbits List.length_set, fun _ _ => trivial⟩
    change g.set i v = _
    rw [set, hcap, ok_bind, hset, ok_bind]
  setBulk_spec := by
    intro g vs i arr h hi hne _
    obtain ⟨g', hcap, h', hv⟩ := ensureCapacity_spec h
      (arr.foldl (fun m v => m ||| v) 0#64)
    obtain ⟨m', n, hset, hn, hle, hin, hrep, hbits⟩ := FixedWidth.setBulk_spec
      h'.rep hi hne (lt_of_mem_foldl_or arr 0#64 hv).2
    refine ⟨_, n, ?_, hn, hle, hin, h'.update hrep hbits (splice_length
      (by rw [List.length_take]; omega)), fun _ _ => trivial⟩
    change g.setBulk i arr = _
    rw [setBulk, hcap, ok_bind, hset, ok_bind]
  fill_spec := by
    intro g vs lo hi v h hle hhi _
    obtain ⟨g', hcap, h', hv⟩ := ensureCapacity_spec h v
    obtain ⟨m', hset, hrep, hbits⟩ := FixedWidth.fill_spec h'.rep hle hhi hv
    refine ⟨_, ?_, h'.update hrep hbits (splice_length
      (by rw [List.length_replicate]; omega)), fun _ _ => trivial⟩
    change g.fill lo hi v = _
    rw [fill, hcap, ok_bind, hset, ok_bind]
  clear_spec := by
    intro g vs h
    obtain ⟨m', hset, hrep, hbits⟩ := FixedWidth.clear_spec h.rep
    refine ⟨_, ?_, h.update hrep hbits List.length_replicate,
      fun _ _ => trivial⟩
    change g.clear = _
    rw [clear, hset, ok_bind]

theorem new_holds {start n : Nat} (overhead : Nat → Int) (h1 : 1 ≤ start)
    (h64 : start ≤ 64) (halloc : 8 * n ≤ maxAlloc) :
    ∃ g, new start n overhead = .ok g ∧ Holds g (List.replicate n 0#64) := by
  obtain ⟨m, hnew, hrep, -⟩ := getMutable_spec overhead h1 h64 halloc
  refine ⟨⟨mask (Mutable.bitsPerValue m), m, overhead⟩, ?_,
    ⟨hrep, rfl, by rwa [List.length_replicate]⟩⟩
  rw [new, hnew, ok_bind]

end GrowableWriter

/-! ## Packed arrays refine plain lists -/

/-- Every sequence of operations with indices in range does to a packed array
what it does to a plain list, at every width and size that can be allocated:
for values that fit the width in the two layouts, and for all values in a
writer. -/
theorem packed_arrays_refine (n : Nat) :
    (∀ w, 1 ≤ w → w ≤ 64 → 8 * Format.packed.longCount n w ≤ maxAlloc →
      RefinesPlain (Packed64.new n w) n fun v => v.toNat < 2 ^ w) ∧
    (∀ w ∈ supportedBitsPerValue,
      8 * Format.packedSingleBlock.longCount n w ≤ maxAlloc →
      RefinesPlain (Packed64SingleBlock.new n w) n fun v => v.toNat < 2 ^ w) ∧
    ∀ start overhead, 1 ≤ start → start ≤ 64 → 8 * n ≤ maxAlloc →
      RefinesPlain (GrowableWriter.new start n overhead) n fun _ => True := by
  refine ⟨?_, ?_, ?_⟩
  · intro w hw hw' halloc
    obtain ⟨m, hnew, h, rfl⟩ := Packed64.new_holdsAt hw hw' halloc
    exact refinesPlain_of_rep hnew h fun _ hv => hv
  · intro w hw halloc
    obtain ⟨m, hnew, h, rfl⟩ := Packed64SingleBlock.new_holdsAt hw halloc
    exact refinesPlain_of_rep hnew h fun _ hv => hv
  · intro start overhead h1 h64 halloc
    obtain ⟨g, hnew, h⟩ := GrowableWriter.new_holds overhead h1 h64 halloc
    exact refinesPlain_of_rep hnew h fun _ _ => trivial

/-- A width that straddles words, a single-block width and a writer that
starts at one bit, all with a hundred values. -/
theorem packed_arrays_refine_hundred :
    RefinesPlain (Packed64.new 100 13) 100 (fun v => v.toNat < 2 ^ 13) ∧
    RefinesPlain (Packed64SingleBlock.new 100 21) 100
      (fun v => v.toNat < 2 ^ 21) ∧
    RefinesPlain (GrowableWriter.new 1 100 fun _ => 0) 100 fun _ => True :=
  ⟨(packed_arrays_refine 100).1 13 (by decide) (by decide) (by decide),
    (packed_arrays_refine 100).2.1 21 (by decide) (by decide),
    (packed_arrays_refine 100).2.2 1 _ (by decide) (by decide) (by decide)⟩

end LuceneRust.Util.Packed
