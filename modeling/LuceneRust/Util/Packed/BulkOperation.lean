import LuceneRust.Lib.WordTape
import LuceneRust.Util.PackedLongs
import LuceneRust.Util.Packed.Mutable

/-!
# `lucene_util::packed::bulk_operation`

The codecs that move values in and out of whole blocks of words.  The format
`packed` writes the values as one stream, most significant bit first.  The
format `packedSingleBlock` puts `64 / bpv` values in a word, least significant
first.  The widths that the source unrolls run the same loop, and so do the
`int` forms; the byte forms are not modelled here.

* `decodeLongs_packed` and `encodeLongs_packed` say what the first format
  reads and writes, over the tape of the words and the tape of the values.
* `decodeLongs_single` and `encodeLongs_single` say it for the second.
-/

namespace LuceneRust.Util.Packed

open RustSem WordTape
open BitStream (IsMask)

/-- `PackedInts.Format`. -/
inductive Format where
  | packed
  | packedSingleBlock
  deriving DecidableEq, Repr

/-- `SUPPORTED_BITS_PER_VALUE` of the single-block layout. -/
def supportedBitsPerValue : List Nat :=
  [1, 2, 3, 4, 5, 6, 7, 8, 9, 10, 12, 16, 21, 32]

/-- `Format.is_supported`. -/
def Format.isSupported : Format → Nat → Bool
  | .packed, bits => decide (1 ≤ bits ∧ bits ≤ 64)
  | .packedSingleBlock, bits => supportedBitsPerValue.contains bits

/-- `div_ceil`. -/
def divCeil (a b : Nat) : Nat := a / b + if a % b = 0 then 0 else 1

theorem le_mul_divCeil (a : Nat) {b : Nat} (hb : 0 < b) :
    a ≤ b * divCeil a b := by
  have hdm := Nat.div_add_mod a b
  have hmod := Nat.mod_lt a hb
  unfold divCeil
  split
  · rw [Nat.add_zero]
    omega
  · rw [Nat.mul_add, Nat.mul_one]
    omega

theorem mul_divCeil_lt (a : Nat) {b : Nat} (hb : 0 < b) :
    b * divCeil a b < a + b := by
  have hdm := Nat.div_add_mod a b
  unfold divCeil
  split
  · rw [Nat.add_zero]
    omega
  · rw [Nat.mul_add, Nat.mul_one]
    omega

/-- `Format.byte_count` of the format `packed`. -/
def packedByteCount (valueCount bits : Nat) : Nat :=
  divCeil (saturatingMul valueCount bits) 8

/-- `Format.long_count`. -/
def Format.longCount : Format → Nat → Nat → Nat
  | .packed, valueCount, bits => divCeil (packedByteCount valueCount bits) 8
  | .packedSingleBlock, valueCount, bits => divCeil valueCount (64 / bits)

/-- `BulkOperation`. -/
structure BulkOperation where
  format : Format
  bitsPerValue : Nat
  longBlockCount : Nat
  longValueCount : Nat
  byteBlockCount : Nat
  byteValueCount : Nat
  mask : U64
  deriving DecidableEq

namespace BulkOperation

/-- The loop `while blocks & 1 == 0 { blocks >>= 1 }`, of at most `fuel`
passes. -/
def halve : Nat → Nat → Nat
  | 0, blocks => blocks
  | fuel + 1, blocks => if blocks % 2 = 0 then halve fuel (blocks / 2) else blocks

/-- The same loop over two counts. -/
def halveBoth : Nat → Nat → Nat → Nat × Nat
  | 0, a, b => (a, b)
  | fuel + 1, a, b =>
    if a % 2 = 0 ∧ b % 2 = 0 then halveBoth fuel (a / 2) (b / 2) else (a, b)

/-- `BulkOperation.of`. -/
def of (format : Format) (bits : Nat) : Call BulkOperation := do
  .guardOk (format.isSupported bits)
  match format with
  | .packed =>
    let longBlockCount := halve bits bits
    let longValueCount := 64 * longBlockCount / bits
    let bytes := halveBoth 64 (8 * longBlockCount) longValueCount
    .ok ⟨.packed, bits, longBlockCount, longValueCount, bytes.1, bytes.2,
      lowMask bits⟩
  | .packedSingleBlock =>
    .ok ⟨.packedSingleBlock, bits, 1, 64 / bits, 8, 64 / bits, lowMask bits⟩

/-! ## Decoding -/

/-- `u64::wrapping_shl`. -/
def wrappingShl (v : U64) (n : Nat) : U64 := v <<< (n % 64)

/-- One pass of `packed_from_longs`: a value, the bits that are left in the
word `bo`, and `bo`. -/
def unpackOne (words : List U64) (bpv : Nat) (mask : U64) (bitsLeft : Int)
    (bo : Nat) : Call (U64 × Int × Nat) := do
  let bitsLeft := bitsLeft - bpv
  if bitsLeft < 0 then
    let word ← .expect words[bo]?
    let high := word &&& ((1#64 <<< (bpv + bitsLeft).toNat) - 1#64)
    let next ← .expect words[bo + 1]?
    .ok (wrappingShl high (-bitsLeft).toNat ||| next >>> (64 + bitsLeft).toNat,
      bitsLeft + 64, bo + 1)
  else
    let word ← .expect words[bo]?
    .ok ((word >>> bitsLeft.toNat) &&& mask, bitsLeft, bo)

/-- The loop of `packed_from_longs` over `n` values. -/
def unpack (words : List U64) (bpv : Nat) (mask : U64) :
    Nat → Int → Nat → Call (List U64)
  | 0, _, _ => .ok []
  | n + 1, bitsLeft, bo => do
    let (v, bitsLeft, bo) ← unpackOne words bpv mask bitsLeft bo
    let vs ← unpack words bpv mask n bitsLeft bo
    .ok (v :: vs)

/-- `packed_from_longs` into `n` slots. -/
def packedFromLongs (words : List U64) (n bpv : Nat) : Call (List U64) := do
  .guardOk (1 ≤ bpv ∧ bpv ≤ 64)
  .guardOk (n * bpv = words.length * 64)
  unpack words bpv (lowMask bpv) n 64 0

/-- `decode_single` into `n` slots. -/
def decodeSingle (op : BulkOperation) : Nat → U64 → List U64
  | 0, _ => []
  | n + 1, block =>
    (block &&& op.mask) :: decodeSingle op n (block >>> op.bitsPerValue)

/-- `decode_longs`: the slots after the call. -/
def decodeLongs (op : BulkOperation) (blocks values : List U64)
    (iterations : Nat) : Call (List U64) := do
  let n := iterations * op.longValueCount
  match op.format with
  | .packed =>
    let words ← .expect (slice blocks 0 (op.longBlockCount * iterations))
    .guardOk (n ≤ values.length)
    let vs ← packedFromLongs words n op.bitsPerValue
    .ok (vs ++ values.drop n)
  | .packedSingleBlock =>
    let words ← .expect (slice blocks 0 iterations)
    .guardOk (n ≤ values.length)
    .ok (words.flatMap (decodeSingle op op.longValueCount) ++ values.drop n)

/-! ## Encoding -/

/-- `blocks[i] = word`. -/
def setBlock (blocks : List U64) (i : Nat) (word : U64) : Call (List U64) :=
  if i < blocks.length then .ok (blocks.set i word) else .panic

theorem setBlock_ok {blocks : List U64} {i : Nat} (h : i < blocks.length)
    (word : U64) : setBlock blocks i word = .ok (blocks.set i word) := if_pos h

/-- The state of the loop of `encode_longs`. -/
structure PackState where
  nextBlock : U64
  bitsLeft : Int
  bo : Nat
  blocks : List U64

/-- One pass of `encode_longs`. -/
def packOne (bpv : Nat) (s : PackState) (v : U64) : Call PackState := do
  let bitsLeft := s.bitsLeft - bpv
  if 0 < bitsLeft then
    .ok { s with
      nextBlock := s.nextBlock ||| v <<< bitsLeft.toNat, bitsLeft := bitsLeft }
  else if bitsLeft = 0 then
    let blocks ← setBlock s.blocks s.bo (s.nextBlock ||| v)
    .ok ⟨0#64, 64, s.bo + 1, blocks⟩
  else
    let n := (-bitsLeft).toNat
    let blocks ← setBlock s.blocks s.bo (s.nextBlock ||| v >>> n)
    .ok ⟨(v &&& ((1#64 <<< n) - 1#64)) <<< (64 + bitsLeft).toNat,
      bitsLeft + 64, s.bo + 1, blocks⟩

/-- `encode_single`. -/
def encodeSingle (op : BulkOperation) (values : List U64) : Call U64 := do
  let first ← .expect values[0]?
  let rest ← .expect (slice values 1 op.longValueCount)
  .ok (rest.zipIdx.foldl (fun (block : U64) (v : U64 × Nat) =>
    block ||| v.1 <<< ((v.2 + 1) * op.bitsPerValue)) first)

/-- `encode_longs`: the blocks after the call. -/
def encodeLongs (op : BulkOperation) (values blocks : List U64)
    (iterations : Nat) : Call (List U64) := do
  match op.format with
  | .packed =>
    let vals ← .expect (slice values 0 (op.longValueCount * iterations))
    let s ← vals.foldlM (packOne op.bitsPerValue) ⟨0#64, 64, 0, blocks⟩
    .ok s.blocks
  | .packedSingleBlock =>
    .guardOk (iterations ≤ blocks.length)
    (List.range iterations).foldlM (fun blocks i => do
      let vals ← .expect (sliceFrom values (i * op.longValueCount))
      let block ← encodeSingle op vals
      setBlock blocks i block) blocks

/-! ## Geometry -/

/-- Whole words hold whole values: the geometry of the format `packed`. -/
theorem halve_spec : ∀ w < 65, 1 ≤ w →
    64 * halve w w / w * w = 64 * halve w w ∧ 0 < 64 * halve w w / w := by
  decide

theorem of_packed {w : Nat} (hw : 1 ≤ w) (hw' : w ≤ 64) :
    ∃ op, of .packed w = .ok op ∧ op.format = .packed ∧ op.bitsPerValue = w ∧
      op.longValueCount * w = 64 * op.longBlockCount ∧
      0 < op.longValueCount := by
  obtain ⟨hmul, hpos⟩ := halve_spec w (by omega) hw
  rw [of, guardOk_pos (by simp [Format.isSupported, hw, hw']),
    ok_bind]
  exact ⟨_, rfl, rfl, rfl, hmul, hpos⟩

theorem supported_le : ∀ w ∈ supportedBitsPerValue, 1 ≤ w ∧ w ≤ 32 := by
  decide

theorem of_single {w : Nat} (hw : w ∈ supportedBitsPerValue) :
    ∃ op, of .packedSingleBlock w = .ok op ∧ op.format = .packedSingleBlock ∧
      op.bitsPerValue = w ∧ op.longValueCount = 64 / w ∧
      IsMask op.mask w := by
  have hle := (supported_le w hw).2
  rw [of, guardOk_pos (by simpa [Format.isSupported] using hw),
    ok_bind]
  exact ⟨_, rfl, rfl, rfl, rfl, lowMask_isMask _ (by omega)⟩

/-! ## What the decoders read -/

theorem isMask_ones {n : Nat} (hn : n < 64) :
    IsMask ((1#64 <<< n) - 1#64) n := by
  have h := lowMask_isMask n (by omega)
  rwa [lowMask, if_neg (by omega)] at h

section Packed

variable {w : Nat}

/-- A pass reads the field at its position `q`. -/
theorem unpackOne_spec {mask : U64} (words : List U64) (hw : 1 ≤ w)
    (hw' : w ≤ 64) (hmask : IsMask mask w) {q bo : Nat} {bitsLeft : Int}
    (h0 : 0 ≤ bitsLeft) (h64 : bitsLeft ≤ 64)
    (hq : (q : Int) + bitsLeft = 64 * bo + 64)
    (hlen : q + w ≤ 64 * words.length) :
    ∃ (bitsLeft' : Int) (bo' : Nat), unpackOne words w mask bitsLeft bo =
        .ok (msbField words q w, bitsLeft', bo') ∧ 0 ≤ bitsLeft' ∧
      bitsLeft' ≤ 64 ∧ ((q + w : Nat) : Int) + bitsLeft' = 64 * bo' + 64 := by
  simp only [unpackOne]
  by_cases hneg : bitsLeft - w < 0
  · have hbo : bo + 1 < words.length := by omega
    have hfield : msbField words q w =
        msbField words (64 * bo + (64 - bitsLeft.toNat)) w := by
      congr 1
      omega
    rw [if_pos hneg, List.getElem?_eq_getElem (by omega), expect_some,
      ok_bind, List.getElem?_eq_getElem hbo, expect_some,
      ok_bind]
    refine ⟨bitsLeft - w + 64, bo + 1, ?_, by omega, by omega, by omega⟩
    rw [hfield, ← msbField_carry (c := bitsLeft.toNat)
      (n := (-(bitsLeft - w)).toNat) (isMask_ones (by omega)) hw' (by omega)
      (by omega) (by omega), List.getD_eq_getElem _ _ (by omega),
      List.getD_eq_getElem _ _ hbo, wrappingShl,
      show (w + (bitsLeft - w)).toNat = bitsLeft.toNat by omega,
      show (64 + (bitsLeft - (w : Int))).toNat =
        64 - (-(bitsLeft - (w : Int))).toNat by omega]
  · have hbo : bo < words.length := by omega
    have hfield : msbField words q w =
        msbField words (64 * bo + (64 - bitsLeft.toNat)) w := by
      congr 1
      omega
    rw [if_neg hneg, List.getElem?_eq_getElem hbo, expect_some,
      ok_bind]
    refine ⟨bitsLeft - w, bo, ?_, by omega, by omega, by omega⟩
    rw [hfield, ← msbField_word hmask (by omega), List.getD_eq_getElem _ _ hbo,
      show 64 - (64 - bitsLeft.toNat) - w = (bitsLeft - w).toNat by omega]

/-- The loop reads the fields from its position on. -/
theorem unpack_spec {mask : U64} (words : List U64) (hw : 1 ≤ w)
    (hw' : w ≤ 64) (hmask : IsMask mask w) (n : Nat) :
    ∀ (q bo : Nat) (bitsLeft : Int), 0 ≤ bitsLeft → bitsLeft ≤ 64 →
      (q : Int) + bitsLeft = 64 * bo + 64 → q + n * w ≤ 64 * words.length →
      unpack words w mask n bitsLeft bo =
        .ok ((List.range n).map fun i => msbField words (q + i * w) w) := by
  induction n with
  | zero =>
    intro q bo bitsLeft _ _ _ _
    rfl
  | succ n ih =>
    intro q bo bitsLeft h0 h64 hq hlen
    rw [Nat.add_mul, Nat.one_mul] at hlen
    obtain ⟨bitsLeft', bo', hone, h0', h64', hq'⟩ := unpackOne_spec words hw hw' hmask h0 h64 hq (by omega)
    have hrec := ih (q + w) bo' bitsLeft' h0' h64' hq' (by omega)
    have hmap : (List.range n).map (fun i => msbField words (q + w + i * w) w) =
        ((List.range n).map Nat.succ).map
          fun i => msbField words (q + i * w) w := by
      rw [List.map_map]
      apply List.map_congr_left
      intro i _
      rw [Function.comp_apply, Nat.succ_mul, Nat.add_assoc, Nat.add_comm w]
    rw [unpack, hone, ok_bind]
    dsimp only
    rw [hrec, ok_bind, List.range_succ_eq_map, List.map_cons, hmap,
      Nat.zero_mul, Nat.add_zero]

/-- What the format `packed` decodes from words that hold the values `vs`. -/
theorem decodeLongs_packed {op : BulkOperation} {blocks vs values : List U64}
    (iterations : Nat) (hf : op.format = .packed)
    (hbits : op.bitsPerValue = w) (hw : 1 ≤ w) (hw' : w ≤ 64)
    (hgeo : op.longValueCount * w = 64 * op.longBlockCount)
    (hpacks : MsbPacks blocks w vs) (hfits : ∀ v ∈ vs, v.toNat < 2 ^ w)
    (hblocks : op.longBlockCount * iterations ≤ blocks.length)
    (hvs : iterations * op.longValueCount ≤ vs.length)
    (hvalues : iterations * op.longValueCount ≤ values.length) :
    op.decodeLongs blocks values iterations =
      .ok (vs.take (iterations * op.longValueCount) ++
        values.drop (iterations * op.longValueCount)) := by
  have hn : iterations * op.longValueCount * w =
      op.longBlockCount * iterations * 64 := by
    rw [Nat.mul_assoc, hgeo, Nat.mul_comm iterations, Nat.mul_assoc,
      Nat.mul_comm 64]
  have hlen : (blocks.take (op.longBlockCount * iterations)).length =
      op.longBlockCount * iterations := List.length_take_of_le hblocks
  have hunpack := unpack_spec (blocks.take (op.longBlockCount * iterations))
    hw hw' (lowMask_isMask _ hw') (iterations * op.longValueCount) 0 0 64
    (by decide) (by decide) (by decide) (by omega)
  simp only [decodeLongs, hf, hbits]
  rw [slice_eq_some (Nat.zero_le _) hblocks, expect_some,
    ok_bind, guardOk_pos hvalues, ok_bind,
    packedFromLongs, guardOk_pos ⟨hw, hw'⟩, ok_bind,
    List.drop_zero, Nat.sub_zero, guardOk_pos (by rw [hlen, hn]),
    ok_bind, hunpack, ok_bind]
  congr 2
  apply List.ext_getElem?
  intro i
  by_cases hi : i < iterations * op.longValueCount
  · have hmul : (i + 1) * w ≤ iterations * op.longValueCount * w :=
      Nat.mul_le_mul_right w hi
    rw [Nat.add_mul, Nat.one_mul] at hmul
    have hiv : i < vs.length := by omega
    have hfield := hpacks.field (List.getElem?_eq_getElem hiv)
      (hfits _ (List.getElem_mem hiv))
    rw [List.getElem?_map, List.getElem?_range hi, Option.map_some,
      List.getElem?_take_of_lt hi, List.getElem?_eq_getElem hiv, Nat.zero_add,
      msbField_take blocks (by omega), hfield]
  · rw [List.getElem?_eq_none (by simpa using hi),
      List.getElem?_eq_none (by rw [List.length_take]; omega)]

/-! ### The encoder -/

/-- The encoder after `i` of the values `vals`: the words below `bo` are
written, and `nextBlock` holds what the next one starts with. -/
structure PackInv (w : Nat) (vals blocks : List U64) (i : Nat)
    (s : PackState) : Prop where
  pos : ((i * w : Nat) : Int) + s.bitsLeft = 64 * s.bo + 64
  lo : 1 ≤ s.bitsLeft
  hi : s.bitsLeft ≤ 64
  len : s.blocks.length = blocks.length
  done : ∀ p < 64 * s.bo, msbAt s.blocks p = valueAt vals w p
  rest : ∀ p, 64 * s.bo ≤ p → msbAt s.blocks p = msbAt blocks p
  next : ∀ r < 64, s.nextBlock.getLsbD (63 - r) =
    (decide (64 * s.bo + r < i * w) && valueAt vals w (64 * s.bo + r))

variable {vals blocks : List U64} {i : Nat} {v : U64}

/-- Bits of value `i`, which starts `s` bits into a word. -/
theorem valueAt_word (hv : vals[i]? = some v) {bo s r : Nat}
    (hpos : i * w = 64 * bo + s) (hs : s ≤ r) (hr : r < s + w) :
    valueAt vals w (64 * bo + r) = v.getLsbD (w - 1 - (r - s)) := by
  have h := valueAt_mul_add vals i (show r - s < w by omega)
  rw [List.getD_eq_getElem?_getD, hv, Option.getD_some] at h
  rw [← h]
  congr 1
  omega

/-- The next word with the value put at its place: the value ends inside the
word (`k` bits before its end). -/
theorem getLsbD_merge_shl (hv : vals[i]? = some v) (hfit : v.toNat < 2 ^ w)
    {nextBlock : U64} {bo s k : Nat} (hpos : i * w = 64 * bo + s)
    (hk : s + w + k = 64) (hnext : ∀ r < 64, nextBlock.getLsbD (63 - r) =
      (decide (64 * bo + r < i * w) && valueAt vals w (64 * bo + r))) :
    ∀ r < 64, (nextBlock ||| v <<< k).getLsbD (63 - r) =
      (decide (64 * bo + r < (i + 1) * w) && valueAt vals w (64 * bo + r)) := by
  intro r hr
  rw [BitVec.getLsbD_or, hnext r hr, BitVec.getLsbD_shiftLeft, Nat.add_mul,
    Nat.one_mul]
  by_cases h1 : r < s
  · rw [getLsbD_eq_false_of_lt hfit (by omega)]
    simp [show 64 * bo + r < i * w by omega,
      show 64 * bo + r < i * w + w by omega]
  · by_cases h2 : r < s + w
    · rw [valueAt_word hv hpos (by omega) h2,
        show 63 - r - k = w - 1 - (r - s) by omega]
      simp [show ¬ 64 * bo + r < i * w by omega,
        show 64 * bo + r < i * w + w by omega, show 63 - r < 64 by omega,
        show ¬ 63 - r < k by omega]
    · simp [show ¬ 64 * bo + r < i * w by omega,
        show ¬ 64 * bo + r < i * w + w by omega, show 63 - r < k by omega]

/-- The same for a value that has `n` bits in the word after it. -/
theorem getLsbD_merge_shr (hv : vals[i]? = some v) (hfit : v.toNat < 2 ^ w)
    {nextBlock : U64} {bo s n : Nat} (hpos : i * w = 64 * bo + s)
    (hn : s + w = 64 + n) (hnext : ∀ r < 64, nextBlock.getLsbD (63 - r) =
      (decide (64 * bo + r < i * w) && valueAt vals w (64 * bo + r))) :
    ∀ r < 64, (nextBlock ||| v >>> n).getLsbD (63 - r) =
      valueAt vals w (64 * bo + r) := by
  intro r hr
  rw [BitVec.getLsbD_or, hnext r hr, BitVec.getLsbD_ushiftRight]
  by_cases h1 : r < s
  · rw [getLsbD_eq_false_of_lt hfit (by omega)]
    simp [show 64 * bo + r < i * w by omega]
  · rw [valueAt_word hv hpos (by omega) (by omega),
      show n + (63 - r) = w - 1 - (r - s) by omega]
    simp [show ¬ 64 * bo + r < i * w by omega]

/-- The word after it starts with the rest of the value. -/
theorem getLsbD_carry (hv : vals[i]? = some v) {bo s n : Nat}
    (hpos : i * w = 64 * bo + s) (hn : s + w = 64 + n) (hs : s < 64)
    (hn' : n < 64) : ∀ r < 64, ((v &&& ((1#64 <<< n) - 1#64)) <<< (64 - n)).getLsbD (63 - r) =
      (decide (64 * (bo + 1) + r < (i + 1) * w) &&
        valueAt vals w (64 * (bo + 1) + r)) := by
  intro r hr
  rw [BitVec.getLsbD_shiftLeft, BitVec.getLsbD_and, Nat.add_mul, Nat.one_mul,
    isMask_ones hn' _ (by omega)]
  by_cases h1 : r < n
  · rw [show 64 * (bo + 1) + r = 64 * bo + (64 + r) by omega,
      valueAt_word hv hpos (by omega) (by omega),
      show 63 - r - (64 - n) = w - 1 - (64 + r - s) by omega]
    simp [show 64 * bo + (64 + r) < i * w + w by omega,
      show 63 - r < 64 by omega, show ¬ 63 - r < 64 - n by omega,
      show w - 1 - (64 + r - s) < n by omega]
  · simp [show ¬ 64 * (bo + 1) + r < i * w + w by omega,
      show 63 - r < 64 - n by omega]

/-- A word that holds the bits of the values is written at `bo`. -/
theorem PackInv.write {s : PackState} (h : PackInv w vals blocks i s)
    (hbo : s.bo < blocks.length) {word : U64}
    (hword : ∀ r < 64, word.getLsbD (63 - r) =
      valueAt vals w (64 * s.bo + r)) :
    setBlock s.blocks s.bo word = .ok (s.blocks.set s.bo word) ∧
      (∀ p < 64 * (s.bo + 1),
        msbAt (s.blocks.set s.bo word) p = valueAt vals w p) ∧
      ∀ p, 64 * (s.bo + 1) ≤ p →
        msbAt (s.blocks.set s.bo word) p = msbAt blocks p := by
  have hlt : s.bo < s.blocks.length := by
    rw [h.len]
    exact hbo
  refine ⟨setBlock_ok hlt word, ?_, ?_⟩
  · intro p hp
    rw [msbAt_set _ p hlt]
    by_cases hpe : p / 64 = s.bo
    · rw [if_pos hpe, hword _ (Nat.mod_lt _ (by decide)), ← hpe,
        Nat.div_add_mod]
    · rw [if_neg hpe, h.done p (by omega)]
  · intro p hp
    rw [msbAt_set _ p hlt, if_neg (by omega), h.rest p (by omega)]

/-- One pass of the encoder. -/
theorem packOne_step {s : PackState} (hw : 1 ≤ w) (hw' : w ≤ 64)
    (h : PackInv w vals blocks i s) (hv : vals[i]? = some v)
    (hfit : v.toNat < 2 ^ w) (hlen : (i + 1) * w ≤ 64 * blocks.length) :
    ∃ s', packOne w s v = .ok s' ∧ PackInv w vals blocks (i + 1) s' := by
  obtain ⟨nextBlock, bitsLeft, bo, cur⟩ := s
  have hpos := h.pos
  have hlo := h.lo
  have hhi := h.hi
  dsimp only at hpos hlo hhi
  have hmul : (i + 1) * w = i * w + w := by rw [Nat.add_mul, Nat.one_mul]
  have hstart : i * w = 64 * bo + (64 - bitsLeft.toNat) := by omega
  simp only [packOne]
  by_cases hgt : 0 < bitsLeft - w
  · rw [if_pos hgt]
    refine ⟨_, rfl, ⟨?_, ?_, ?_, h.len, h.done, h.rest, ?_⟩⟩
    · dsimp only
      omega
    · dsimp only
      omega
    · dsimp only
      omega
    · exact getLsbD_merge_shl hv hfit hstart (by omega) h.next
  · rw [if_neg hgt]
    have hbo : bo < blocks.length := by omega
    by_cases hz : bitsLeft - w = 0
    · have hword : ∀ r < 64, (nextBlock ||| v).getLsbD (63 - r) =
          valueAt vals w (64 * bo + r) := by
        intro r hr
        have hm := getLsbD_merge_shl hv hfit (k := 0) hstart (by omega) h.next
          r hr
        rw [BitVec.shiftLeft_zero] at hm
        rw [hm]
        simp [show 64 * bo + r < (i + 1) * w by omega]
      obtain ⟨hset, hdone, hrest⟩ := h.write hbo hword
      dsimp only at hset hdone hrest
      rw [if_pos hz, hset, ok_bind]
      refine ⟨_, rfl, ⟨?_, (by decide : (1 : Int) ≤ 64), Int.le_refl 64, ?_,
        hdone, hrest, ?_⟩⟩
      · dsimp only
        omega
      · rw [List.length_set]
        exact h.len
      · intro r _
        simp [show ¬ 64 * (bo + 1) + r < (i + 1) * w by omega]
    · have hn : (64 - bitsLeft.toNat) + w = 64 + (-(bitsLeft - w)).toNat := by
        omega
      obtain ⟨hset, hdone, hrest⟩ := h.write hbo
        (getLsbD_merge_shr hv hfit hstart hn h.next)
      dsimp only at hset hdone hrest
      rw [if_neg hz, hset, ok_bind]
      refine ⟨_, rfl, ⟨?_, ?_, ?_, ?_, hdone, hrest, ?_⟩⟩
      · dsimp only
        omega
      · dsimp only
        omega
      · dsimp only
        omega
      · rw [List.length_set]
        exact h.len
      · have hshift : (64 + (bitsLeft - w)).toNat =
            64 - (-(bitsLeft - (w : Int))).toNat := by omega
        rw [hshift]
        exact getLsbD_carry hv hstart hn (by omega) (by omega)

/-- The encoder over all values from `i` on. -/
theorem foldlM_packOne (vals blocks : List U64) (hw : 1 ≤ w) (hw' : w ≤ 64)
    (hfits : ∀ v ∈ vals, v.toNat < 2 ^ w)
    (hlen : vals.length * w ≤ 64 * blocks.length) (rest : List U64) :
    ∀ (i : Nat) (s : PackState), PackInv w vals blocks i s →
      vals.drop i = rest → i ≤ vals.length →
      ∃ s', rest.foldlM (packOne w) s = .ok s' ∧
        PackInv w vals blocks vals.length s' := by
  induction rest with
  | nil =>
    intro i s h hdrop hi
    have : i = vals.length := by
      have := List.drop_eq_nil_iff.1 hdrop
      omega
    exact ⟨s, rfl, this ▸ h⟩
  | cons v rest ih =>
    intro i s h hdrop hi
    have hv : vals[i]? = some v := by
      rw [← Nat.add_zero i, ← List.getElem?_drop, hdrop]
      rfl
    have hlt : i < vals.length := (List.getElem?_eq_some_iff.1 hv).1
    have hmul : (i + 1) * w ≤ vals.length * w := Nat.mul_le_mul_right w hlt
    obtain ⟨s₁, hone, h₁⟩ := packOne_step hw hw' h hv
      (hfits v (List.mem_of_getElem? hv)) (by omega)
    obtain ⟨s₂, hrun, h₂⟩ := ih (i + 1) s₁ h₁
      (by rw [← List.drop_drop, hdrop, List.drop_succ_cons, List.drop_zero])
      hlt
    refine ⟨s₂, ?_, h₂⟩
    rw [List.foldlM_cons, hone, ok_bind, hrun]

/-- What the format `packed` encodes: the tape of the values, and nothing
behind it. -/
theorem encodeLongs_packed {op : BulkOperation} {values : List U64}
    (blocks : List U64) (iterations : Nat) (hf : op.format = .packed)
    (hbits : op.bitsPerValue = w) (hw : 1 ≤ w) (hw' : w ≤ 64)
    (hgeo : op.longValueCount * w = 64 * op.longBlockCount)
    (hfits : ∀ v ∈ values, v.toNat < 2 ^ w)
    (hblocks : op.longBlockCount * iterations ≤ blocks.length)
    (hvalues : iterations * op.longValueCount ≤ values.length) :
    ∃ blocks', op.encodeLongs values blocks iterations = .ok blocks' ∧
      blocks'.length = blocks.length ∧
      ∀ p, msbAt blocks' p =
        if p < iterations * op.longValueCount * w then valueAt values w p
        else msbAt blocks p := by
  have hn : iterations * op.longValueCount * w =
      64 * (op.longBlockCount * iterations) := by
    rw [Nat.mul_assoc, hgeo, Nat.mul_comm iterations, Nat.mul_assoc]
  generalize hcount : iterations * op.longValueCount = n at hn hvalues ⊢
  have hlen : (values.take n).length = n := List.length_take_of_le hvalues
  obtain ⟨s, hrun, h⟩ := foldlM_packOne (values.take n) blocks hw hw'
    (fun v hv => hfits v (List.mem_of_mem_take hv)) (by rw [hlen]; omega)
    (values.take n) 0 ⟨0#64, 64, 0, blocks⟩
    ⟨by simp, (by decide : (1 : Int) ≤ 64), Int.le_refl 64, rfl, by simp,
      fun _ _ => rfl, by simp⟩
    (List.drop_zero) (Nat.zero_le _)
  have hpos := h.pos
  have hlo := h.lo
  have hhi := h.hi
  rw [hlen] at hpos
  have hbo : s.bo = op.longBlockCount * iterations := by omega
  refine ⟨s.blocks, ?_, h.len, ?_⟩
  · simp only [encodeLongs, hf, hbits]
    rw [Nat.mul_comm op.longValueCount, hcount,
      slice_eq_some (Nat.zero_le _) hvalues, expect_some,
      ok_bind, List.drop_zero, Nat.sub_zero, hrun, ok_bind]
  · intro p
    by_cases hp : p < n * w
    · rw [if_pos hp, h.done p (by omega), valueAt_take values hp]
    · rw [if_neg hp, h.rest p (by omega)]

end Packed

/-! ## The single-block codecs -/

section Single

variable {op : BulkOperation} {w per : Nat}

theorem decodeSingle_length (op : BulkOperation) (n : Nat) :
    ∀ block, (decodeSingle op n block).length = n := by
  induction n with
  | zero =>
    intro block
    rfl
  | succ n ih =>
    intro block
    rw [decodeSingle, List.length_cons, ih]

theorem decodeSingle_getElem? (op : BulkOperation) (n : Nat) :
    ∀ (block : U64) (j : Nat), j < n → (decodeSingle op n block)[j]? =
      some ((block >>> (j * op.bitsPerValue)) &&& op.mask) := by
  induction n with
  | zero =>
    intro block j hj
    omega
  | succ n ih =>
    intro block j hj
    rw [decodeSingle]
    cases j with
    | zero => simp
    | succ j =>
      rw [List.getElem?_cons_succ, ih _ j (by omega), Nat.succ_mul, Nat.add_comm,
        BitVec.shiftRight_add]

/-- A word decodes to the values that it holds. -/
theorem decodeSingle_eq (hbits : op.bitsPerValue = w)
    (hmask : IsMask op.mask w) (hper : per * w ≤ 64) {blocks vs : List U64}
    (hblocks : LsbBlocks blocks w per vs) (hfits : ∀ v ∈ vs, v.toNat < 2 ^ w)
    {e : Nat} (hvs : e * per + per ≤ vs.length) :
    decodeSingle op per (blocks.getD e 0) = (vs.drop (e * per)).take per := by
  apply List.ext_getElem?
  intro j
  by_cases hj : j < per
  · have hlt : e * per + j < vs.length := by omega
    have hfield := hblocks.field (List.getElem?_eq_getElem hlt)
      (hfits _ (List.getElem_mem hlt))
    rw [slot_div hj, slot_mod hj] at hfield
    rw [decodeSingle_getElem? op per _ j hj, hbits,
      lsbField_word hmask (slot_le hper hj), hfield,
      List.getElem?_take_of_lt hj, List.getElem?_drop,
      List.getElem?_eq_getElem hlt]
  · rw [List.getElem?_eq_none (by rw [decodeSingle_length]; omega),
      List.getElem?_eq_none (by rw [List.length_take]; omega)]

theorem flatMap_decodeSingle (hbits : op.bitsPerValue = w)
    (hmask : IsMask op.mask w) (hper : per * w ≤ 64) {blocks vs : List U64}
    (hblocks : LsbBlocks blocks w per vs) (hfits : ∀ v ∈ vs, v.toNat < 2 ^ w)
    (n : Nat) (hn : n ≤ blocks.length) (hvs : n * per ≤ vs.length) :
    (blocks.take n).flatMap (decodeSingle op per) = vs.take (n * per) := by
  induction n with
  | zero => simp
  | succ n ih =>
    rw [Nat.succ_mul] at hvs
    have hword := decodeSingle_eq hbits hmask hper hblocks hfits hvs
    rw [List.getD_eq_getElem _ _ hn] at hword
    rw [List.take_succ_eq_append_getElem hn, List.flatMap_append,
      ih (by omega) (by omega), List.flatMap_singleton, hword, Nat.succ_mul,
      List.take_add]

/-- What the format `packedSingleBlock` decodes. -/
theorem decodeLongs_single (values : List U64) (iterations : Nat)
    (hf : op.format = .packedSingleBlock) (hbits : op.bitsPerValue = w)
    (hcount : op.longValueCount = per) (hmask : IsMask op.mask w)
    (hper : per * w ≤ 64) {blocks vs : List U64}
    (hblocks : LsbBlocks blocks w per vs) (hfits : ∀ v ∈ vs, v.toNat < 2 ^ w)
    (hlen : iterations ≤ blocks.length) (hvs : iterations * per ≤ vs.length)
    (hvalues : iterations * per ≤ values.length) :
    op.decodeLongs blocks values iterations =
      .ok (vs.take (iterations * per) ++ values.drop (iterations * per)) := by
  simp only [decodeLongs, hf, hcount]
  rw [slice_eq_some (Nat.zero_le _) hlen, expect_some, ok_bind,
    guardOk_pos hvalues, ok_bind, List.drop_zero, Nat.sub_zero,
    flatMap_decodeSingle hbits hmask hper hblocks hfits _ hlen hvs]

/-- The word `block` starts with the first `m` of the values. -/
def HoldsFirst (w : Nat) (values : List U64) (m : Nat) (block : U64) : Prop :=
  ∀ r < 64, block.getLsbD r =
    (decide (r < m * w) && (values.getD (r / w) 0).getLsbD (r % w))

theorem HoldsFirst.step {values : List U64} {m : Nat} {block v : U64}
    (h : HoldsFirst w values m block) (hw : 1 ≤ w) (hv : values[m]? = some v)
    (hfit : v.toNat < 2 ^ w) :
    HoldsFirst w values (m + 1) (block ||| v <<< (m * w)) := by
  intro r hr
  have hval : values.getD m 0 = v := by
    rw [List.getD_eq_getElem?_getD, hv, Option.getD_some]
  rw [BitVec.getLsbD_or, h r hr, BitVec.getLsbD_shiftLeft, Nat.succ_mul]
  by_cases hlo : r < m * w
  · simp [hlo, show r < m * w + w by omega]
  · by_cases hhi : r < m * w + w
    · obtain ⟨k, rfl⟩ : ∃ k, r = m * w + k := ⟨r - m * w, by omega⟩
      have hk : k < w := by omega
      rw [slot_div hk, slot_mod hk, hval, Nat.add_sub_cancel_left, decide_eq_false hlo]
      simp [hr, hk]
    · rw [getLsbD_eq_false_of_lt hfit (by omega)]
      simp [hlo, hhi]

theorem foldl_encodeSingle {values : List U64} (hw : 1 ≤ w)
    (hfits : ∀ v ∈ values, v.toNat < 2 ^ w) (rest : List U64) :
    ∀ (m : Nat) (block : U64), HoldsFirst w values (m + 1) block →
      (values.drop (m + 1)).take rest.length = rest →
      HoldsFirst w values (m + 1 + rest.length)
        ((rest.zipIdx m).foldl (fun (block : U64) (v : U64 × Nat) =>
          block ||| v.1 <<< ((v.2 + 1) * w)) block) := by
  induction rest with
  | nil =>
    intro m block h _
    exact h
  | cons v rest ih =>
    intro m block h hrest
    have hlt : m + 1 < values.length := by
      have := congrArg List.length hrest
      rw [List.length_take, List.length_drop, List.length_cons] at this
      omega
    rw [List.drop_eq_getElem_cons hlt, List.length_cons, List.take_succ_cons]
      at hrest
    obtain ⟨hhead, hdrop⟩ := List.cons.inj hrest
    have hv : values[m + 1]? = some v := by
      rw [List.getElem?_eq_getElem hlt, hhead]
    have hrun := ih (m + 1) _
      (h.step hw hv (hfits v (List.mem_of_getElem? hv))) hdrop
    rw [List.zipIdx_cons, List.foldl_cons, List.length_cons,
      show m + 1 + (rest.length + 1) = m + 1 + 1 + rest.length by omega]
    exact hrun

/-- A word of values. -/
theorem encodeSingle_spec (values : List U64) (hbits : op.bitsPerValue = w)
    (hw : 1 ≤ w) (hpos : 0 < op.longValueCount)
    (hfits : ∀ v ∈ values, v.toNat < 2 ^ w)
    (hlen : op.longValueCount ≤ values.length) :
    ∃ block, op.encodeSingle values = .ok block ∧
      HoldsFirst w values op.longValueCount block := by
  have hget : values[0]? = some values[0] := List.getElem?_eq_getElem (by omega)
  have hz : HoldsFirst w values 0 0#64 := by
    intro r _
    simp
  have hfirst : HoldsFirst w values 1 values[0] := by
    have := hz.step hw hget (hfits _ (List.getElem_mem _))
    rwa [Nat.zero_mul, BitVec.shiftLeft_zero, BitVec.zero_or] at this
  have hrest : ((values.drop 1).take (op.longValueCount - 1)).length =
      op.longValueCount - 1 := by
    rw [List.length_take, List.length_drop]
    omega
  have hrun := foldl_encodeSingle hw hfits _ 0 _ hfirst
    (by rw [hrest])
  rw [hrest, show 0 + 1 + (op.longValueCount - 1) = op.longValueCount by omega]
    at hrun
  refine ⟨_, ?_, hrun⟩
  rw [encodeSingle, hget, expect_some, ok_bind,
    slice_eq_some (by omega) hlen, expect_some, ok_bind, hbits]

/-- What the format `packedSingleBlock` encodes. -/
theorem encodeLongs_single (values blocks : List U64) (iterations : Nat)
    (hf : op.format = .packedSingleBlock) (hbits : op.bitsPerValue = w)
    (hcount : op.longValueCount = per) (hw : 1 ≤ w) (hpos : 0 < per)
    (hper : per * w ≤ 64) (hfits : ∀ v ∈ values, v.toNat < 2 ^ w)
    (hlen : iterations ≤ blocks.length)
    (hvalues : iterations * per ≤ values.length) :
    ∃ blocks', op.encodeLongs values blocks iterations = .ok blocks' ∧
      blocks'.length = blocks.length ∧
      (∀ p, 64 * iterations ≤ p → lsbAt blocks' p = lsbAt blocks p) ∧
      LsbBlocks blocks' w per (values.take (iterations * per)) := by
  suffices h : ∀ n ≤ iterations, ∃ blocks',
      (List.range n).foldlM (fun blocks i => do
        let vals ← .expect (sliceFrom values (i * per))
        let block ← encodeSingle op vals
        setBlock blocks i block) blocks = (.ok blocks' : Call (List U64)) ∧
      blocks'.length = blocks.length ∧
      (∀ p, 64 * n ≤ p → lsbAt blocks' p = lsbAt blocks p) ∧
      LsbBlocks blocks' w per (values.take (n * per)) by
    obtain ⟨blocks', hrun, hspec⟩ := h iterations (Nat.le_refl _)
    refine ⟨blocks', ?_, hspec⟩
    simp only [encodeLongs, hf, hcount]
    rw [guardOk_pos hlen, ok_bind, hrun]
  intro n
  induction n with
  | zero =>
    intro _
    refine ⟨blocks, rfl, rfl, fun _ _ => rfl, ?_⟩
    intro i v hi
    simp at hi
  | succ n ih =>
    intro hn
    obtain ⟨cur, hrun, hcur, hrest, hdone⟩ := ih (by omega)
    have hmul : n * per + per ≤ iterations * per := by
      rw [← Nat.succ_mul]
      exact Nat.mul_le_mul_right per hn
    obtain ⟨block, henc, hblock⟩ := encodeSingle_spec (values.drop (n * per)) hbits hw
      (by rw [hcount]; exact hpos)
      (fun v hv => hfits v (List.mem_of_mem_drop hv))
      (by rw [hcount, List.length_drop]; omega)
    have hlt : n < cur.length := by omega
    refine ⟨cur.set n block, ?_, by rw [List.length_set, hcur], ?_, ?_⟩
    · rw [List.range_succ, List.foldlM_append, hrun, ok_bind,
        List.foldlM_cons, sliceFrom, if_pos (by omega), expect_some,
        ok_bind, henc, ok_bind, setBlock_ok hlt,
        ok_bind]
      rfl
    · intro p hp
      rw [lsbAt_set cur p hlt, if_neg (by omega), hrest p (by omega)]
    · intro i v hi k hk
      have hi' : i < (n + 1) * per := by
        have := (List.getElem?_eq_some_iff.1 hi).1
        rw [List.length_take] at this
        omega
      have hslot := slot_le hper (Nat.mod_lt i hpos)
      have hdm := Nat.div_add_mod i per
      rw [List.getElem?_take_of_lt hi'] at hi
      rw [Nat.add_assoc, lsbAt_set cur _ hlt,
        show (64 * (i / per) + (i % per * w + k)) / 64 = i / per by omega,
        show (64 * (i / per) + (i % per * w + k)) % 64 = i % per * w + k by
          omega]
      by_cases he : i / per = n
      · have hin : i % per * w + k < per * w := by
          have := Nat.mul_le_mul_right w (Nat.mod_lt i hpos)
          rw [Nat.succ_mul] at this
          omega
        rw [if_pos he, hblock _ (by omega), hcount, slot_div hk, slot_mod hk,
          List.getD_eq_getElem?_getD, List.getElem?_drop,
          show n * per + i % per = i by rw [← he, Nat.mul_comm]; exact hdm, hi,
          Option.getD_some]
        simp [hin]
      · rw [if_neg he, ← Nat.add_assoc]
        refine hdone i v ?_ k hk
        rw [List.getElem?_take_of_lt, hi]
        have : i / per < n + 1 :=
          Nat.div_lt_of_lt_mul (by rwa [Nat.mul_comm] at hi')
        rw [← Nat.div_lt_iff_lt_mul hpos]
        omega

end Single

end BulkOperation

end LuceneRust.Util.Packed
