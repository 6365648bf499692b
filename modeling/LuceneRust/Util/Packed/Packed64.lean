import LuceneRust.Util.Packed.BulkOperation
import LuceneRust.Util.Packed.MutableSpec

/-!
# `lucene_util::packed::packed64`

Values of one width as one stream of bits over words, most significant bit
first, so that a value spans at most two words.

* `set_tape` is the write of a value over the tape of the words: it changes
  the bits of the value and no other bit.
* `bulkDecode_spec` and `bulkEncode_spec` are the whole runs of the bulk
  operations, and `fill_tape` the whole words of `fill`.
* The instance of `FixedWidth` puts them together, and `new_spec` starts
  it: a new array holds zeros.
-/

namespace LuceneRust.Util.Packed

open RustSem WordTape
open BitStream (IsMask)
open BulkOperation (setBlock setBlock_ok)

/-- `Packed64`. -/
structure Packed64 where
  blocks : List U64
  valueCount : Nat
  bitsPerValue : Nat
  maskRight : U64
  bpvMinusBlockSize : Int
  width : 1 ≤ bitsPerValue ∧ bitsPerValue ≤ 64
  isMask : IsMask maskRight bitsPerValue
  minus : bpvMinusBlockSize = bitsPerValue - 64

/-- The mask that `new` makes. -/
theorem isMask_shift {bits : Nat} (h : bits ≤ 64) :
    IsMask ((BitVec.allOnes 64 <<< (64 - bits)) >>> (64 - bits)) bits := by
  intro j hj
  rw [BitVec.getLsbD_ushiftRight, BitVec.getLsbD_shiftLeft,
    BitVec.getLsbD_allOnes, Nat.add_sub_cancel_left]
  by_cases hb : j < bits
  · simp [hb, hj, show 64 - bits + j < 64 by omega]
  · simp [hb, show ¬ 64 - bits + j < 64 by omega]

namespace Packed64

/-- `Packed64::new`. -/
def new (valueCount bits : Nat) : Call Packed64 :=
  if h : 1 ≤ bits ∧ bits ≤ 64 then do
    let blocks ← vecZeroed (Format.packed.longCount valueCount bits)
    .ok
      { blocks := blocks
        valueCount := valueCount
        bitsPerValue := bits
        maskRight := (BitVec.allOnes 64 <<< (64 - bits)) >>> (64 - bits)
        bpvMinusBlockSize := bits - 64
        width := h
        isMask := isMask_shift h.2
        minus := rfl }
  else .panic

/-- The bit position of a value, as a `u64`. -/
def bitPos (m : Packed64) (index : Nat) : Nat :=
  index * m.bitsPerValue % usizeSize

/-- `Packed64::position`: a word, and how many bits of the value are behind
its end (not positive: how many bits of the word are behind the value). -/
def position (m : Packed64) (index : Nat) : Nat × Int :=
  (m.bitPos index / 64, (m.bitPos index % 64 : Nat) + m.bpvMinusBlockSize)

/-- `get`. -/
def get (m : Packed64) (index : Nat) : Call U64 := do
  .guardOk (index < m.valueCount)
  let (e, endBits) := m.position index
  let word ← .expect m.blocks[e]?
  if endBits ≤ 0 then
    .ok ((word >>> (-endBits).toNat) &&& m.maskRight)
  else
    let next ← .expect m.blocks[e + 1]?
    .ok (((word <<< endBits.toNat) ||| (next >>> (64 - endBits).toNat)) &&&
      m.maskRight)

/-- `set`. -/
def set (m : Packed64) (index : Nat) (value : U64) : Call Packed64 := do
  .guardOk (index < m.valueCount)
  let (e, endBits) := m.position index
  let word ← .expect m.blocks[e]?
  if endBits ≤ 0 then
    let shift := (-endBits).toNat
    let blocks ← setBlock m.blocks e
      ((word &&& ~~~(m.maskRight <<< shift)) ||| (value <<< shift))
    .ok { m with blocks := blocks }
  else
    let endN := endBits.toNat
    let blocks ← setBlock m.blocks e
      ((word &&& ~~~(m.maskRight >>> endN)) ||| (value >>> endN))
    let next ← .expect blocks[e + 1]?
    let blocks ← setBlock blocks (e + 1)
      ((next &&& (BitVec.allOnes 64 >>> endN)) ||| (value <<< (64 - endN)))
    .ok { m with blocks := blocks }

/-- The whole runs of `get_bulk`. -/
def bulkDecode (m : Packed64) (decoder : BulkOperation) (index len : Nat)
    (slots : List U64) : Call (List U64 × Nat) := do
  .guardOk (index % decoder.longValueCount = 0)
  let words ← .expect (sliceFrom m.blocks (m.bitPos index / 64))
  let iterations := len / decoder.longValueCount
  let slots ← decoder.decodeLongs words slots iterations
  .ok (slots, iterations * decoder.longValueCount)

/-- `get_bulk`. -/
def getBulk (m : Packed64) (index : Nat) (arr : List U64) :
    Call (List U64 × Nat) := do
  let decoder ← BulkOperation.of .packed m.bitsPerValue
  bulkGet decoder.longValueCount m.valueCount m.get (m.bulkDecode decoder)
    index arr

/-- The whole runs of `set_bulk`. -/
def bulkEncode (encoder : BulkOperation) (m : Packed64) (index len : Nat)
    (values : List U64) : Call (Packed64 × Nat) := do
  let blockIndex := m.bitPos index / 64
  let words ← .expect (sliceFrom m.blocks blockIndex)
  let iterations := len / encoder.longValueCount
  let words ← encoder.encodeLongs values words iterations
  .ok ({ m with blocks := m.blocks.take blockIndex ++ words },
    iterations * encoder.longValueCount)

/-- `set_bulk`. -/
def setBulk (m : Packed64) (index : Nat) (arr : List U64) :
    Call (Packed64 × Nat) := do
  let encoder ← BulkOperation.of .packed m.bitsPerValue
  bulkSet encoder.longValueCount valueCount set (bulkEncode encoder) m index
    arr

/-- `Packed64.gcd`. -/
def gcd (a b : Nat) : Nat :=
  if a < b then gcd b a
  else if b = 0 then a
  else gcd b (a % b)
  termination_by b
  decreasing_by
  · assumption
  · exact Nat.mod_lt a (Nat.pos_of_ne_zero (by assumption))

/-- The loops of `fill` that set single values. -/
def fillEach (m : Packed64) (lo n : Nat) (val : U64) : Call Packed64 :=
  (List.range' lo n).foldlM (fun m i => set m i val) m

/-- The words of `nAligned` consecutive values `val`. -/
def alignedBlocks (nAligned bits : Nat) (val : U64) : Call (List U64) := do
  let values ← new nAligned bits
  let values ← fillEach values 0 nAligned val
  .ok values.blocks

/-- Set the words from `startBlock` to `endBlock` by the pattern. -/
def fillBlocks (blocks pattern : List U64) (nBlocks startBlock endBlock : Nat) :
    Call (List U64) :=
  (List.range' startBlock (endBlock - startBlock)).foldlM (fun blocks b => do
    let word ← .expect pattern[b % nBlocks]?
    setBlock blocks b word) blocks

/-- `fill` from a boundary of `nAligned` values on: whole words, and single
values behind the last whole word. -/
def fillAligned (m : Packed64) (nAligned lo hi : Nat) (val : U64) :
    Call Packed64 := do
  .guardOk (lo % nAligned = 0)
  let nBlocks := nAligned * m.bitsPerValue / 64
  let pattern ← alignedBlocks nAligned m.bitsPerValue val
  let endBlock := m.bitPos hi / 64
  let blocks ← fillBlocks m.blocks pattern nBlocks (m.bitPos lo / 64) endBlock
  let gapStart := endBlock * 64 / m.bitsPerValue
  fillEach { m with blocks := blocks } gapStart (hi - gapStart) val

/-- `fill`. -/
def fill (m : Packed64) (lo hi : Nat) (val : U64) : Call Packed64 := do
  .guardOk (unsignedBitsRequired val ≤ m.bitsPerValue)
  .guardOk (lo ≤ hi)
  let nAligned := 64 / gcd 64 m.bitsPerValue
  if hi - lo ≤ 3 * nAligned then
    defaultFill bitsPerValue set m lo hi val
  else
    let head := if lo % nAligned ≠ 0 then nAligned - lo % nAligned else 0
    let m ← fillEach m lo head val
    fillAligned m nAligned (lo + head) hi val

/-- `clear`. -/
def clear (m : Packed64) : Call Packed64 :=
  .ok { m with blocks := List.replicate m.blocks.length 0#64 }

instance : Mutable Packed64 where
  size := valueCount
  bitsPerValue := bitsPerValue
  get := get
  getBulk := getBulk
  set := set
  setBulk := setBulk
  fill := fill
  clear := clear

/-! ## What an array holds -/

/-- The array holds the values `vs`. -/
structure Holds (m : Packed64) (vs : List U64) : Prop where
  size : m.valueCount = vs.length
  bound : vs.length * m.bitsPerValue < usizeSize
  room : vs.length * m.bitsPerValue ≤ 64 * m.blocks.length
  fits : ∀ v ∈ vs, v.toNat < 2 ^ m.bitsPerValue
  packs : MsbPacks m.blocks m.bitsPerValue vs

/-- The array holds the values `vs`, at the width `w`. -/
def HoldsAt (w : Nat) (m : Packed64) (vs : List U64) : Prop :=
  Holds m vs ∧ m.bitsPerValue = w

/-- The value fits the width. -/
def Fits (m : Packed64) (v : U64) : Prop := v.toNat < 2 ^ m.bitsPerValue

variable {m : Packed64} {vs : List U64}

/-- The bits of a value that is in range. -/
theorem Holds.le_room (h : Holds m vs) {i : Nat} (hi : i < vs.length) :
    i * m.bitsPerValue + m.bitsPerValue ≤ 64 * m.blocks.length := by
  rw [← Nat.succ_mul]
  exact (Nat.mul_le_mul_right _ hi).trans h.room

theorem bitPos_eq (h : Holds m vs) {i : Nat} (hi : i ≤ vs.length) :
    m.bitPos i = i * m.bitsPerValue := by
  have hmul : i * m.bitsPerValue ≤ vs.length * m.bitsPerValue :=
    Nat.mul_le_mul_right _ hi
  exact Nat.mod_eq_of_lt (hmul.trans_lt h.bound)

/-! ## Single values -/

theorem get_holds (h : Holds m vs) {i : Nat} {v : U64}
    (hi : vs[i]? = some v) : m.get i = .ok v := by
  have hlt : i < vs.length := (List.getElem?_eq_some_iff.1 hi).1
  have hroom := h.le_room hlt
  have hwidth := m.width
  have hfield := h.packs.field hi (h.fits v (List.mem_of_getElem? hi))
  have hminus := m.minus
  rw [get, guardOk_pos (by rw [h.size]; exact hlt), ok_bind]
  simp only [position, bitPos_eq h hlt.le, hminus]
  generalize hq : i * m.bitsPerValue = q at hroom hfield
  have he : q / 64 < m.blocks.length := by omega
  rw [List.getElem?_eq_getElem he, expect_some, ok_bind]
  by_cases hend : ((q % 64 : Nat) : Int) + ((m.bitsPerValue : Int) - 64) ≤ 0
  · rw [if_pos hend, ← hfield, ← List.getD_eq_getElem _ 0 he,
      show (-(((q % 64 : Nat) : Int) + ((m.bitsPerValue : Int) - 64))).toNat =
        64 - q % 64 - m.bitsPerValue by omega,
      msbField_word m.isMask (by omega), Nat.div_add_mod]
  · have he' : q / 64 + 1 < m.blocks.length := by omega
    rw [if_neg hend, List.getElem?_eq_getElem he', expect_some,
      ok_bind, ← hfield, ← List.getD_eq_getElem _ 0 he,
      ← List.getD_eq_getElem _ 0 he',
      show (64 - (((q % 64 : Nat) : Int) + ((m.bitsPerValue : Int) - 64))).toNat =
        64 - (((q % 64 : Nat) : Int) + ((m.bitsPerValue : Int) - 64)).toNat by
          omega,
      msbField_straddle m.isMask hwidth.2 (Nat.mod_lt q (by decide)).le (by omega)
        (by omega),
      Nat.div_add_mod]

/-- A write changes the bits of its value only. -/
theorem set_tape (h : Holds m vs) {i : Nat} {v : U64} (hi : i < vs.length)
    (hv : Fits m v) :
    ∃ blocks', m.set i v = .ok { m with blocks := blocks' } ∧
      blocks'.length = m.blocks.length ∧
      ∀ p, msbAt blocks' p =
        if i * m.bitsPerValue ≤ p ∧ p < i * m.bitsPerValue + m.bitsPerValue then
          v.getLsbD (m.bitsPerValue - 1 - (p - i * m.bitsPerValue))
        else msbAt m.blocks p := by
  have hroom := h.le_room hi
  have hwidth := m.width
  have hminus := m.minus
  rw [set, guardOk_pos (by rw [h.size]; exact hi), ok_bind]
  simp only [position, bitPos_eq h hi.le, hminus]
  generalize hq : i * m.bitsPerValue = q at hroom
  have he : q / 64 < m.blocks.length := by omega
  rw [List.getElem?_eq_getElem he, expect_some, ok_bind]
  by_cases hend : ((q % 64 : Nat) : Int) + ((m.bitsPerValue : Int) - 64) ≤ 0
  · rw [if_pos hend, setBlock_ok he, ok_bind]
    refine ⟨_, rfl, List.length_set, fun p => ?_⟩
    have hstore := msbAt_store_word m.isMask hv
      (show q % 64 + m.bitsPerValue ≤ 64 by omega) he p
    rw [Nat.div_add_mod] at hstore
    rw [← List.getD_eq_getElem _ 0 he, ← hstore,
      show (-(((q % 64 : Nat) : Int) + ((m.bitsPerValue : Int) - 64))).toNat =
        64 - q % 64 - m.bitsPerValue by omega]
  · have he' : q / 64 + 1 < m.blocks.length := by omega
    have hne : q / 64 + 1 ≠ q / 64 := by omega
    rw [if_neg hend, setBlock_ok he, ok_bind,
      List.getElem?_eq_getElem (by rw [List.length_set]; exact he'),
      expect_some, ok_bind,
      setBlock_ok (by rw [List.length_set]; exact he'), ok_bind,
      List.getElem_set_ne hne.symm]
    refine ⟨_, rfl, by rw [List.length_set, List.length_set], fun p => ?_⟩
    have hstore := msbAt_store_straddle m.isMask hv hwidth.2
      (n := (((q % 64 : Nat) : Int) + ((m.bitsPerValue : Int) - 64)).toNat)
      (show q % 64 + m.bitsPerValue = _ by omega) (by omega) (by omega) he' p
    rw [Nat.div_add_mod] at hstore
    rw [← List.getD_eq_getElem _ 0 he, ← List.getD_eq_getElem _ 0 he', ← hstore]

/-- The tape after a write is the tape of the written list. -/
theorem set_holdsAt (w : Nat) : SetSpec set (HoldsAt w) Fits := by
  rintro m vs i v ⟨h, hw⟩ hi hv
  have hwidth := m.width
  obtain ⟨blocks', hset, hlen, htape⟩ := set_tape h hi hv
  refine ⟨_, hset, ⟨⟨?_, ?_, ?_, ?_, ?_⟩, hw⟩, fun u hu => hu⟩
  · rw [List.length_set]
    exact h.size
  · rw [List.length_set]
    exact h.bound
  · rw [List.length_set]
    dsimp only
    rw [hlen]
    exact h.room
  · intro u hu
    rcases List.mem_or_eq_of_mem_set hu with hu | rfl
    · exact h.fits u hu
    · exact hv
  · intro p hp
    rw [List.length_set] at hp
    have hdm := Nat.div_add_mod p m.bitsPerValue
    have hmod := Nat.mod_lt p (show 0 < m.bitsPerValue by omega)
    dsimp only
    rw [htape p, valueAt_set hi]
    by_cases hpi : p / m.bitsPerValue = i
    · rw [hpi, Nat.mul_comm] at hdm
      rw [if_pos hpi, if_pos (by omega),
        show p - i * m.bitsPerValue = p % m.bitsPerValue by omega]
    · rw [if_neg hpi, if_neg, h.packs p hp]
      rintro ⟨h1, h2⟩
      rw [← Nat.succ_mul] at h2
      have h1' := (Nat.le_div_iff_mul_le (by omega)).2 h1
      have h2' := (Nat.div_lt_iff_lt_mul (by omega)).2 h2
      omega

theorem set_holds (h : Holds m vs) {i : Nat} {v : U64} (hi : i < vs.length)
    (hv : Fits m v) : ∃ m', m.set i v = .ok m' ∧ Holds m' (vs.set i v) ∧
      m'.bitsPerValue = m.bitsPerValue := by
  obtain ⟨m', hset, h', -⟩ := set_holdsAt m.bitsPerValue ⟨h, rfl⟩ hi hv
  exact ⟨m', hset, h'⟩

/-! ## Bulk operations -/

section Bulk

variable {op : BulkOperation} (hf : op.format = .packed)
  (hbits : op.bitsPerValue = m.bitsPerValue)
  (hgeo : op.longValueCount * m.bitsPerValue = 64 * op.longBlockCount)

include hgeo in
/-- A boundary of the codec is a boundary of a word. -/
theorem bitPos_aligned (h : Holds m vs) {i : Nat} (hi : i ≤ vs.length)
    (halign : i % op.longValueCount = 0) :
    i * m.bitsPerValue = 64 * (m.bitPos i / 64) := by
  obtain ⟨k, rfl⟩ := Nat.dvd_of_mod_eq_zero halign
  rw [bitPos_eq h hi, Nat.mul_right_comm, hgeo, Nat.mul_assoc,
    Nat.mul_div_cancel_left _ (by decide)]

include hgeo in
/-- The words of the runs from a boundary on are there. -/
theorem runs_le (h : Holds m vs) {i len : Nat} (hlen : i + len ≤ vs.length)
    (halign : i * m.bitsPerValue = 64 * (m.bitPos i / 64)) :
    op.longBlockCount * (len / op.longValueCount) + m.bitPos i / 64 ≤
      m.blocks.length := by
  have hdiv := Nat.div_mul_le_self len op.longValueCount
  have hmul : (i + len / op.longValueCount * op.longValueCount) *
      m.bitsPerValue ≤ vs.length * m.bitsPerValue :=
    Nat.mul_le_mul_right _ (by omega)
  rw [Nat.add_mul, Nat.mul_assoc, hgeo, Nat.mul_left_comm,
    Nat.mul_comm _ op.longBlockCount, halign] at hmul
  have hroom := h.room
  omega

include hf hbits hgeo in
theorem bulkDecode_spec (h : Holds m vs) (i len : Nat) (slots : List U64)
    (halign : i % op.longValueCount = 0) (hlen : i + len ≤ vs.length)
    (hslots : len ≤ slots.length) :
    ∃ got ≤ len, m.bulkDecode op i len slots =
      .ok ((vs.drop i).take got ++ slots.drop got, got) := by
  have hpos := bitPos_aligned hgeo h (by omega) halign
  have hruns := runs_le hgeo h hlen hpos
  have hdiv := Nat.div_mul_le_self len op.longValueCount
  refine ⟨_, hdiv, ?_⟩
  have hdecode := BulkOperation.decodeLongs_packed (len / op.longValueCount) hf hbits m.width.1 m.width.2 hgeo
    (h.packs.drop m.width.1 hpos)
    (fun v hv => h.fits v (List.mem_of_mem_drop hv))
    (by rw [List.length_drop]; omega) (by rw [List.length_drop]; omega)
    (hdiv.trans hslots)
  rw [bulkDecode, guardOk_pos halign, ok_bind, sliceFrom,
    if_pos (by omega), expect_some, ok_bind]
  dsimp only
  rw [hdecode, ok_bind]

include hf hbits hgeo in
theorem bulkEncode_spec (h : Holds m vs) (i len : Nat) (us : List U64)
    (halign : i % op.longValueCount = 0) (hlen : i + len ≤ vs.length)
    (hus : len ≤ us.length) (hfits : ∀ v ∈ us, Fits m v) :
    ∃ m' n, n ≤ len ∧ bulkEncode op m i len us = .ok (m', n) ∧
      HoldsAt m.bitsPerValue m' (splice vs i (us.take n)) ∧
      ∀ u, Fits m u → Fits m' u := by
  have hpos := bitPos_aligned hgeo h (by omega) halign
  have hruns := runs_le hgeo h hlen hpos
  have hdiv := Nat.div_mul_le_self len op.longValueCount
  have hroom := h.room
  have hw := m.width.1
  obtain ⟨words, hencode, hwords, htape⟩ := BulkOperation.encodeLongs_packed (m.blocks.drop (m.bitPos i / 64)) (len / op.longValueCount) hf hbits m.width.1 m.width.2 hgeo
    hfits (by rw [List.length_drop]; omega) (hdiv.trans hus)
  generalize hbi : m.bitPos i / 64 = e at *
  generalize hn : len / op.longValueCount * op.longValueCount = n at *
  have htake : (us.take n).length = n := List.length_take_of_le (by omega)
  have hsplice : (splice vs i (us.take n)).length = vs.length :=
    splice_length (by omega)
  have hrun : bulkEncode op m i len us =
      .ok ({ m with blocks := m.blocks.take e ++ words }, n) := by
    rw [bulkEncode]
    dsimp only
    rw [hbi, sliceFrom, if_pos (by omega), expect_some,
      ok_bind, hencode, ok_bind, hn]
  refine ⟨_, n, hdiv, hrun, ⟨⟨?_, ?_, ?_, ?_, ?_⟩, rfl⟩, fun u hu => hu⟩
  · rw [hsplice]
    exact h.size
  · rw [hsplice]
    exact h.bound
  · rw [hsplice, List.length_append, hwords, List.length_drop, List.length_take]
    dsimp only
    omega
  · exact forall_mem_splice i h.fits
      fun v hv => hfits v (List.mem_of_mem_take hv)
  · intro p hp
    rw [hsplice] at hp
    dsimp only at hp ⊢
    rw [msbAt_take_append _ _ _ (by omega), valueAt_splice hw (by omega), htake,
      Nat.add_mul, hpos]
    by_cases hlo : p < 64 * e
    · rw [if_pos hlo, if_neg (by omega), h.packs p hp]
    · rw [if_neg hlo, htape]
      by_cases hhi : p < 64 * e + n * m.bitsPerValue
      · rw [if_pos (by omega), if_pos ⟨by omega, hhi⟩,
          valueAt_take us (by omega)]
      · rw [if_neg (by omega), if_neg (by omega), msbAt_drop,
          Nat.add_sub_cancel' (by omega), h.packs p hp]

end Bulk

theorem getBulk_holds (h : Holds m vs) {i : Nat} {arr : List U64}
    (hi : i < vs.length) (hne : arr ≠ []) :
    ∃ n, 0 < n ∧ n ≤ arr.length ∧ i + n ≤ vs.length ∧
      m.getBulk i arr = .ok ((vs.drop i).take n ++ arr.drop n, n) := by
  obtain ⟨op, hof, hf, hbits, hgeo, hper⟩ :=
    BulkOperation.of_packed m.width.1 m.width.2
  rw [getBulk, hof, ok_bind, h.size]
  exact bulkGet_spec hper (fun i v hv => get_holds h hv)
    (bulkDecode_spec hf hbits hgeo h) hi hne

theorem setBulk_holds (h : Holds m vs) {i : Nat} {arr : List U64}
    (hi : i < vs.length) (hne : arr ≠ []) (hfits : ∀ v ∈ arr, Fits m v) :
    ∃ m' n, m.setBulk i arr = .ok (m', n) ∧ 0 < n ∧ n ≤ arr.length ∧
      i + n ≤ vs.length ∧ Holds m' (splice vs i (arr.take n)) ∧
      m'.bitsPerValue = m.bitsPerValue := by
  obtain ⟨op, hof, hf, hbits, hgeo, hper⟩ :=
    BulkOperation.of_packed m.width.1 m.width.2
  obtain ⟨m', n, hrun, hn, hle, hin, h', -⟩ := bulkSet_spec valueCount set (HoldsAt m.bitsPerValue) Fits (bulkEncode op) hper (fun h => h.1.size)
    (set_holdsAt m.bitsPerValue)
    (by
      rintro m₁ us i len ys ⟨h₁, hw₁⟩ halign hlen hys hfit
      rw [← hw₁] at hbits hgeo ⊢
      exact bulkEncode_spec hf hbits hgeo h₁ i len ys halign hlen hys hfit)
    ⟨h, rfl⟩ hi hne hfits
  rw [setBulk, hof, ok_bind]
  exact ⟨m', n, hrun, hn, hle, hin, h'⟩

/-! ## `fill` -/

theorem gcd_eq (a b : Nat) : gcd a b = Nat.gcd a b := by
  fun_induction gcd a b with
  | case1 a b _ ih => rw [ih, Nat.gcd_comm]
  | case2 a _ => rw [Nat.gcd_zero_right]
  | case3 a b _ _ ih => rw [ih, Nat.gcd_comm b, ← Nat.gcd_rec, Nat.gcd_comm]

/-- The fewest values that take whole words. -/
theorem aligned_spec : ∀ w < 65, 1 ≤ w →
    64 / Nat.gcd 64 w * w = 64 * (64 / Nat.gcd 64 w * w / 64) ∧
      0 < 64 / Nat.gcd 64 w := by
  decide

theorem fillEach_holdsAt {w n : Nat} {v : U64} (lo : Nat) (h : HoldsAt w m vs)
    (hlen : lo + n ≤ vs.length) (hv : Fits m v) :
    ∃ m', m.fillEach lo n v = .ok m' ∧
      HoldsAt w m' (splice vs lo (List.replicate n v)) ∧
      ∀ u, Fits m u → Fits m' u :=
  foldlM_set_range (set_holdsAt w) v n lo m vs h hlen hv

/-- The words that `new` allocates have room for the values. -/
theorem longCount_room {n w : Nat}
    (h : 8 * Format.packed.longCount n w ≤ maxAlloc) :
    n * w ≤ 64 * Format.packed.longCount n w ∧ n * w < usizeSize := by
  simp only [Format.longCount, packedByteCount, saturatingMul, maxAlloc,
    usizeSize] at h ⊢
  have hbytes := le_mul_divCeil (min (n * w) (2 ^ 64 - 1)) (b := 8) (by decide)
  have hlongs := le_mul_divCeil
    (divCeil (min (n * w) (2 ^ 64 - 1)) 8) (b := 8) (by decide)
  omega

/-- A new array holds zeros. -/
theorem new_holdsAt {n w : Nat} (hw : 1 ≤ w) (hw' : w ≤ 64)
    (halloc : 8 * Format.packed.longCount n w ≤ maxAlloc) :
    ∃ m, new n w = .ok m ∧ HoldsAt w m (List.replicate n 0#64) := by
  obtain ⟨hroom, hbound⟩ := longCount_room halloc
  rw [new, dif_pos ⟨hw, hw'⟩, vecZeroed_ok halloc, ok_bind]
  refine ⟨_, rfl, ⟨?_, ?_, ?_, ?_, ?_⟩, rfl⟩
  · exact List.length_replicate.symm
  · rw [List.length_replicate]
    exact hbound
  · rw [List.length_replicate, List.length_replicate]
    exact hroom
  · intro v hv
    rw [List.eq_of_mem_replicate hv]
    exact Nat.two_pow_pos w
  · intro p hp
    rw [List.length_replicate] at hp
    rw [msbAt_zero, valueAt_replicate _ hp]
    exact BitVec.getLsbD_zero.symm

/-- The pattern repeats the value. -/
theorem alignedBlocks_spec {n w : Nat} {v : U64} (hw : 1 ≤ w) (hw' : w ≤ 64)
    (hn : n ≤ 64) (hv : v.toNat < 2 ^ w) :
    ∃ pattern, alignedBlocks n w v = .ok pattern ∧
      n * w ≤ 64 * pattern.length ∧
      ∀ p < n * w, msbAt pattern p = v.getLsbD (w - 1 - p % w) := by
  have hmul : n * w ≤ 64 * 64 := Nat.mul_le_mul hn hw'
  have halloc : 8 * Format.packed.longCount n w ≤ maxAlloc := by
    simp only [Format.longCount, packedByteCount, saturatingMul, maxAlloc]
    have hbytes := mul_divCeil_lt (min (n * w) (2 ^ 64 - 1)) (b := 8)
      (by decide)
    have hlongs := mul_divCeil_lt
      (divCeil (min (n * w) (2 ^ 64 - 1)) 8) (b := 8) (by decide)
    omega
  obtain ⟨m, hnew, h⟩ := new_holdsAt hw hw' halloc
  obtain ⟨m', hfill, h', -⟩ := fillEach_holdsAt 0 (n := n) (v := v) h
    (by rw [List.length_replicate]; omega) (by rw [Fits, h.2]; exact hv)
  have hsplice : splice (List.replicate n 0#64) 0 (List.replicate n v) =
      List.replicate n v := by
    simp [splice]
  rw [hsplice] at h'
  obtain ⟨h', rfl⟩ := h'
  refine ⟨m'.blocks, ?_, ?_, ?_⟩
  · rw [alignedBlocks, hnew, ok_bind, hfill, ok_bind]
  · have := h'.room
    rwa [List.length_replicate] at this
  · intro p hp
    rw [h'.packs p (by rwa [List.length_replicate]), valueAt_replicate v hp]

/-- The words of the pattern, over the tape. -/
theorem fillBlocks_spec {pattern : List U64} {nBlocks : Nat} (hn : 0 < nBlocks)
    (hpattern : nBlocks ≤ pattern.length) (lo n : Nat) :
    ∀ blocks : List U64, lo + n ≤ blocks.length →
      ∃ blocks', fillBlocks blocks pattern nBlocks lo (lo + n) = .ok blocks' ∧
        blocks'.length = blocks.length ∧
        ∀ p, msbAt blocks' p =
          if 64 * lo ≤ p ∧ p < 64 * (lo + n) then
            msbAt pattern (p % (64 * nBlocks))
          else msbAt blocks p := by
  simp only [fillBlocks, Nat.add_sub_cancel_left]
  induction n generalizing lo with
  | zero =>
    intro blocks _
    refine ⟨blocks, rfl, rfl, fun p => ?_⟩
    rw [if_neg (by omega)]
  | succ n ih =>
    intro blocks hlen
    have hword : lo % nBlocks < pattern.length :=
      (Nat.mod_lt lo hn).trans_le hpattern
    obtain ⟨blocks', hrun, hlen', htape⟩ := ih (lo + 1)
      (blocks.set lo pattern[lo % nBlocks]) (by rw [List.length_set]; omega)
    refine ⟨blocks', ?_, by rw [hlen', List.length_set], fun p => ?_⟩
    · rw [List.range'_succ, List.foldlM_cons, List.getElem?_eq_getElem hword,
        expect_some, ok_bind, setBlock_ok (by omega),
        ok_bind, hrun]
    · rw [htape p, msbAt_set _ p (show lo < blocks.length by omega)]
      by_cases hp : p / 64 = lo
      · have hmod : p % (64 * nBlocks) = 64 * (lo % nBlocks) + p % 64 := by
          rw [Nat.mod_mul, hp, Nat.add_comm]
        rw [if_neg (by omega), if_pos hp, if_pos (by omega), hmod,
          msbAt_word _ _ (Nat.mod_lt p (by decide)),
          List.getD_eq_getElem _ _ hword]
      · rw [if_neg hp]
        by_cases hin : 64 * (lo + 1) ≤ p ∧ p < 64 * (lo + 1 + n)
        · rw [if_pos hin, if_pos (by omega)]
        · rw [if_neg hin, if_neg (by omega)]

/-- Words of the right number hold some values. -/
theorem exists_holdsAt {w n : Nat} (hw : m.bitsPerValue = w)
    (hsize : m.valueCount = n) (hbound : n * w < usizeSize)
    (hroom : n * w ≤ 64 * m.blocks.length) :
    ∃ us : List U64, us.length = n ∧ HoldsAt w m us := by
  subst hw
  have hlen : ((List.range n).map fun i =>
      msbField m.blocks (i * m.bitsPerValue) m.bitsPerValue).length = n := by
    rw [List.length_map, List.length_range]
  refine ⟨_, hlen, ⟨?_, ?_, ?_, ?_, ?_⟩, rfl⟩
  · rw [hlen, hsize]
  · rw [hlen]
    exact hbound
  · rw [hlen]
    exact hroom
  · intro v hv
    obtain ⟨i, -, rfl⟩ := List.mem_map.1 hv
    exact msbField_lt _ _ _
  · exact msbPacks_fields _ m.width.1 m.width.2 n

/-- Lists with one tape are held by the same words. -/
theorem Holds.of_tape {us : List U64} (h : Holds m us)
    (hlen : us.length = vs.length)
    (hfits : ∀ v ∈ vs, v.toNat < 2 ^ m.bitsPerValue)
    (htape : ∀ p < vs.length * m.bitsPerValue,
      valueAt us m.bitsPerValue p = valueAt vs m.bitsPerValue p) :
    Holds m vs where
  size := by rw [← hlen, h.size]
  bound := by
    rw [← hlen]
    exact h.bound
  room := by
    rw [← hlen]
    exact h.room
  fits := hfits
  packs := fun p hp => by rw [h.packs p (by rwa [hlen]), htape p hp]

theorem fillAligned_holdsAt {w n lo : Nat} {v : U64} (hi : Nat)
    (h : HoldsAt w m vs) (hn : n * w = 64 * (n * w / 64)) (hn0 : 0 < n)
    (hn64 : n ≤ 64) (halign : lo % n = 0) (hle : lo ≤ hi)
    (hhi : hi ≤ vs.length) (hv : v.toNat < 2 ^ w) :
    ∃ m', m.fillAligned n lo hi v = .ok m' ∧
      HoldsAt w m' (splice vs lo (List.replicate (hi - lo) v)) := by
  obtain ⟨h, rfl⟩ := h
  obtain ⟨hw, hw'⟩ := m.width
  obtain ⟨pattern, hpat, hpatlen, hpattern⟩ := alignedBlocks_spec hw hw' hn64 hv
  have hnw : 0 < n * m.bitsPerValue := Nat.mul_pos hn0 hw
  -- The run starts at a word, because `lo` is a boundary.
  have hstart : lo * m.bitsPerValue = 64 * (lo * m.bitsPerValue / 64) := by
    obtain ⟨k, rfl⟩ := Nat.dvd_of_mod_eq_zero halign
    rw [Nat.mul_right_comm, hn, Nat.mul_assoc,
      Nat.mul_div_cancel_left _ (by decide)]
  have hlohi : lo * m.bitsPerValue ≤ hi * m.bitsPerValue :=
    Nat.mul_le_mul_right _ hle
  have hhilen : hi * m.bitsPerValue ≤ vs.length * m.bitsPerValue :=
    Nat.mul_le_mul_right _ hhi
  have hroom := h.room
  generalize hs : lo * m.bitsPerValue / 64 = s at hstart
  generalize he : hi * m.bitsPerValue / 64 = e
  have hse : s + (e - s) = e := by omega
  obtain ⟨blocks, hfill, hlen, htape⟩ := fillBlocks_spec
    (show 0 < n * m.bitsPerValue / 64 by omega)
    (show n * m.bitsPerValue / 64 ≤ pattern.length by omega) s (e - s) m.blocks
    (by omega)
  rw [hse] at hfill htape
  obtain ⟨us, huslen, hus⟩ := exists_holdsAt (m := { m with blocks := blocks })
    (n := vs.length) rfl h.size h.bound (by rw [hlen]; exact hroom)
  have hgap : e * 64 / m.bitsPerValue * m.bitsPerValue ≤ 64 * e := by
    rw [Nat.mul_comm 64]
    exact Nat.div_mul_le_self _ _
  have hlogap : lo ≤ e * 64 / m.bitsPerValue := by
    rw [Nat.le_div_iff_mul_le hw]
    omega
  generalize hg : e * 64 / m.bitsPerValue = gap at hgap hlogap
  have hgaphi : gap ≤ hi := by
    rw [← hg]
    refine Nat.div_le_of_le_mul ?_
    rw [Nat.mul_comm m.bitsPerValue]
    omega
  have hv' : Fits { m with blocks := blocks } v := hv
  obtain ⟨m', hrun, h', -⟩ := fillEach_holdsAt gap (n := hi - gap)
    (v := v) hus (by rw [huslen]; omega) hv'
  refine ⟨m', ?_, ?_⟩
  · rw [fillAligned, guardOk_pos halign, ok_bind]
    dsimp only
    rw [hpat, ok_bind, bitPos_eq h (hle.trans hhi), bitPos_eq h hhi,
      hs, he, hfill, ok_bind, hg, hrun]
  · obtain ⟨h', hbits⟩ := h'
    dsimp only at hbits
    refine ⟨h'.of_tape ?_ ?_ ?_, hbits⟩
    · rw [splice_length (by rw [List.length_replicate, huslen]; omega),
        splice_length (by rw [List.length_replicate]; omega), huslen]
    · rw [hbits]
      exact forall_mem_splice lo h.fits
        fun u hu => List.eq_of_mem_replicate hu ▸ hv
    · intro p hp
      rw [splice_length (by rw [List.length_replicate]; omega), hbits] at hp
      rw [hbits, valueAt_fill hw (by omega), valueAt_fill hw (by omega),
        Nat.add_sub_cancel' hgaphi, Nat.add_sub_cancel' hle,
        ← hus.1.packs p (by rw [huslen]; exact hp)]
      dsimp only
      rw [htape p]
      by_cases hin : lo * m.bitsPerValue ≤ p ∧ p < hi * m.bitsPerValue
      · rw [if_pos hin]
        by_cases hpg : gap * m.bitsPerValue ≤ p
        · rw [if_pos ⟨hpg, hin.2⟩]
        · rw [if_neg (by omega), if_pos (by omega), ← hn,
            hpattern _ (Nat.mod_lt p hnw), Nat.mod_mul_left_mod]
      · have hlogap' : lo * m.bitsPerValue ≤ gap * m.bitsPerValue :=
          Nat.mul_le_mul_right _ hlogap
        rw [if_neg hin, if_neg (by omega), if_neg (by omega), h.packs p hp]

theorem fill_holds (h : Holds m vs) {lo hi : Nat} {v : U64} (hle : lo ≤ hi)
    (hhi : hi ≤ vs.length) (hv : Fits m v) :
    ∃ m', m.fill lo hi v = .ok m' ∧
      Holds m' (splice vs lo (List.replicate (hi - lo) v)) ∧
      m'.bitsPerValue = m.bitsPerValue := by
  obtain ⟨hw, hw'⟩ := m.width
  obtain ⟨hn, hn0⟩ := aligned_spec m.bitsPerValue (by omega) hw
  have hn64 : 64 / Nat.gcd 64 m.bitsPerValue ≤ 64 := Nat.div_le_self _ _
  rw [fill, guardOk_pos ((unsignedBitsRequired_le_iff hw).2 hv),
    ok_bind, guardOk_pos hle, ok_bind, gcd_eq]
  generalize 64 / Nat.gcd 64 m.bitsPerValue = n at *
  dsimp only
  by_cases hspan : hi - lo ≤ 3 * n
  · rw [if_pos hspan]
    obtain ⟨m', hrun, h', -⟩ := defaultFill_spec bitsPerValue
      (set_holdsAt m.bitsPerValue) ⟨h, rfl⟩ hle hhi hv (le_maxValue hv)
    exact ⟨m', hrun, h'⟩
  · rw [if_neg hspan]
    have halign := boundary_aligned hn0 lo
    generalize hhead : (if lo % n ≠ 0 then n - lo % n else 0) = head at *
    have hheadn : head ≤ n := by
      rw [← hhead]
      split <;> omega
    obtain ⟨m₁, hrun, h₁, -⟩ := fillEach_holdsAt _ (w := m.bitsPerValue)
      (n := head) ⟨h, rfl⟩ (show lo + head ≤ vs.length by omega) hv
    have hlen : (splice vs lo (List.replicate head v)).length = vs.length :=
      splice_length (by rw [List.length_replicate]; omega)
    obtain ⟨m₂, hrun₂, h₂⟩ := fillAligned_holdsAt hi h₁ hn hn0 hn64 halign (by omega) (by omega) hv
    have hjoin := splice_splice (l := vs) (i := lo) (List.replicate head v)
      (List.replicate (hi - (lo + head)) v)
      (by rw [List.length_replicate]; omega)
    rw [List.length_replicate, List.replicate_append_replicate,
      show head + (hi - (lo + head)) = hi - lo by omega] at hjoin
    rw [hjoin] at h₂
    refine ⟨m₂, ?_, h₂⟩
    rw [hrun, ok_bind, hrun₂]

theorem clear_holds (h : Holds m vs) :
    ∃ m', m.clear = .ok m' ∧ Holds m' (List.replicate vs.length 0#64) ∧
      m'.bitsPerValue = m.bitsPerValue := by
  refine ⟨_, rfl, ⟨?_, ?_, ?_, ?_, ?_⟩, rfl⟩
  · rw [List.length_replicate]
    exact h.size
  · rw [List.length_replicate]
    exact h.bound
  · rw [List.length_replicate, List.length_replicate]
    exact h.room
  · intro v hv
    rw [List.eq_of_mem_replicate hv]
    exact Nat.two_pow_pos _
  · intro p hp
    rw [List.length_replicate] at hp
    rw [msbAt_zero, valueAt_replicate _ hp]
    exact BitVec.getLsbD_zero.symm

instance : FixedWidth Packed64 where
  Holds := Holds
  size_eq := fun h => h.size
  get_spec := fun h => get_holds h
  getBulk_spec := fun h => getBulk_holds h
  set_spec := fun h => set_holds h
  setBulk_spec := fun h => setBulk_holds h
  fill_spec := fun h => fill_holds h
  clear_spec := fun h => clear_holds h

end Packed64

end LuceneRust.Util.Packed
