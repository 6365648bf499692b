import LuceneRust.Util.Packed.BulkOperation
import LuceneRust.Util.Packed.MutableSpec

/-!
# `lucene_util::packed::packed64_single_block`

Values that never span two words: a word holds `64 / bpv` of them, least
significant first.  The word of an index is found by a multiplication with a
reciprocal.

* `magic_div` is why that is the quotient, and `position_eq` puts it to use.
* The instance of `FixedWidth` says what the operations do, and
  `new_holdsAt` starts it.
-/

namespace LuceneRust.Util.Packed

open RustSem WordTape
open BitStream (IsMask)
open BulkOperation (setBlock setBlock_ok HoldsFirst)

/-- `div_magic`: `ceil(2^64 / d)`. -/
def divMagicOf (d : Nat) : Nat := (2 ^ 64 - 1) / d + 1

/-- `Packed64SingleBlock`. -/
structure Packed64SingleBlock where
  blocks : List U64
  valueCount : Nat
  bitsPerValue : Nat
  valuesPerBlock : Nat
  mask : U64
  divMagic : Nat
  supported : bitsPerValue ∈ supportedBitsPerValue
  per : valuesPerBlock = 64 / bitsPerValue
  isMask : IsMask mask bitsPerValue
  magic : divMagic = divMagicOf valuesPerBlock

namespace Packed64SingleBlock

/-- `Packed64SingleBlock::new`. -/
def new (valueCount bits : Nat) : Call Packed64SingleBlock :=
  if h : bits ∈ supportedBitsPerValue then do
    let valuesPerBlock := 64 / bits
    let blocks ← vecZeroed (divCeil valueCount valuesPerBlock)
    .ok
      { blocks := blocks
        valueCount := valueCount
        bitsPerValue := bits
        valuesPerBlock := valuesPerBlock
        mask := (1#64 <<< bits) - 1#64
        divMagic := divMagicOf valuesPerBlock
        supported := h
        per := rfl
        isMask := BulkOperation.isMask_ones
          (Nat.lt_of_le_of_lt (BulkOperation.supported_le bits h).2 (by decide))
        magic := rfl }
  else .panic

/-- `position`: a word, and the shift of the value in it. -/
def position (m : Packed64SingleBlock) (index : Nat) : Call (Nat × Nat) := do
  .guardOk (index < 2 ^ 58)
  let o := index * m.divMagic / 2 ^ 64
  let b ← sub index (o * m.valuesPerBlock)
  .guardOk (o = index / m.valuesPerBlock ∧ b = index % m.valuesPerBlock)
  .ok (o, b * m.bitsPerValue)

/-- `get`. -/
def get (m : Packed64SingleBlock) (index : Nat) : Call U64 := do
  .guardOk (index < m.valueCount)
  let (o, shift) ← m.position index
  let word ← .expect m.blocks[o]?
  .ok ((word >>> shift) &&& m.mask)

/-- `set`. -/
def set (m : Packed64SingleBlock) (index : Nat) (value : U64) :
    Call Packed64SingleBlock := do
  .guardOk (index < m.valueCount)
  let (o, shift) ← m.position index
  let word ← .expect m.blocks[o]?
  let blocks ← setBlock m.blocks o
    ((word &&& ~~~(m.mask <<< shift)) ||| (value <<< shift))
  .ok { m with blocks := blocks }

/-- The whole blocks of `get_bulk`. -/
def bulkDecode (m : Packed64SingleBlock) (index len : Nat)
    (slots : List U64) : Call (List U64 × Nat) := do
  let decoder ← BulkOperation.of .packedSingleBlock m.bitsPerValue
  let blockIndex := index / m.valuesPerBlock
  let nblocks ← sub ((index + len) / m.valuesPerBlock) blockIndex
  let words ← .expect (sliceFrom m.blocks blockIndex)
  let slots ← decoder.decodeLongs words slots nblocks
  .ok (slots, nblocks * m.valuesPerBlock)

/-- `get_bulk`. -/
def getBulk (m : Packed64SingleBlock) (index : Nat) (arr : List U64) :
    Call (List U64 × Nat) :=
  bulkGet m.valuesPerBlock m.valueCount m.get m.bulkDecode index arr

/-- The whole blocks of `set_bulk`. -/
def bulkEncode (m : Packed64SingleBlock) (index len : Nat)
    (values : List U64) : Call (Packed64SingleBlock × Nat) := do
  let op ← BulkOperation.of .packedSingleBlock m.bitsPerValue
  let blockIndex := index / m.valuesPerBlock
  let nblocks ← sub ((index + len) / m.valuesPerBlock) blockIndex
  let words ← .expect (sliceFrom m.blocks blockIndex)
  let words ← op.encodeLongs values words nblocks
  .ok ({ m with blocks := m.blocks.take blockIndex ++ words },
    nblocks * m.valuesPerBlock)

/-- `set_bulk`. -/
def setBulk (m : Packed64SingleBlock) (index : Nat) (arr : List U64) :
    Call (Packed64SingleBlock × Nat) :=
  bulkSet m.valuesPerBlock valueCount set bulkEncode m index arr

/-- The loops of `fill` that set single values. -/
def fillEach (m : Packed64SingleBlock) (lo n : Nat) (val : U64) :
    Call Packed64SingleBlock :=
  (List.range' lo n).foldlM (fun m i => set m i val) m

/-- The word that repeats `val`, `n` times. -/
def blockValue (bits n : Nat) (val : U64) : U64 :=
  (List.range n).foldl (fun (block : U64) i => block ||| val <<< (i * bits)) 0#64

/-- `fill` from a block boundary on. -/
def fillBlocks (m : Packed64SingleBlock) (lo hi : Nat) (val : U64) :
    Call Packed64SingleBlock := do
  let vpb := m.valuesPerBlock
  let fromBlock := lo / vpb
  let toBlock := hi / vpb
  .guardOk (fromBlock ≤ toBlock ∧ toBlock ≤ m.blocks.length)
  let blocks := splice m.blocks fromBlock
    (List.replicate (toBlock - fromBlock) (blockValue m.bitsPerValue vpb val))
  fillEach { m with blocks := blocks } (vpb * toBlock) (hi - vpb * toBlock) val

/-- `fill`. -/
def fill (m : Packed64SingleBlock) (lo hi : Nat) (val : U64) :
    Call Packed64SingleBlock := do
  .guardOk (lo ≤ hi)
  .guardOk (unsignedBitsRequired val ≤ m.bitsPerValue)
  let vpb := m.valuesPerBlock
  if hi - lo ≤ vpb * 2 then
    defaultFill bitsPerValue set m lo hi val
  else
    let head := if lo % vpb ≠ 0 then vpb - lo % vpb else 0
    let m ← fillEach m lo head val
    fillBlocks m (lo + head) hi val

/-- `clear`. -/
def clear (m : Packed64SingleBlock) : Call Packed64SingleBlock :=
  .ok { m with blocks := List.replicate m.blocks.length 0#64 }

instance : Mutable Packed64SingleBlock where
  size := valueCount
  bitsPerValue := bitsPerValue
  get := get
  getBulk := getBulk
  set := set
  setBulk := setBulk
  fill := fill
  clear := clear

/-! ## The reciprocal -/

/-- The multiplication is the division, for an index in the range that
`position` asserts. -/
theorem magic_div {w i : Nat} (hw : w ∈ supportedBitsPerValue)
    (hi : i < 2 ^ 58) : i * divMagicOf (64 / w) / 2 ^ 64 = i / (64 / w) := by
  simp only [supportedBitsPerValue, List.mem_cons, List.not_mem_nil,
    or_false] at hw
  rcases hw with rfl | rfl | rfl | rfl | rfl | rfl | rfl | rfl | rfl | rfl |
    rfl | rfl | rfl | rfl <;>
  · simp only [divMagicOf, Nat.reducePow, Nat.reduceDiv, Nat.reduceSub,
      Nat.reduceAdd] at hi ⊢
    omega

variable {m : Packed64SingleBlock} {vs : List U64}

theorem per_pos (m : Packed64SingleBlock) : 0 < m.valuesPerBlock := by
  obtain ⟨hw, hw'⟩ := BulkOperation.supported_le _ m.supported
  rw [m.per]
  exact Nat.div_pos (by omega) hw

theorem per_le (m : Packed64SingleBlock) :
    m.valuesPerBlock * m.bitsPerValue ≤ 64 := by
  rw [m.per]
  exact Nat.div_mul_le_self 64 _

theorem position_eq (m : Packed64SingleBlock) {i : Nat} (hi : i < 2 ^ 58) :
    m.position i =
      .ok (i / m.valuesPerBlock, i % m.valuesPerBlock * m.bitsPerValue) := by
  have hdiv := magic_div m.supported hi
  rw [← m.per, ← m.magic] at hdiv
  have hdm := Nat.div_add_mod i m.valuesPerBlock
  rw [Nat.mul_comm] at hdm
  have hsub : i - i / m.valuesPerBlock * m.valuesPerBlock =
      i % m.valuesPerBlock := by omega
  rw [position, guardOk_pos hi, ok_bind]
  dsimp only
  rw [hdiv, sub_of_le (by omega), ok_bind, hsub,
    guardOk_pos ⟨rfl, rfl⟩, ok_bind]

/-! ## What an array holds -/

/-- The array holds the values `vs`. -/
structure Holds (m : Packed64SingleBlock) (vs : List U64) : Prop where
  size : m.valueCount = vs.length
  bound : vs.length ≤ 2 ^ 58
  room : vs.length ≤ m.blocks.length * m.valuesPerBlock
  fits : ∀ v ∈ vs, v.toNat < 2 ^ m.bitsPerValue
  words : LsbBlocks m.blocks m.bitsPerValue m.valuesPerBlock vs

/-- The array holds the values `vs`, at the width `w`. -/
def HoldsAt (w : Nat) (m : Packed64SingleBlock) (vs : List U64) : Prop :=
  Holds m vs ∧ m.bitsPerValue = w

/-- The value fits the width. -/
def Fits (m : Packed64SingleBlock) (v : U64) : Prop :=
  v.toNat < 2 ^ m.bitsPerValue

theorem Holds.block_lt (h : Holds m vs) {i : Nat} (hi : i < vs.length) :
    i / m.valuesPerBlock < m.blocks.length :=
  (Nat.div_lt_iff_lt_mul m.per_pos).2 (hi.trans_le h.room)

/-- New words of the same number that hold other values. -/
theorem Holds.update (h : Holds m vs) (blocks us : List U64)
    (hlen : blocks.length = m.blocks.length) (hus : us.length = vs.length)
    (hfits : ∀ v ∈ us, v.toNat < 2 ^ m.bitsPerValue)
    (hwords : LsbBlocks blocks m.bitsPerValue m.valuesPerBlock us) :
    Holds { m with blocks := blocks } us where
  size := by rw [hus, ← h.size]
  bound := by
    rw [hus]
    exact h.bound
  room := by
    rw [hus, hlen]
    exact h.room
  fits := hfits
  words := hwords

/-! ## Single values -/

theorem get_holds (h : Holds m vs) {i : Nat} {v : U64}
    (hi : vs[i]? = some v) : m.get i = .ok v := by
  have hlt : i < vs.length := (List.getElem?_eq_some_iff.1 hi).1
  have hblock := h.block_lt hlt
  have hbound := h.bound
  have hfield := h.words.field hi (h.fits v (List.mem_of_getElem? hi))
  rw [get, guardOk_pos (by rw [h.size]; exact hlt), ok_bind,
    m.position_eq (by omega), ok_bind]
  dsimp only
  rw [List.getElem?_eq_getElem hblock, expect_some, ok_bind,
    ← hfield, ← lsbField_word m.isMask
      (slot_le m.per_le (Nat.mod_lt i m.per_pos)),
    List.getD_eq_getElem _ _ hblock]

theorem set_holdsAt (w : Nat) : SetSpec set (HoldsAt w) Fits := by
  rintro m vs i v ⟨h, hw⟩ hi hv
  have hblock := h.block_lt hi
  have hbound := h.bound
  refine ⟨_, ?_, ⟨h.update _ _ List.length_set List.length_set ?_
    (h.words.store m.isMask hv m.per_le m.per_pos hblock), hw⟩, fun u hu => hu⟩
  · rw [set, guardOk_pos (by rw [h.size]; exact hi), ok_bind,
      m.position_eq (by omega), ok_bind]
    dsimp only
    rw [List.getElem?_eq_getElem hblock, expect_some, ok_bind,
      setBlock_ok hblock, ok_bind, List.getD_eq_getElem _ _ hblock]
  · intro u hu
    rcases List.mem_or_eq_of_mem_set hu with hu | rfl
    · exact h.fits u hu
    · exact hv

theorem set_holds (h : Holds m vs) {i : Nat} {v : U64} (hi : i < vs.length)
    (hv : Fits m v) : ∃ m', m.set i v = .ok m' ∧ Holds m' (vs.set i v) ∧
      m'.bitsPerValue = m.bitsPerValue := by
  obtain ⟨m', hset, h', -⟩ := set_holdsAt m.bitsPerValue ⟨h, rfl⟩ hi hv
  exact ⟨m', hset, h'⟩

/-! ## Bulk operations -/

/-- Whole blocks of a run from a boundary on. -/
theorem nblocks_eq (len : Nat) (m : Packed64SingleBlock) {i : Nat}
    (halign : i % m.valuesPerBlock = 0) :
    (i + len) / m.valuesPerBlock - i / m.valuesPerBlock =
      len / m.valuesPerBlock ∧
    i / m.valuesPerBlock ≤ (i + len) / m.valuesPerBlock ∧
    i = i / m.valuesPerBlock * m.valuesPerBlock := by
  obtain ⟨k, rfl⟩ := Nat.dvd_of_mod_eq_zero halign
  rw [Nat.mul_add_div m.per_pos, Nat.mul_div_cancel_left _ m.per_pos]
  exact ⟨Nat.add_sub_cancel_left _ _, Nat.le_add_right _ _, Nat.mul_comm _ _⟩

/-- The words of the run are there. -/
theorem Holds.blocks_le (h : Holds m vs) {i len : Nat}
    (hi : i = i / m.valuesPerBlock * m.valuesPerBlock)
    (hlen : i + len ≤ vs.length) :
    i / m.valuesPerBlock + len / m.valuesPerBlock ≤ m.blocks.length := by
  have hdiv := Nat.div_mul_le_self len m.valuesPerBlock
  have hroom := h.room
  refine Nat.le_of_mul_le_mul_right (c := m.valuesPerBlock) ?_ m.per_pos
  rw [Nat.add_mul]
  omega

theorem bulkDecode_spec (h : Holds m vs) (i len : Nat) (slots : List U64)
    (halign : i % m.valuesPerBlock = 0) (hlen : i + len ≤ vs.length)
    (hslots : len ≤ slots.length) :
    ∃ got ≤ len, m.bulkDecode i len slots =
      .ok ((vs.drop i).take got ++ slots.drop got, got) := by
  obtain ⟨hn, hle, hi⟩ := m.nblocks_eq len halign
  obtain ⟨op, hof, hf, hbits, hcount, hmask⟩ :=
    BulkOperation.of_single m.supported
  have hblocks := h.blocks_le hi hlen
  have hdiv := Nat.div_mul_le_self len m.valuesPerBlock
  have hwords := h.words.drop m.per_pos (i / m.valuesPerBlock)
  rw [← hi] at hwords
  refine ⟨_, hdiv, ?_⟩
  have hdecode := BulkOperation.decodeLongs_single slots (len / m.valuesPerBlock) hf hbits (hcount.trans m.per.symm)
    hmask m.per_le hwords (fun v hv => h.fits v (List.mem_of_mem_drop hv))
    (by rw [List.length_drop]; omega) (by rw [List.length_drop]; omega)
    (hdiv.trans hslots)
  rw [bulkDecode, hof, ok_bind]
  dsimp only
  rw [sub_of_le hle, ok_bind, sliceFrom, if_pos (by omega),
    expect_some, ok_bind, hn, hdecode, ok_bind]

theorem bulkEncode_spec (h : Holds m vs) (i len : Nat) (us : List U64)
    (halign : i % m.valuesPerBlock = 0) (hlen : i + len ≤ vs.length)
    (hus : len ≤ us.length) (hfits : ∀ v ∈ us, Fits m v) :
    ∃ m' n, n ≤ len ∧ m.bulkEncode i len us = .ok (m', n) ∧
      HoldsAt m.bitsPerValue m' (splice vs i (us.take n)) ∧
      ∀ u, Fits m u → Fits m' u := by
  obtain ⟨hn, hle, hi⟩ := m.nblocks_eq len halign
  obtain ⟨op, hof, hf, hbits, hcount, hmask⟩ :=
    BulkOperation.of_single m.supported
  have hblocks := h.blocks_le hi hlen
  have hdiv := Nat.div_mul_le_self len m.valuesPerBlock
  have hw := (BulkOperation.supported_le _ m.supported).1
  obtain ⟨words, hencode, hwlen, hrest, hwords⟩ :=
    BulkOperation.encodeLongs_single us (m.blocks.drop (i / m.valuesPerBlock)) (len / m.valuesPerBlock) hf hbits
      (hcount.trans m.per.symm) hw m.per_pos m.per_le hfits
      (by rw [List.length_drop]; omega) (hdiv.trans hus)
  have htake : (us.take (len / m.valuesPerBlock * m.valuesPerBlock)).length =
      len / m.valuesPerBlock * m.valuesPerBlock :=
    List.length_take_of_le (by omega)
  refine ⟨_, _, hdiv, ?_, ⟨h.update (m.blocks.take
    (i / m.valuesPerBlock) ++ words) _ ?_ (splice_length (by omega)) ?_ ?_, rfl⟩,
    fun u hu => hu⟩
  · rw [bulkEncode, hof, ok_bind]
    dsimp only
    rw [sub_of_le hle, ok_bind, sliceFrom, if_pos (by omega),
      expect_some, ok_bind, hn, hencode, ok_bind]
  · rw [List.length_append, hwlen, List.length_drop, List.length_take]
    omega
  · exact forall_mem_splice i h.fits
      fun v hv => hfits v (List.mem_of_mem_take hv)
  · have hsplice := h.words.splice hwords
      (fun p hp => by rw [hrest p hp, lsbAt_drop]) htake (by omega)
      (by omega) m.per_le m.per_pos
    rwa [← hi] at hsplice

theorem getBulk_holds (h : Holds m vs) {i : Nat} {arr : List U64}
    (hi : i < vs.length) (hne : arr ≠ []) :
    ∃ n, 0 < n ∧ n ≤ arr.length ∧ i + n ≤ vs.length ∧
      m.getBulk i arr = .ok ((vs.drop i).take n ++ arr.drop n, n) := by
  rw [getBulk, h.size]
  exact bulkGet_spec m.per_pos (fun i v hv => get_holds h hv)
    (bulkDecode_spec h) hi hne

theorem setBulk_holds (h : Holds m vs) {i : Nat} {arr : List U64}
    (hi : i < vs.length) (hne : arr ≠ []) (hfits : ∀ v ∈ arr, Fits m v) :
    ∃ m' n, m.setBulk i arr = .ok (m', n) ∧ 0 < n ∧ n ≤ arr.length ∧
      i + n ≤ vs.length ∧ Holds m' (splice vs i (arr.take n)) ∧
      m'.bitsPerValue = m.bitsPerValue := by
  obtain ⟨m', n, hrun, hn, hle, hin, h', -⟩ := bulkSet_spec valueCount set (HoldsAt m.bitsPerValue) Fits bulkEncode m.per_pos (fun h => h.1.size)
    (set_holdsAt m.bitsPerValue)
    (by
      rintro m₁ us i len ys ⟨h₁, hw₁⟩ halign hlen hys hfit
      rw [m.per, ← hw₁, ← m₁.per] at halign
      rw [← hw₁]
      exact bulkEncode_spec h₁ i len ys halign hlen hys hfit)
    ⟨h, rfl⟩ hi hne hfits
  exact ⟨m', n, hrun, hn, hle, hin, h'⟩

/-! ## `fill`, `clear` and `new` -/

theorem fillEach_holdsAt {w n : Nat} {v : U64} (lo : Nat) (h : HoldsAt w m vs)
    (hlen : lo + n ≤ vs.length) (hv : Fits m v) :
    ∃ m', m.fillEach lo n v = .ok m' ∧
      HoldsAt w m' (splice vs lo (List.replicate n v)) ∧
      ∀ u, Fits m u → Fits m' u :=
  foldlM_set_range (set_holdsAt w) v n lo m vs h hlen hv

/-- The word of a repeated value. -/
theorem blockValue_holds {w : Nat} (hw : 1 ≤ w) {v : U64}
    (hv : v.toNat < 2 ^ w) (n : Nat) :
    HoldsFirst w (List.replicate n v) n (blockValue w n v) := by
  suffices h : ∀ k ≤ n, HoldsFirst w (List.replicate n v) k
      (blockValue w k v) from h n (Nat.le_refl n)
  intro k
  induction k with
  | zero =>
    intro _ r _
    simp [blockValue]
  | succ k ih =>
    intro hk
    have hstep := (ih (by omega)).step hw (v := v)
      (by rw [List.getElem?_replicate, if_pos (by omega)]) hv
    rwa [blockValue, List.range_succ, List.foldl_append, List.foldl_cons,
      List.foldl_nil, ← blockValue]

/-- Words that all repeat a value. -/
theorem lsbBlocks_replicate {w per : Nat} {v bv : U64} (cnt : Nat)
    (rest : List U64) (hbv : HoldsFirst w (List.replicate per v) per bv)
    (hper : per * w ≤ 64) (hpos : 0 < per) :
    LsbBlocks (List.replicate cnt bv ++ rest) w per
      (List.replicate (cnt * per) v) := by
  intro i u hi k hk
  have hslot := slot_le hper (Nat.mod_lt i hpos)
  have hmod := Nat.mod_lt i hpos
  rw [List.getElem?_replicate] at hi
  split at hi
  · rename_i hlt
    have hword : i / per < cnt := (Nat.div_lt_iff_lt_mul hpos).2 hlt
    have hin : i % per * w + k < per * w := by
      have := Nat.mul_le_mul_right w hmod
      rw [Nat.succ_mul] at this
      omega
    rw [← Option.some.inj hi, Nat.add_assoc, lsbAt_word _ _ (by omega),
      List.getD_append _ _ _ _ (by rwa [List.length_replicate]),
      List.getD_eq_getElem?_getD, List.getElem?_replicate, if_pos hword,
      Option.getD_some, hbv _ (by omega), slot_div hk, slot_mod hk,
      List.getD_eq_getElem?_getD, List.getElem?_replicate, if_pos hmod,
      Option.getD_some]
    simp [hin]
  · cases hi

theorem fillBlocks_holdsAt {w lo : Nat} {v : U64} (hi : Nat)
    (h : HoldsAt w m vs) (halign : lo % m.valuesPerBlock = 0) (hle : lo ≤ hi)
    (hhi : hi ≤ vs.length) (hv : v.toNat < 2 ^ w) :
    ∃ m', m.fillBlocks lo hi v = .ok m' ∧
      HoldsAt w m' (splice vs lo (List.replicate (hi - lo) v)) := by
  obtain ⟨h, rfl⟩ := h
  have hw := (BulkOperation.supported_le _ m.supported).1
  have hpos := m.per_pos
  obtain ⟨-, -, hlo⟩ := m.nblocks_eq 0 halign
  have hblocks : lo / m.valuesPerBlock ≤ hi / m.valuesPerBlock :=
    Nat.div_le_div_right hle
  have htoBlock := Nat.div_mul_le_self hi m.valuesPerBlock
  have hroom : hi / m.valuesPerBlock ≤ m.blocks.length := by
    have := h.room
    refine Nat.le_of_mul_le_mul_right (c := m.valuesPerBlock) ?_ hpos
    omega
  generalize hs : lo / m.valuesPerBlock = s at hblocks hlo
  generalize he : hi / m.valuesPerBlock = e at hblocks htoBlock hroom
  have hmul : s * m.valuesPerBlock ≤ e * m.valuesPerBlock :=
    Nat.mul_le_mul_right _ hblocks
  have hcnt : (e - s) * m.valuesPerBlock =
      e * m.valuesPerBlock - s * m.valuesPerBlock := Nat.sub_mul _ _ _
  have hwords := h.words.splice (e := s) (n := e - s)
    (lsbBlocks_replicate (e - s) (m.blocks.drop e)
      (blockValue_holds hw hv m.valuesPerBlock) m.per_le hpos)
    (by
      intro p hp
      have := lsbAt_take_append (List.replicate (e - s)
        (blockValue m.bitsPerValue m.valuesPerBlock v)) (m.blocks.drop e) p
        (n := e - s) (by rw [List.length_replicate])
      rw [List.take_of_length_le (by rw [List.length_replicate]),
        if_neg (by omega), lsbAt_drop] at this
      rw [this]
      congr 1
      omega)
    (by rw [List.length_replicate]) (by rw [List.length_replicate]; omega)
    (by omega) m.per_le hpos
  rw [← hlo] at hwords
  have h₁ := h.update (splice m.blocks s
      (List.replicate (e - s) (blockValue m.bitsPerValue m.valuesPerBlock v)))
    (splice vs lo (List.replicate ((e - s) * m.valuesPerBlock) v))
    (splice_length (by rw [List.length_replicate]; omega))
    (splice_length (by rw [List.length_replicate]; omega))
    (forall_mem_splice lo h.fits fun u hu => List.eq_of_mem_replicate hu ▸ hv)
    (by
      rw [splice, List.length_replicate, Nat.add_sub_cancel' hblocks]
      exact hwords)
  obtain ⟨m', hrun, h', -⟩ := fillEach_holdsAt (m.valuesPerBlock * e) (v := v) (n := hi - m.valuesPerBlock * e) ⟨h₁, rfl⟩
    (by
      rw [splice_length (by rw [List.length_replicate]; omega), Nat.mul_comm]
      omega) hv
  refine ⟨m', ?_, ?_⟩
  · rw [fillBlocks]
    dsimp only
    rw [hs, he, guardOk_pos ⟨hblocks, hroom⟩, ok_bind, hrun]
  · have hjoin := splice_splice (l := vs) (i := lo)
      (List.replicate ((e - s) * m.valuesPerBlock) v)
      (List.replicate (hi - m.valuesPerBlock * e) v)
      (by rw [List.length_replicate]; omega)
    rw [List.length_replicate, List.replicate_append_replicate,
      Nat.mul_comm m.valuesPerBlock,
      show lo + (e - s) * m.valuesPerBlock = e * m.valuesPerBlock by omega,
      show (e - s) * m.valuesPerBlock + (hi - e * m.valuesPerBlock) =
        hi - lo by omega] at hjoin
    rw [Nat.mul_comm m.valuesPerBlock, hjoin] at h'
    exact h'

theorem fill_holds (h : Holds m vs) {lo hi : Nat} {v : U64} (hle : lo ≤ hi)
    (hhi : hi ≤ vs.length) (hv : Fits m v) :
    ∃ m', m.fill lo hi v = .ok m' ∧
      Holds m' (splice vs lo (List.replicate (hi - lo) v)) ∧
      m'.bitsPerValue = m.bitsPerValue := by
  have hw := (BulkOperation.supported_le _ m.supported).1
  have halign := boundary_aligned m.per_pos lo
  rw [fill, guardOk_pos hle, ok_bind,
    guardOk_pos ((unsignedBitsRequired_le_iff hw).2 hv),
    ok_bind]
  dsimp only
  by_cases hspan : hi - lo ≤ m.valuesPerBlock * 2
  · rw [if_pos hspan]
    obtain ⟨m', hrun, h', -⟩ := defaultFill_spec bitsPerValue
      (set_holdsAt m.bitsPerValue) ⟨h, rfl⟩ hle hhi hv (le_maxValue hv)
    exact ⟨m', hrun, h'⟩
  · rw [if_neg hspan]
    generalize hhead : (if lo % m.valuesPerBlock ≠ 0 then
      m.valuesPerBlock - lo % m.valuesPerBlock else 0) = head at *
    have hheadn : head ≤ m.valuesPerBlock := by
      rw [← hhead]
      split <;> omega
    obtain ⟨m₁, hrun, h₁, -⟩ := fillEach_holdsAt _ (w := m.bitsPerValue)
      (n := head) ⟨h, rfl⟩ (show lo + head ≤ vs.length by omega) hv
    have hlen : (splice vs lo (List.replicate head v)).length = vs.length :=
      splice_length (by rw [List.length_replicate]; omega)
    rw [m.per, ← h₁.2, ← m₁.per] at halign
    obtain ⟨m₂, hrun₂, h₂⟩ := fillBlocks_holdsAt hi h₁ halign
      (by omega) (by omega) hv
    have hjoin := splice_splice (l := vs) (i := lo) (List.replicate head v)
      (List.replicate (hi - (lo + head)) v)
      (by rw [List.length_replicate]; omega)
    rw [List.length_replicate, List.replicate_append_replicate,
      show head + (hi - (lo + head)) = hi - lo by omega] at hjoin
    rw [hjoin] at h₂
    refine ⟨m₂, ?_, h₂⟩
    rw [hrun, ok_bind, hrun₂]

/-- Zero words hold zeros. -/
theorem lsbBlocks_zero (n k w per : Nat) :
    LsbBlocks (List.replicate n 0#64) w per (List.replicate k 0#64) := by
  intro i v hi j _
  rw [List.eq_of_mem_replicate (List.mem_of_getElem? hi), lsbAt_zero]
  exact BitVec.getLsbD_zero.symm

theorem clear_holds (h : Holds m vs) :
    ∃ m', m.clear = .ok m' ∧ Holds m' (List.replicate vs.length 0#64) ∧
      m'.bitsPerValue = m.bitsPerValue := by
  refine ⟨_, rfl, h.update _ _ List.length_replicate List.length_replicate ?_
    (lsbBlocks_zero _ _ _ _), rfl⟩
  intro v hv
  rw [List.eq_of_mem_replicate hv]
  exact Nat.two_pow_pos _

/-- A new array holds zeros. -/
theorem new_holdsAt {n w : Nat} (hw : w ∈ supportedBitsPerValue)
    (halloc : 8 * Format.packedSingleBlock.longCount n w ≤ maxAlloc) :
    ∃ m, new n w = .ok m ∧ HoldsAt w m (List.replicate n 0#64) := by
  simp only [Format.longCount] at halloc
  obtain ⟨hw1, hw32⟩ := BulkOperation.supported_le w hw
  have hper : 0 < 64 / w := Nat.div_pos (by omega) hw1
  have hper64 : 64 / w ≤ 64 := Nat.div_le_self 64 w
  have hceil := le_mul_divCeil n hper
  rw [Nat.mul_comm] at hceil
  have hbound : divCeil n (64 / w) * (64 / w) ≤ 2 ^ 52 * 64 :=
    Nat.mul_le_mul (by simp only [maxAlloc] at halloc; omega) hper64
  rw [new, dif_pos hw]
  dsimp only
  rw [vecZeroed_ok halloc, ok_bind]
  refine ⟨_, rfl, ⟨?_, ?_, ?_, ?_, lsbBlocks_zero _ _ _ _⟩, rfl⟩
  · exact List.length_replicate.symm
  · rw [List.length_replicate]
    omega
  · rw [List.length_replicate, List.length_replicate]
    exact hceil
  · intro v hv
    rw [List.eq_of_mem_replicate hv]
    exact Nat.two_pow_pos w

instance : FixedWidth Packed64SingleBlock where
  Holds := Holds
  size_eq := fun h => h.size
  get_spec := fun h => get_holds h
  getBulk_spec := fun h => getBulk_holds h
  set_spec := fun h => set_holds h
  setBulk_spec := fun h => setBulk_holds h
  fill_spec := fun h => fill_holds h
  clear_spec := fun h => clear_holds h

end Packed64SingleBlock

end LuceneRust.Util.Packed
