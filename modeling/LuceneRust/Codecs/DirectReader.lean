import LuceneRust.Store.SliceInput
import LuceneRust.Util.PackedLongs

/-!
# `lucene_codecs::direct_reader`

One packed array of values of a supported width: the checked reader `get`,
the encoder and the widths that the writer rounds up to.

* `get_eq` is the whole behaviour of the reader: the field at the index, or
  the end of the input at the byte where the value starts.
* `encode_packs` says that the encoder, which collects bits in a 128-bit
  word and writes eight bytes at a time, lays the values end to end.
-/

namespace LuceneRust.Codecs.DirectReader

open RustSem BitStream
open Store (Result Error)
open Util (lowMask lowMask_isMask)

/-- `SUPPORTED_BITS`. -/
def supportedBits : List Nat :=
  [1, 2, 4, 8, 12, 16, 20, 24, 28, 32, 40, 48, 56, 64]

/-- `SUPPORTED_BITS_MASK`. -/
def supportedBitsMask : U64 :=
  supportedBits.foldl
    (fun mask b => if b < 64 then mask ||| (1#64 <<< b) else mask) 0#64

/-- `is_supported_bits`. -/
def isSupportedBits (bitsPerValue : U8) : Bool :=
  bitsPerValue = 64#8 ||
    (bitsPerValue < 64#8 &&
      (supportedBitsMask >>> bitsPerValue.toNat) &&& 1#64 ≠ 0#64)

/-- One byte of the loop near the end of a slice. -/
def orByte (acc : U64) (b : U8 × Nat) : U64 :=
  acc ||| (b.1.setWidth 64 <<< (8 * b.2))

/-- The loop over the bytes near the end of a slice. -/
def orBytes (bytes : List U8) : U64 := bytes.zipIdx.foldl orByte 0#64

/-- `direct_reader::get`. -/
def get (slice : List U8) (bitsPerValue : U8) (index : U64) : Result U64 := do
  if !isSupportedBits bitsPerValue then
    .err (.corrupted ("unsupported DirectReader bitsPerValue: " ++
      toString bitsPerValue.toNat))
  else
    let bitPos := index * bitsPerValue.setWidth 64
    let bytePos := (bitPos >>> 3).toNat
    let shift := (bitPos &&& 7#64).toNat
    let bytesNeeded := (shift + bitsPerValue.toNat + 7) / 8
    .guardOk (bytesNeeded ≤ 8)
    if slice.length < bytePos then .err (.eof bytePos)
    else
      let acc ← match RustSem.slice slice bytePos (bytePos + 8) with
        | some window => .ok (fromLeBytes 64 window)
        | none =>
          match RustSem.slice slice bytePos (bytePos + bytesNeeded) with
          | none => .err (.eof bytePos)
          | some bytes => .ok (orBytes bytes)
      .ok ((acc >>> shift) &&& lowMask bitsPerValue.toNat)

/-- One value of `encode`: the bytes so far, and the bits not yet written. -/
def encodeStep (bpv : Nat) (s : List U8 × U128 × Nat) (v : U64) :
    List U8 × U128 × Nat :=
  let (out, acc, nbits) := s
  let acc := acc ||| ((v &&& lowMask bpv).setWidth 128 <<< nbits)
  let nbits := nbits + bpv
  if 64 ≤ nbits then
    (out ++ toLeBytes 8 (acc.setWidth 64), acc >>> 64, nbits - 64)
  else (out, acc, nbits)

/-- `direct_reader::encode`. -/
def encode (values : List U64) (bitsPerValue : U8) : List U8 :=
  let bpv := min bitsPerValue.toNat 64
  let (out, acc, nbits) := values.foldl (encodeStep bpv) ([], 0#128, 0)
  out ++ (toLeBytes 8 (acc.setWidth 64)).take ((nbits + 7) / 8)

/-- `unsigned_bits_required`. -/
def unsignedBitsRequired (maxValue : U64) : U8 :=
  let bits := if maxValue = 0#64 then 1 else 64 - maxValue.clz.toNat
  BitVec.ofNat 8 ((supportedBits.find? fun w => bits ≤ w).getD 64)

/-- `padding_bytes_needed`. -/
def paddingBytesNeeded (bitsPerValue : U8) : Nat :=
  let bits := bitsPerValue.toNat
  let paddingBits :=
    if 32 < bits then 64 - bits
    else if 16 < bits then 32 - bits
    else if 8 < bits then 16 - bits
    else 0
  (paddingBits + 7) / 8

/-! ## Supported widths -/

theorem isSupportedBits_iff (b : U8) :
    isSupportedBits b = true ↔ b.toNat ∈ supportedBits := by
  revert b
  decide +kernel

/-- A supported width is at most 28 or whole bytes. -/
theorem supported_width {b : U8} (h : isSupportedBits b = true) :
    0 < b.toNat ∧ b.toNat ≤ 64 ∧ (b.toNat % 8 = 0 ∨ b.toNat ≤ 28) := by
  rw [isSupportedBits_iff] at h
  revert h
  generalize b.toNat = n
  intro h
  simp only [supportedBits, List.mem_cons, List.not_mem_nil, or_false] at h
  omega

/-- The width that the writer picks is supported and holds the value. -/
theorem unsignedBitsRequired_spec (v : U64) :
    isSupportedBits (unsignedBitsRequired v) = true ∧
      v.toNat < 2 ^ (unsignedBitsRequired v).toNat := by
  have hround : ∀ bits ≤ 64, ∃ w, w ∈ supportedBits ∧ bits ≤ w ∧
      (supportedBits.find? fun w => bits ≤ w).getD 64 = w := by
    intro bits hbits
    have key : ∀ bits : Fin 65, ∃ w, w ∈ supportedBits ∧ bits.val ≤ w ∧
        (supportedBits.find? fun w => bits.val ≤ w).getD 64 = w := by
      decide +kernel
    exact key ⟨bits, by omega⟩
  have hbits : ∃ bits ≤ 64, v.toNat < 2 ^ bits ∧
      unsignedBitsRequired v =
        BitVec.ofNat 8 ((supportedBits.find? fun w => bits ≤ w).getD 64) := by
    refine ⟨if v = 0#64 then 1 else 64 - v.clz.toNat, ?_, ?_, rfl⟩
    · split <;> omega
    · split
      · rename_i h
        simp [h]
      · exact BitVec.toNat_lt_two_pow_sub_clz
  obtain ⟨bits, hle, hlt, heq⟩ := hbits
  obtain ⟨w, hmem, hw, hfind⟩ := hround bits hle
  have hw64 : w < 256 := by
    simp only [supportedBits, List.mem_cons, List.not_mem_nil, or_false] at hmem
    omega
  have hnat : (unsignedBitsRequired v).toNat = w := by
    rw [heq, hfind, BitVec.toNat_ofNat, Nat.mod_eq_of_lt hw64]
  refine ⟨?_, ?_⟩
  · rw [isSupportedBits_iff, hnat]
    exact hmem
  · rw [hnat]
    exact hlt.trans_le (Nat.pow_le_pow_right (by decide) hw)

/-! ## The reader -/

theorem orBytes_eq (bytes : List U8) : orBytes bytes = fromLeBytes 64 bytes := by
  suffices h : ∀ (bytes : List U8) (k : Nat) (acc : U64),
      (bytes.zipIdx k).foldl orByte acc =
        acc ||| (fromLeBytes 64 bytes <<< (8 * k)) by
    have := h bytes 0 0#64
    simpa [orBytes] using this
  intro bytes
  induction bytes with
  | nil =>
    intro k acc
    simp [fromLeBytes]
  | cons b bs ih =>
    intro k acc
    rw [List.zipIdx_cons, List.foldl_cons, ih, fromLeBytes, orByte,
      BitVec.shiftLeft_or_distrib, BitVec.or_assoc, ← BitVec.shiftLeft_add,
      Nat.mul_add, Nat.add_comm 8]

/-- The first bit of a value, as the readers compute it. -/
def bitPos (bitsPerValue : U8) (index : U64) : Nat :=
  (index * bitsPerValue.setWidth 64).toNat

/-- The number of bytes that a value touches. -/
def bytesNeeded (bitsPerValue : U8) (index : U64) : Nat :=
  (bitPos bitsPerValue index % 8 + bitsPerValue.toNat + 7) / 8

theorem shiftRight_three (v : U64) : (v >>> 3).toNat = v.toNat / 8 := by
  rw [BitVec.toNat_ushiftRight, Nat.shiftRight_eq_div_pow]

theorem and_seven (v : U64) : (v &&& 7#64).toNat = v.toNat % 8 := by
  rw [BitVec.toNat_and, show (7#64).toNat = 2 ^ 3 - 1 from rfl,
    Nat.and_two_pow_sub_one_eq_mod]

/-- The shift of a value whose width is not whole bytes leaves it inside a
word. -/
theorem shift_fits {b : U8} (h : isSupportedBits b = true) (index : U64) :
    bitPos b index % 8 + b.toNat ≤ 64 := by
  obtain ⟨-, h64, hw⟩ := supported_width h
  rcases hw with h8 | h28
  · have hmod : bitPos b index % 8 = 0 := by
      rw [bitPos, BitVec.toNat_mul, BitVec.toNat_setWidth_of_le (by decide),
        Nat.mod_mod_of_dvd _ (by decide), Nat.mul_mod, h8, Nat.mul_zero,
        Nat.zero_mod]
    omega
  · have := Nat.mod_lt (bitPos b index) (show 0 < 8 by decide)
    omega

theorem get_eq {slice : List U8} {b : U8} (h : isSupportedBits b = true)
    (index : U64) :
    get slice b index =
      if bitPos b index / 8 + bytesNeeded b index ≤ slice.length then
        .ok (field slice (bitPos b index) b.toNat)
      else .err (.eof (bitPos b index / 8)) := by
  obtain ⟨hpos, h64, -⟩ := supported_width h
  have hfit := shift_fits h index
  have hmask := lowMask_isMask _ h64
  have hneed : bytesNeeded b index ≤ 8 ∧ 1 ≤ bytesNeeded b index ∧
      bitPos b index % 8 + b.toNat ≤ 8 * bytesNeeded b index := by
    rw [bytesNeeded]
    omega
  simp only [get, h, Bool.not_true, Bool.false_eq_true, if_false,
    shiftRight_three, and_seven]
  rw [← bitPos, ← bytesNeeded]
  rw [guardOk_pos hneed.1, ok_bind]
  rcases Nat.lt_or_ge slice.length (bitPos b index / 8) with hout | hin
  · rw [if_pos hout, if_neg (by omega)]
  · rw [if_neg (by omega)]
    rcases Nat.lt_or_ge slice.length (bitPos b index / 8 + 8) with hshort | h8
    · rw [slice_eq_none hshort]
      rcases Nat.lt_or_ge slice.length
        (bitPos b index / 8 + bytesNeeded b index) with hend | hfits
      · rw [slice_eq_none hend, if_neg (by omega)]
        rfl
      · rw [slice_eq_some (by omega) hfits, if_pos hfits,
          Nat.add_sub_cancel_left]
        dsimp only
        rw [ok_bind, orBytes_eq, window_eq_field hmask hfit hneed.2.2,
          Nat.div_add_mod]
    · rw [slice_eq_some (by omega) h8, if_pos (by omega),
        Nat.add_sub_cancel_left]
      dsimp only
      rw [ok_bind, window_eq_field hmask hfit (by omega),
        Nat.div_add_mod]

/-! ## The encoder -/

/-- The stream written so far, with the bits that are still held back. -/
theorem bitAt_pending (out : List U8) (acc : U128) (p : Nat) :
    bitAt (out ++ toLeBytes 16 acc) p =
      if p < 8 * out.length then bitAt out p
      else acc.getLsbD (p - 8 * out.length) := by
  by_cases h : p < 8 * out.length
  · rw [if_pos h, bitAt_append_left h]
  · obtain ⟨q, rfl⟩ : ∃ q, p = 8 * out.length + q :=
      ⟨p - 8 * out.length, by omega⟩
    rw [if_neg h, bitAt_append_right, Nat.add_sub_cancel_left]
    by_cases hq : q < 128
    · exact bitAt_toLeBytes acc (by omega)
    · rw [BitVec.getLsbD_of_ge acc q (by omega), bitAt,
        List.getD_eq_default _ _ (by rw [toLeBytes_length]; omega)]
      simp

/-- The invariant of the encoder after the values `seen`. -/
structure EncodeInv (w : Nat) (seen : List U64) (s : List U8 × U128 × Nat) :
    Prop where
  packs : Packs (s.1 ++ toLeBytes 16 s.2.1) w seen
  count : 8 * s.1.length + s.2.2 = seen.length * w
  lt : s.2.2 < 64
  high : ∀ q, s.2.2 ≤ q → s.2.1.getLsbD q = false

/-- Writing eight bytes out moves bits, and changes none. -/
theorem bitAt_flush (out : List U8) (acc : U128) (p : Nat) :
    bitAt ((out ++ toLeBytes 8 (acc.setWidth 64)) ++ toLeBytes 16 (acc >>> 64))
        p = bitAt (out ++ toLeBytes 16 acc) p := by
  rw [bitAt_pending, bitAt_pending, List.length_append, toLeBytes_length]
  by_cases h₁ : p < 8 * out.length
  · rw [if_pos (by omega), if_pos h₁, bitAt_append_left h₁]
  · rw [if_neg h₁]
    by_cases h₂ : p < 8 * (out.length + 8)
    · obtain ⟨q, rfl⟩ : ∃ q, p = 8 * out.length + q :=
        ⟨p - 8 * out.length, by omega⟩
      rw [if_pos h₂, bitAt_append_right, bitAt_toLeBytes _ (by omega),
        BitVec.getLsbD_setWidth, Nat.add_sub_cancel_left]
      simp [show q < 64 by omega]
    · rw [if_neg h₂, BitVec.getLsbD_ushiftRight]
      congr 1
      omega

/-- One more value among the bits held back. -/
theorem packs_push {w : Nat} {seen : List U64} {out : List U8} {acc : U128}
    {nbits : Nat} (h : EncodeInv w seen (out, acc, nbits)) (hw : w ≤ 64)
    (v : U64) :
    Packs (out ++ toLeBytes 16
      (acc ||| ((v &&& lowMask w).setWidth 128 <<< nbits))) w (seen ++ [v]) := by
  obtain ⟨hpacks, hcount, hlt, hhigh⟩ := h
  simp only at hpacks hcount hlt hhigh
  intro i u hi j hj
  have hold := bitAt_pending out acc (i * w + j)
  rw [bitAt_pending]
  rcases Nat.lt_or_ge i seen.length with hseen | hseen
  · -- An earlier value: the new one starts behind it.
    rw [List.getElem?_append_left hseen] at hi
    have hmul : (i + 1) * w ≤ seen.length * w := Nat.mul_le_mul_right w hseen
    rw [Nat.add_mul, Nat.one_mul] at hmul
    rw [← hpacks i u hi j hj, hold]
    by_cases hp : i * w + j < 8 * out.length
    · rw [if_pos hp, if_pos hp]
    · rw [if_neg hp, if_neg hp, BitVec.getLsbD_or, BitVec.getLsbD_shiftLeft]
      simp [show i * w + j - 8 * out.length < nbits by omega]
  · have hlen := (List.getElem?_eq_some_iff.1 hi).1
    rw [List.length_append, List.length_singleton] at hlen
    obtain rfl : i = seen.length := by omega
    rw [List.getElem?_append_right (Nat.le_refl _), Nat.sub_self] at hi
    obtain rfl : v = u := Option.some.inj hi
    have hoff : seen.length * w + j - 8 * out.length = nbits + j := by omega
    rw [if_neg (by omega), hoff, BitVec.getLsbD_or, hhigh _ (by omega),
      BitVec.getLsbD_shiftLeft, BitVec.getLsbD_setWidth, BitVec.getLsbD_and,
      lowMask_isMask _ hw _ (by omega), Nat.add_sub_cancel_left]
    simp [show nbits + j < 128 by omega, show j < 128 by omega, hj]

theorem encodeStep_inv {w : Nat} {seen : List U64} {s : List U8 × U128 × Nat}
    (h : EncodeInv w seen s) (hw : w ≤ 64) (v : U64) :
    EncodeInv w (seen ++ [v]) (encodeStep w s v) := by
  obtain ⟨out, acc, nbits⟩ := s
  have hpush := packs_push h hw v
  obtain ⟨-, hcount, hlt, hhigh⟩ := h
  simp only at hcount hlt hhigh
  have htotal : 8 * out.length + (nbits + w) = (seen ++ [v]).length * w := by
    rw [List.length_append, List.length_singleton, Nat.add_mul, Nat.one_mul]
    omega
  have hhigh' : ∀ q, nbits + w ≤ q →
      (acc ||| ((v &&& lowMask w).setWidth 128 <<< nbits)).getLsbD q =
        false := by
    intro q hq
    rw [BitVec.getLsbD_or, hhigh q (by omega), BitVec.getLsbD_shiftLeft,
      BitVec.getLsbD_setWidth, BitVec.getLsbD_and]
    by_cases h64 : q - nbits < 64
    · rw [lowMask_isMask _ hw _ h64]
      simp [show ¬ q - nbits < w by omega]
    · rw [BitVec.getLsbD_of_ge v _ (by omega)]
      simp
  simp only [encodeStep]
  split
  · refine ⟨?_, ?_, ?_, ?_⟩
    · intro i u hi j hj
      rw [bitAt_flush]
      exact hpush i u hi j hj
    · rw [← htotal]
      simp only [List.length_append, toLeBytes_length]
      omega
    · simp only
      omega
    · intro q hq
      simp only at hq ⊢
      rw [BitVec.getLsbD_ushiftRight]
      exact hhigh' _ (by omega)
  · exact ⟨hpush, htotal, by simp only; omega, hhigh'⟩

theorem foldl_encodeStep_inv {w : Nat} (hw : w ≤ 64) (values : List U64) :
    ∀ (seen : List U64) (s : List U8 × U128 × Nat), EncodeInv w seen s →
      EncodeInv w (seen ++ values) (values.foldl (encodeStep w) s) := by
  induction values with
  | nil =>
    intro seen s h
    simpa using h
  | cons v values ih =>
    intro seen s h
    have := ih (seen ++ [v]) _ (encodeStep_inv h hw v)
    rwa [List.append_assoc, List.singleton_append] at this

/-- The encoder lays the values end to end, in as few bytes as hold them. -/
theorem encode_packs (values : List U64) {b : U8} (hb : b.toNat ≤ 64) :
    Packs (encode values b) b.toNat values ∧
      (encode values b).length = (values.length * b.toNat + 7) / 8 := by
  have hinit : EncodeInv b.toNat [] ([], 0#128, 0) := by
    refine ⟨?_, by simp, by simp, by simp⟩
    intro i v hi
    simp at hi
  have hinv := foldl_encodeStep_inv hb values [] _ hinit
  rw [List.nil_append] at hinv
  simp only [encode, Nat.min_eq_left hb]
  generalize values.foldl (encodeStep b.toNat) ([], 0#128, 0) = s at hinv
  obtain ⟨out, acc, nbits⟩ := s
  obtain ⟨hpacks, hcount, hlt, -⟩ := hinv
  simp only at hpacks hcount hlt ⊢
  constructor
  · intro i v hi j hj
    have hlen := (List.getElem?_eq_some_iff.1 hi).1
    have hmul : (i + 1) * b.toNat ≤ values.length * b.toNat :=
      Nat.mul_le_mul_right _ hlen
    rw [Nat.add_mul, Nat.one_mul] at hmul
    rw [← hpacks i v hi j hj, bitAt_pending]
    by_cases hp : i * b.toNat + j < 8 * out.length
    · rw [if_pos hp, bitAt_append_left hp]
    · obtain ⟨q, hq⟩ : ∃ q, i * b.toNat + j = 8 * out.length + q :=
        ⟨i * b.toNat + j - 8 * out.length, by omega⟩
      rw [if_neg hp, hq, bitAt_append_right, bitAt_take (by omega),
        bitAt_toLeBytes _ (by omega), BitVec.getLsbD_setWidth,
        Nat.add_sub_cancel_left]
      simp [show q < 64 by omega]
  · rw [List.length_append, List.length_take, toLeBytes_length]
    omega

end LuceneRust.Codecs.DirectReader
