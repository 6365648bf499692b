import LuceneRust.Lib.ByteTape
import LuceneRust.Util.Packed.BulkOperation

/-!
# `lucene_util::packed::bulk_operation`, decoding from bytes

`decode_bytes` moves values out of big-endian bytes.  Up to 57 bits a value
is cut out of the 8-byte window at its first byte, and the last values out of
a window that is padded with zeros.  Above that a loop over the bytes puts
the values together.

* `packedFromBytes_eq` and `packedFromBytesWide_eq` say that both read the
  fields of the tape one after the other.
* `decodeBytes_packed` is `decode_bytes` of the format `packed`.
-/

namespace LuceneRust.Util.Packed

open RustSem ByteTape
open BitStream (IsMask)

namespace BulkOperation

/-- `MAX_WINDOW_BPV`. -/
def maxWindowBpv : Nat := 57

/-- The values of `packed_from_bytes` that have a whole window. -/
def fastCount (len n bpv : Nat) : Nat :=
  if 8 ≤ len then min n (((len - 8) * 8 + 7) / bpv + 1) else 0

/-- A value out of its window. -/
def windowValue (bytes : List U8) (bpv i : Nat) : Call U64 := do
  let bit := i * bpv
  let window ← .expect (slice bytes (bit / 8) (bit / 8 + 8))
  .ok ((fromLeBytes 64 window.reverse <<< (bit % 8)) >>> (64 - bpv))

/-- A value out of a window that is padded with zeros. -/
def paddedValue (bytes : List U8) (bpv i : Nat) : Call U64 := do
  let bit := i * bpv
  let room ← sub bytes.length (bit / 8)
  let avail := min room 8
  let window ← .expect (slice bytes (bit / 8) (bit / 8 + avail))
  let buf := window ++ List.replicate (8 - avail) 0#8
  .ok ((fromLeBytes 64 buf.reverse <<< (bit % 8)) >>> (64 - bpv))

/-- `packed_from_bytes` into `n` slots. -/
def packedFromBytes (bytes : List U8) (n bpv : Nat) : Call (List U64) := do
  .guardOk (1 ≤ bpv ∧ bpv ≤ maxWindowBpv)
  .guardOk (n * bpv = bytes.length * 8)
  let fast := fastCount bytes.length n bpv
  let head ← (List.range fast).mapM (windowValue bytes bpv)
  let tail ← (List.range (n - fast)).mapM fun k => paddedValue bytes bpv (fast + k)
  .ok (head ++ tail)

/-- The state of the loop of `packed_from_bytes_wide`. -/
structure WideState where
  nextValue : U64
  bitsLeft : Nat
  vo : Nat
  values : List U64

/-- `values[vo] = v`. -/
def putValue (values : List U64) (vo : Nat) (v : U64) : Call (List U64) :=
  if vo < values.length then .ok (values.set vo v) else .panic

/-- The inner loop: the values that end inside the byte `b`. -/
def widePass (bpv : Nat) (mask b : U64) (s : Nat × Nat × List U64) :
    Call ((Nat × Nat × List U64) ⊕ (Nat × Nat × List U64)) :=
  let (bits, vo, values) := s
  if bpv ≤ bits then do
    let bits := bits - bpv
    let values ← putValue values vo ((b >>> bits) &&& mask)
    .ok (.inl (bits, vo + 1, values))
  else .ok (.inr (bits, vo, values))

/-- One byte of `packed_from_bytes_wide`. -/
def wideOne (bpv : Nat) (mask : U64) (s : WideState) (byte : U8) : Call WideState :=
  let b : U64 := byte.setWidth 64
  if 8 < s.bitsLeft then
    let bitsLeft := s.bitsLeft - 8
    .ok { s with nextValue := s.nextValue ||| b <<< bitsLeft, bitsLeft := bitsLeft }
  else do
    let bits ← sub 8 s.bitsLeft
    let values ← putValue s.values s.vo (s.nextValue ||| b >>> bits)
    let (bits, vo, values) ← iterate (widePass bpv mask b) 9 (bits, s.vo + 1, values)
    let bitsLeft ← sub bpv bits
    .ok ⟨wrappingShl (b &&& ((1#64 <<< bits) - 1#64)) bitsLeft, bitsLeft, vo, values⟩

/-- `packed_from_bytes_wide`: the slots after the call. -/
def packedFromBytesWide (bytes : List U8) (values : List U64) (bpv : Nat) (mask : U64) :
    Call (List U64) := do
  let s ← bytes.foldlM (wideOne bpv mask) ⟨0#64, bpv, 0, values⟩
  .guardOk (s.bitsLeft = bpv)
  .ok s.values

/-- `decode_bytes`: the slots after the call. -/
def decodeBytes (op : BulkOperation) (blocks : List U8) (values : List U64)
    (iterations : Nat) : Call (List U64) :=
  match op.format with
  | .packed => do
    let n := op.byteValueCount * iterations
    let bytes ← .expect (slice blocks 0 (iterations * op.byteBlockCount))
    .guardOk (n ≤ values.length)
    if op.bitsPerValue ≤ maxWindowBpv then do
      let vs ← packedFromBytes bytes n op.bitsPerValue
      .ok (vs ++ values.drop n)
    else do
      let vs ← packedFromBytesWide bytes (values.take n) op.bitsPerValue op.mask
      .ok (vs ++ values.drop n)
  | .packedSingleBlock => do
    let n := iterations * op.longValueCount
    let bytes ← .expect (slice blocks 0 (iterations * 8))
    .guardOk (n ≤ values.length)
    .ok ((chunks 8 bytes).flatMap (fun c =>
      decodeSingle op op.longValueCount (fromLeBytes 64 c.reverse)) ++ values.drop n)

/-! ## Windows -/

theorem windowValue_eq {bytes : List U8} {w i : Nat} (hw : w ≤ maxWindowBpv)
    (h : i * w / 8 + 8 ≤ bytes.length) :
    windowValue bytes w i = .ok (field bytes (i * w) w) := by
  rw [maxWindowBpv] at hw
  simp only [windowValue]
  rw [slice_eq_some (by omega) h, expect_some, ok_bind,
    Nat.add_sub_cancel_left,
    window_eq_field (by rw [List.length_take, List.length_drop]; omega) (by omega)]
  refine congrArg Outcome.ok (field_congr fun t ht => ?_)
  rw [bitAt_take _ (by omega), bitAt_drop,
    show 8 * (i * w / 8) + (i * w % 8 + t) = i * w + t by omega]

theorem paddedValue_eq {bytes : List U8} {w i : Nat} (hw : w ≤ maxWindowBpv)
    (h : (i + 1) * w ≤ 8 * bytes.length) :
    paddedValue bytes w i = .ok (field bytes (i * w) w) := by
  rw [maxWindowBpv] at hw
  rw [Nat.add_mul, Nat.one_mul] at h
  have hlo : i * w / 8 ≤ bytes.length := by omega
  simp only [paddedValue]
  rw [sub_of_le hlo, ok_bind, slice_eq_some (by omega) (by omega),
    expect_some, ok_bind, Nat.add_sub_cancel_left]
  generalize havail : min (bytes.length - i * w / 8) 8 = avail
  have hlen : ((bytes.drop (i * w / 8)).take avail).length = avail := by
    rw [List.length_take, List.length_drop]
    omega
  rw [window_eq_field (by rw [List.length_append, hlen, List.length_replicate]; omega)
    (by omega)]
  refine congrArg Outcome.ok (field_congr fun t ht => ?_)
  rw [bitAt_pad, bitAt_take _ (by omega), bitAt_drop,
    show 8 * (i * w / 8) + (i * w % 8 + t) = i * w + t by omega]

theorem packedFromBytes_eq {bytes : List U8} {w n : Nat} (hpos : 1 ≤ w)
    (hw : w ≤ maxWindowBpv) (hn : n * w = bytes.length * 8) :
    packedFromBytes bytes n w = .ok (fields bytes w n) := by
  have hend : ∀ {i}, i < n → (i + 1) * w ≤ 8 * bytes.length := by
    intro i hi
    have := Nat.mul_le_mul_right w (show i + 1 ≤ n from hi)
    omega
  have hle : fastCount bytes.length n w ≤ n := by
    unfold fastCount
    split <;> omega
  have hfast : ∀ i < fastCount bytes.length n w, i * w / 8 + 8 ≤ bytes.length := by
    intro i hi
    unfold fastCount at hi
    split at hi
    · have hdiv : i ≤ ((bytes.length - 8) * 8 + 7) / w := by omega
      have := (Nat.le_div_iff_mul_le hpos).1 hdiv
      omega
    · omega
  rw [packedFromBytes, guardOk_pos ⟨hpos, hw⟩, ok_bind,
    guardOk_pos hn, ok_bind]
  dsimp only
  generalize fastCount bytes.length n w = fast at hle hfast
  rw [mapM_ok fun i hi => windowValue_eq hw (hfast i (List.mem_range.1 hi)), ok_bind,
    mapM_ok fun k hk => paddedValue_eq hw (hend (by have := List.mem_range.1 hk; omega)),
    ok_bind, fields]
  obtain ⟨m, rfl⟩ : ∃ m, n = fast + m := ⟨n - fast, by omega⟩
  rw [List.range_add, List.map_append, List.map_map, Nat.add_sub_cancel_left]
  rfl

/-! ## The loop over the bytes -/

/-- The loop after `e` bytes: `vo` whole values, and the first bits of the
next one at the top of `nextValue`. -/
structure WideInv (w : Nat) (bytes : List U8) (values : List U64) (e : Nat) (s : WideState) :
    Prop where
  pos : 8 * e + s.bitsLeft = s.vo * w + w
  lo : 1 ≤ s.bitsLeft
  hi : s.bitsLeft ≤ w
  len : s.values.length = values.length
  done : ∀ i < s.vo, s.values[i]? = some (field bytes (i * w) w)
  rest : ∀ i, s.vo ≤ i → s.values[i]? = values[i]?
  next : ∀ k < 64, s.nextValue.getLsbD k =
    (decide (s.bitsLeft ≤ k ∧ k < w) && bitAt bytes (s.vo * w + (w - 1 - k)))

section

variable {w : Nat} (mask : U64) {bytes : List U8} {values : List U64} {s : WideState}

/-- One byte: it goes behind the bits that are there, or it ends the value
and starts the next one. -/
theorem wideOne_inv (h57 : maxWindowBpv < w) (h64 : w ≤ 64) {e : Nat} {byte : U8}
    (hbyte : bytes[e]? = some byte) (hvalues : values.length * w = bytes.length * 8)
    (h : WideInv w bytes values e s) :
    ∃ s', wideOne w mask s byte = .ok s' ∧ WideInv w bytes values (e + 1) s' := by
  obtain ⟨hpos, hlo, hhi, hlen, hdone, hrest, hnext⟩ := h
  obtain ⟨nextValue, bitsLeft, vo, slots⟩ := s
  simp only at hpos hlo hhi hlen hdone hrest hnext
  rw [maxWindowBpv] at h57
  have he : e < bytes.length := (List.getElem?_eq_some_iff.1 hbyte).1
  have hbit : ∀ k < 8, byte.getLsbD k = bitAt bytes (8 * e + (7 - k)) := by
    intro k hk
    rw [bitAt_byte _ _ (by omega), List.getD_eq_getElem?_getD, hbyte, Option.getD_some,
      show 7 - (7 - k) = k by omega]
  simp only [wideOne]
  by_cases h8 : 8 < bitsLeft
  · rw [if_pos h8]
    refine ⟨_, rfl, ⟨by simp only; omega, by simp only; omega, by simp only; omega, hlen,
      hdone, hrest, ?_⟩⟩
    intro k hk
    simp only
    rw [BitVec.getLsbD_or, hnext k hk, BitVec.getLsbD_shiftLeft, BitVec.getLsbD_setWidth]
    by_cases hk1 : k < bitsLeft - 8
    · simp [hk1, show ¬ bitsLeft ≤ k by omega, show ¬ bitsLeft ≤ k + 8 by omega]
    · by_cases hk2 : k < bitsLeft
      · rw [hbit _ (by omega),
          show 8 * e + (7 - (k - (bitsLeft - 8))) = vo * w + (w - 1 - k) by omega]
        simp [hk1, hk, show ¬ bitsLeft ≤ k by omega, show bitsLeft ≤ k + 8 by omega,
          show k < w by omega, show k - (bitsLeft - 8) < 64 by omega]
      · rw [BitVec.getLsbD_of_ge byte _ (by omega)]
        simp [show bitsLeft ≤ k by omega, show bitsLeft ≤ k + 8 by omega]
  · have hvo : vo < slots.length := by
      have hlt : vo * w < values.length * w := by omega
      have := Nat.lt_of_mul_lt_mul_right hlt
      omega
    have hvalue : nextValue ||| byte.setWidth 64 >>> (8 - bitsLeft) =
        field bytes (vo * w) w := by
      apply BitVec.eq_of_getLsbD_eq
      intro k hk
      rw [BitVec.getLsbD_or, hnext k hk, BitVec.getLsbD_ushiftRight,
        BitVec.getLsbD_setWidth, getLsbD_field]
      by_cases hk1 : k < bitsLeft
      · rw [hbit _ (by omega),
          show 8 * e + (7 - (8 - bitsLeft + k)) = vo * w + (w - 1 - k) by omega]
        simp [hk, show ¬ bitsLeft ≤ k by omega, show k < w by omega,
          show 8 - bitsLeft + k < 64 by omega]
      · rw [BitVec.getLsbD_of_ge byte _ (by omega)]
        simp [hk, show bitsLeft ≤ k by omega]
    have hloop : iterate (widePass w mask (byte.setWidth 64)) 9
        (8 - bitsLeft, vo + 1, slots.set vo (field bytes (vo * w) w)) =
        .ok (8 - bitsLeft, vo + 1, slots.set vo (field bytes (vo * w) w)) := by
      refine iterate_leave ?_
      simp only [widePass]
      rw [if_neg (by omega)]
    rw [if_neg h8, sub_of_le (by omega), ok_bind, hvalue, putValue, if_pos hvo,
      ok_bind, hloop, ok_bind]
    dsimp only
    rw [sub_of_le (by omega), ok_bind]
    refine ⟨_, rfl, ⟨?_, ?_, ?_, ?_, ?_, ?_, ?_⟩⟩
    · simp only [Nat.add_mul]
      omega
    · simp only
      omega
    · simp only
      omega
    · rw [List.length_set]
      exact hlen
    · intro i hi
      simp only at hi ⊢
      rw [List.getElem?_set]
      by_cases hiv : vo = i
      · rw [if_pos hiv, if_pos hvo, hiv]
      · rw [if_neg hiv, hdone i (by omega)]
    · intro i hi
      simp only at hi ⊢
      rw [List.getElem?_set, if_neg (by omega), hrest i (by omega)]
    · intro k hk
      simp only
      have hmask := isMask_ones (n := 8 - bitsLeft) (by omega)
      -- The shift is by 64 only when no bit of the byte is left.
      rcases Nat.lt_or_ge (w - (8 - bitsLeft)) 64 with hsh | hsh
      · rw [wrappingShl, Nat.mod_eq_of_lt hsh, BitVec.getLsbD_shiftLeft, BitVec.getLsbD_and,
          BitVec.getLsbD_setWidth]
        by_cases hk1 : k < w - (8 - bitsLeft)
        · simp [hk1, show ¬ w - (8 - bitsLeft) ≤ k by omega]
        · rw [hmask _ (by omega)]
          by_cases hk2 : k < w
          · rw [hbit _ (by omega), Nat.add_mul,
              show 8 * e + (7 - (k - (w - (8 - bitsLeft)))) =
                vo * w + 1 * w + (w - 1 - k) by omega]
            simp [hk, hk1, hk2, show w - (8 - bitsLeft) ≤ k by omega,
              show k - (w - (8 - bitsLeft)) < 64 by omega,
              show k - (w - (8 - bitsLeft)) < 8 - bitsLeft by omega]
          · simp [hk2, show ¬ k - (w - (8 - bitsLeft)) < 8 - bitsLeft by omega]
      · have h0 : 8 - bitsLeft = 0 := by omega
        rw [h0]
        simp [wrappingShl, show ¬ (w ≤ k ∧ k < w) by omega]

theorem packedFromBytesWide_eq (h57 : maxWindowBpv < w) (h64 : w ≤ 64)
    (hvalues : values.length * w = bytes.length * 8) :
    packedFromBytesWide bytes values w mask = .ok (fields bytes w values.length) := by
  have hpos : 0 < w := by
    rw [maxWindowBpv] at h57
    omega
  have hinit : WideInv w bytes values 0 ⟨0#64, w, 0, values⟩ := by
    refine ⟨by simp, hpos, Nat.le_refl w, rfl, ?_, fun i _ => rfl, ?_⟩
    · intro i hi
      exact absurd hi (Nat.not_lt_zero i)
    · intro k _
      simp only [BitVec.getLsbD_zero]
      simp
  obtain ⟨s, hs, hinv⟩ := foldlM_visited
    (fun seen s => WideInv w bytes values seen.length s) bytes
    (by
      rintro seen byte s ⟨rest, hrest⟩ hinv
      have hbyte : bytes[seen.length]? = some byte := by
        rw [hrest, List.getElem?_append_right (Nat.le_refl _), Nat.sub_self]
        rfl
      rw [List.length_append, List.length_singleton]
      exact wideOne_inv mask h57 h64 hbyte hvalues hinv) _ hinit
  obtain ⟨hend, hlo, hhi, hlen, hdone, -, -⟩ := hinv
  -- The bytes are whole values, so the loop ends between two of them.
  have hvo : s.vo = values.length := by
    have hle : values.length * w ≤ s.vo * w + (w - 1) := by omega
    have hge : s.vo * w < (values.length + 1) * w := by
      rw [Nat.add_mul]
      omega
    have h1 : s.vo < values.length + 1 := Nat.lt_of_mul_lt_mul_right hge
    have h2 : values.length * w < (s.vo + 1) * w := by
      rw [Nat.add_mul]
      omega
    have h3 : values.length < s.vo + 1 := Nat.lt_of_mul_lt_mul_right h2
    omega
  rw [hvo] at hend hdone
  rw [packedFromBytesWide, hs, ok_bind, guardOk_pos (by omega),
    ok_bind]
  congr 1
  apply List.ext_getElem?
  intro i
  rcases Nat.lt_or_ge i values.length with hi | hi
  · rw [hdone i hi, fields, List.getElem?_map, List.getElem?_range hi]
    rfl
  · rw [List.getElem?_eq_none (by omega), List.getElem?_eq_none (by simpa [fields] using hi)]

end

/-! ## `decode_bytes` -/

theorem decodeBytes_packed {op : BulkOperation} {blocks : List U8} {values : List U64}
    {w : Nat} (iterations : Nat) (hf : op.format = .packed) (hbits : op.bitsPerValue = w)
    (hw : 1 ≤ w) (hw' : w ≤ 64) (hgeo : op.byteValueCount * w = 8 * op.byteBlockCount)
    (hblocks : iterations * op.byteBlockCount ≤ blocks.length)
    (hvalues : op.byteValueCount * iterations ≤ values.length) :
    op.decodeBytes blocks values iterations =
      .ok (fields blocks w (op.byteValueCount * iterations) ++
        values.drop (op.byteValueCount * iterations)) := by
  have hlen : (blocks.take (iterations * op.byteBlockCount)).length =
      iterations * op.byteBlockCount := List.length_take_of_le hblocks
  have hn : op.byteValueCount * iterations * w =
      (blocks.take (iterations * op.byteBlockCount)).length * 8 := by
    rw [hlen, Nat.mul_right_comm, hgeo, Nat.mul_comm iterations, Nat.mul_assoc,
      Nat.mul_comm 8]
  have hcut : fields (blocks.take (iterations * op.byteBlockCount)) w
      (op.byteValueCount * iterations) = fields blocks w (op.byteValueCount * iterations) := by
    refine List.map_congr_left fun i hi => field_congr fun t ht => ?_
    have hmul := Nat.mul_le_mul_right w (Nat.succ_le_of_lt (List.mem_range.1 hi))
    rw [Nat.succ_mul, hn, hlen] at hmul
    exact bitAt_take _ (by omega)
  simp only [decodeBytes, hf, hbits]
  rw [slice_eq_some (Nat.zero_le _) hblocks, expect_some, ok_bind,
    guardOk_pos hvalues, ok_bind, List.drop_zero, Nat.sub_zero]
  by_cases h57 : w ≤ maxWindowBpv
  · rw [if_pos h57, packedFromBytes_eq hw h57 hn, ok_bind, hcut]
  · have htake : (values.take (op.byteValueCount * iterations)).length =
        op.byteValueCount * iterations := List.length_take_of_le hvalues
    rw [if_neg h57, packedFromBytesWide_eq _ (by omega) hw' (by rw [htake, hn]),
      ok_bind, htake, hcut]

/-- The geometry of `of` in bytes: whole bytes hold whole values, and the
values of a pass divide every power of two from 8 on. -/
theorem halveBoth_spec : ∀ w < 65, 1 ≤ w →
    (halveBoth 64 (8 * halve w w) (64 * halve w w / w)).2 * w =
      8 * (halveBoth 64 (8 * halve w w) (64 * halve w w / w)).1 ∧
    (halveBoth 64 (8 * halve w w) (64 * halve w w / w)).2 ∣ 8 ∧
    0 < (halveBoth 64 (8 * halve w w) (64 * halve w w / w)).2 := by
  decide +kernel

theorem of_packed_bytes {w : Nat} (hw : 1 ≤ w) (hw' : w ≤ 64) :
    ∃ op, of .packed w = .ok op ∧ op.format = .packed ∧ op.bitsPerValue = w ∧
      op.byteValueCount * w = 8 * op.byteBlockCount ∧ op.byteValueCount ∣ 8 ∧
      0 < op.byteValueCount := by
  obtain ⟨hmul, hdvd, hpos⟩ := halveBoth_spec w (by omega) hw
  rw [of, guardOk_pos (by simp [Format.isSupported, hw, hw']), ok_bind]
  exact ⟨_, rfl, rfl, rfl, hmul, hdvd, hpos⟩

end BulkOperation

end LuceneRust.Util.Packed
