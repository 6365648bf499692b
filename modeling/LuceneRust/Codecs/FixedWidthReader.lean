import LuceneRust.Codecs.DirectReader

/-!
# `lucene_codecs::direct_reader`: the readers of a checked width

`DirectReader` checks its width once and dispatches every read to a body
where the width is a constant.  `FixedWidthReader` is what a loop gets from
`with_width`: an unchecked load below a limit, and the checked `get` above.

* `readAtWidth_eq_get` says that what the constant-width body answers is what
  `get` answers, so falling back to `get` keeps every error.
* `get_encode` reads back a value that `encode` packed.
* `readers_agree` puts the family together with `PackedLongs`.
-/

namespace LuceneRust.Codecs

open RustSem BitStream
open Store (Result Error)
open Util (lowMask lowMask_isMask PackedLongs FixedPackedLongs)

namespace DirectReader

/-- `u64::checked_mul`. -/
def checkedMul (a b : Nat) : Option Nat := if a * b < 2 ^ 64 then some (a * b) else none

/-- `[T]::first_chunk`: the first `n` bytes. -/
def firstChunk (n : Nat) (tail : List U8) : Option (List U8) :=
  if n ≤ tail.length then some (tail.take n) else none

/-- The `match B` of `read_at_width`: the value at the front of `tail`, not
masked yet. -/
def valueAtWidth (B : Nat) (tail : List U8) (bitPos : Nat) : Option U64 :=
  match B with
  | 8 => tail.head?.map fun b => b.setWidth 64
  | 16 => (firstChunk 2 tail).map fun c => (fromLeBytes 16 c).setWidth 64
  | 32 => (firstChunk 4 tail).map fun c => (fromLeBytes 32 c).setWidth 64
  | 64 => (firstChunk 8 tail).map fun c => fromLeBytes 64 c
  | 1 | 2 | 4 => tail.head?.map fun b : U8 => (b >>> (bitPos % 8)).setWidth 64
  | _ => (firstChunk 8 tail).map fun c => fromLeBytes 64 c >>> (bitPos % 8)

/-- `read_at_width<B>`. -/
def readAtWidth (B : Nat) (slice : List U8) (index : U64) : Option U64 := do
  let index ← tryUsize index
  let bitPos ← checkedMul index B
  let tail ← sliceFrom slice (bitPos / 8)
  let value ← valueAtWidth B tail bitPos
  some (value &&& FixedPackedLongs.maskOf B)

end DirectReader

/-- `DirectReader`: the width was checked when the reader was built. -/
structure DirectReader where
  slice : List U8
  bitsPerValue : U8
  supported : DirectReader.isSupportedBits bitsPerValue = true

/-- `FixedWidthReader<B>`. -/
structure FixedWidthReader (B : Nat) where
  slice : List U8
  fast : FixedPackedLongs B

namespace FixedWidthReader

/-- `FixedWidthReader::new`. -/
def new (B : Nat) (slice : List U8) : FixedWidthReader B :=
  { slice := slice, fast := FixedPackedLongs.new B slice }

/-- `FixedWidthReader::get`.  A negative index is a large one here. -/
def get {B : Nat} (r : FixedWidthReader B) (index : U64) : Result U64 :=
  match r.fast.get index.toNat with
  | some v => .ok v
  | none => DirectReader.get r.slice (BitVec.ofNat 8 B) index

end FixedWidthReader

namespace DirectReader

/-- `DirectReader::new`. -/
def new (slice : List U8) (bitsPerValue : U8) : Result DirectReader :=
  if h : isSupportedBits bitsPerValue = true then
    .ok { slice := slice, bitsPerValue := bitsPerValue, supported := h }
  else
    .err (.corrupted ("unsupported DirectReader bitsPerValue: " ++
      toString bitsPerValue.toNat))

/-- `DirectReader::get`. -/
def readerGet (r : DirectReader) (index : U64) : Result U64 :=
  let B := r.bitsPerValue.toNat
  let fast := if B ∈ supportedBits then readAtWidth B r.slice index else none
  match fast with
  | some v => .ok v
  | none => get r.slice r.bitsPerValue index

/-- `DirectReader::with_width`: the visitor at the width of the reader. -/
def withWidth {α : Type} (r : DirectReader)
    (visit : (B : Nat) → FixedWidthReader B → α) : α :=
  let B := r.bitsPerValue.toNat
  if B ∈ [1, 2, 4, 8, 12, 16, 20, 24, 28, 32, 40, 48, 56] then
    visit B (FixedWidthReader.new B r.slice)
  else visit 64 (FixedWidthReader.new 64 r.slice)

/-! ## The constant-width body -/

theorem firstChunk_eq_some {n : Nat} {tail c : List U8}
    (h : firstChunk n tail = some c) : n ≤ tail.length ∧ c = tail.take n := by
  unfold firstChunk at h
  split at h
  · rename_i hn
    exact ⟨hn, (Option.some.inj h).symm⟩
  · cases h

/-- A word of fewer bytes, widened. -/
theorem setWidth_fromLeBytes {w : Nat} {c : List U8} (hc : 8 * c.length ≤ w) :
    (fromLeBytes w c).setWidth 64 = fromLeBytes 64 c := by
  apply BitVec.eq_of_getLsbD_eq
  intro j hj
  rw [BitVec.getLsbD_setWidth, getLsbD_fromLeBytes, getLsbD_fromLeBytes]
  by_cases hjw : j < w
  · simp [hj, hjw]
  · rw [List.getD_eq_default _ _ (by omega)]
    simp

theorem fromLeBytes_singleton (b : U8) : fromLeBytes 64 [b] = b.setWidth 64 := by
  simp [fromLeBytes]

theorem setWidth_ushiftRight (b : U8) (s : Nat) :
    (b >>> s).setWidth 64 = b.setWidth 64 >>> s := by
  apply BitVec.eq_of_getLsbD_eq
  intro j hj
  rw [BitVec.getLsbD_setWidth, BitVec.getLsbD_ushiftRight, BitVec.getLsbD_ushiftRight,
    BitVec.getLsbD_setWidth]
  by_cases hs : s + j < 64
  · simp [hj, hs]
  · rw [BitVec.getLsbD_of_ge b _ (by omega)]
    simp

/-- Every arm is a load of some `n` bytes that hold the value, shifted. -/
theorem valueAtWidth_eq {B i : Nat} {tail : List U8} {v : U64} (hB : B ∈ supportedBits)
    (h : valueAtWidth B tail (i * B) = some v) :
    ∃ n ≤ tail.length, i * B % 8 + B ≤ 8 * n ∧
      v = fromLeBytes 64 (tail.take n) >>> (i * B % 8) := by
  have hbyte : ∀ {b : U8}, tail.head? = some b → i * B % 8 + B ≤ 8 →
      v = b.setWidth 64 >>> (i * B % 8) →
      ∃ n ≤ tail.length, i * B % 8 + B ≤ 8 * n ∧
        v = fromLeBytes 64 (tail.take n) >>> (i * B % 8) := by
    intro b hb hfit hv
    obtain ⟨bs, rfl⟩ := List.head?_eq_some_iff.1 hb
    exact ⟨1, by simp, by omega, by rw [hv, List.take_succ_cons, List.take_zero,
      fromLeBytes_singleton]⟩
  have hwide : ∀ (w : Nat) {n : Nat} {c : List U8}, firstChunk n tail = some c →
      8 * n ≤ w → i * B % 8 + B ≤ 8 * n →
      v = (fromLeBytes w c).setWidth 64 >>> (i * B % 8) →
      ∃ n ≤ tail.length, i * B % 8 + B ≤ 8 * n ∧
        v = fromLeBytes 64 (tail.take n) >>> (i * B % 8) := by
    intro w n c hc hnw hfit hv
    obtain ⟨hlen, rfl⟩ := firstChunk_eq_some hc
    refine ⟨n, hlen, hfit, ?_⟩
    rw [hv, setWidth_fromLeBytes (by rw [List.length_take]; omega)]
  have hzero : ∀ x : U64, i * B % 8 = 0 → x = x >>> (i * B % 8) := by
    intro x h0
    rw [h0, BitVec.ushiftRight_zero]
  simp only [supportedBits, List.mem_cons, List.not_mem_nil, or_false] at hB
  rcases hB with rfl | rfl | rfl | rfl | rfl | rfl | rfl | rfl | rfl | rfl | rfl | rfl | rfl | rfl
  all_goals simp only [valueAtWidth, Option.map_eq_some_iff] at h
  all_goals obtain ⟨c, hc, hv⟩ := h
  -- 1, 2 and 4 bits stay inside their byte.
  iterate 3
    · exact hbyte hc (by omega) (by rw [← hv, setWidth_ushiftRight])
  -- 8, 16, 32 and 64 bits are loads of their own bytes; the rest, of eight.
  · exact hbyte hc (by omega) (by rw [← hv]; exact hzero _ (by omega))
  · exact hwide 64 hc (by omega) (by omega) (by rw [← hv, BitVec.setWidth_eq])
  · exact hwide 16 hc (by omega) (by omega) (by rw [← hv]; exact hzero _ (by omega))
  iterate 3
    · exact hwide 64 hc (by omega) (by omega) (by rw [← hv, BitVec.setWidth_eq])
  · exact hwide 32 hc (by omega) (by omega) (by rw [← hv]; exact hzero _ (by omega))
  iterate 3
    · exact hwide 64 hc (by omega) (by omega) (by rw [← hv, BitVec.setWidth_eq])
  · exact hwide 64 hc (by omega) (by omega)
      (by rw [← hv, BitVec.setWidth_eq]; exact hzero _ (by omega))

/-- What the constant-width body answers is what `get` answers. -/
theorem readAtWidth_eq_get {b : U8} (hb : isSupportedBits b = true) {slice : List U8}
    {index v : U64} (h : readAtWidth b.toNat slice index = some v) :
    get slice b index = .ok v := by
  obtain ⟨hpos, h64, -⟩ := supported_width hb
  have hfit := shift_fits hb index
  simp only [readAtWidth, tryUsize, checkedMul, sliceFrom, Option.bind_eq_bind,
    Option.bind_eq_some_iff, Option.ite_none_right_eq_some, Option.some.injEq] at h
  obtain ⟨_, ⟨-, rfl⟩, _, ⟨hmul, rfl⟩, _, ⟨hbyte, rfl⟩, x, hx, rfl⟩ := h
  have hbit : bitPos b index = index.toNat * b.toNat := by
    rw [bitPos, BitVec.toNat_mul, BitVec.toNat_setWidth_of_le (by decide),
      Nat.mod_eq_of_lt hmul]
  obtain ⟨n, hn, hload, rfl⟩ := valueAtWidth_eq ((isSupportedBits_iff b).1 hb) hx
  rw [List.length_drop] at hn
  rw [hbit] at hfit
  rw [get_eq hb, bytesNeeded, hbit, if_pos (by omega),
    window_eq_field (FixedPackedLongs.maskOf_isMask hpos h64) hfit hload,
    Nat.div_add_mod]

theorem readerGet_eq (r : DirectReader) (index : U64) :
    r.readerGet index = get r.slice r.bitsPerValue index := by
  simp only [readerGet]
  rw [if_pos ((isSupportedBits_iff _).1 r.supported)]
  rcases h : readAtWidth r.bitsPerValue.toNat r.slice index with _ | v
  · rfl
  · exact (readAtWidth_eq_get r.supported h).symm

/-- A value that was packed is read back. -/
theorem get_encode {b : U8} (hb : isSupportedBits b = true) {values : List U64}
    (hfits : ∀ v ∈ values, v.toNat < 2 ^ b.toNat)
    (halloc : (encode values b).length ≤ maxAlloc) {i : Nat} (hi : i < values.length) :
    get (encode values b) b (BitVec.ofNat 64 i) = .ok values[i] := by
  obtain ⟨hpos, h64, -⟩ := supported_width hb
  obtain ⟨hpacks, hlen⟩ := encode_packs values h64
  rw [hlen, maxAlloc] at halloc
  have hmul : (i + 1) * b.toNat ≤ values.length * b.toNat := Nat.mul_le_mul_right _ hi
  have hone : i ≤ i * b.toNat := Nat.le_mul_of_pos_right i hpos
  rw [Nat.add_mul, Nat.one_mul] at hmul
  have hbit : bitPos b (BitVec.ofNat 64 i) = i * b.toNat := by
    rw [bitPos, BitVec.toNat_mul, BitVec.toNat_setWidth_of_le (by decide),
      BitVec.toNat_ofNat, Nat.mod_eq_of_lt (show i < 2 ^ 64 by omega),
      Nat.mod_eq_of_lt (by omega)]
  rw [get_eq hb, bytesNeeded, hbit, hlen, if_pos (by omega),
    hpacks.field (List.getElem?_eq_getElem hi) (hfits _ (List.getElem_mem hi))]

end DirectReader

/-- The unchecked load answers what `get` answers, and `get` is asked for the
rest. -/
theorem FixedWidthReader.get_eq {b : U8} (hb : DirectReader.isSupportedBits b = true)
    (slice : List U8) (index : U64) :
    (new b.toNat slice).get index = DirectReader.get slice b index := by
  obtain ⟨hpos, h64, hw⟩ := DirectReader.supported_width hb
  have hfit := DirectReader.shift_fits hb index
  rw [FixedWidthReader.get]
  rcases h : (new b.toNat slice).fast.get index.toNat with _ | v
  · dsimp only
    rw [BitVec.ofNat_toNat, BitVec.setWidth_eq]
    rfl
  · dsimp only
    rw [new, FixedPackedLongs.get_eq, Option.bind_eq_some_iff] at h
    obtain ⟨p, hp, hv⟩ := h
    obtain ⟨hbytes, hbits, hlimit⟩ := PackedLongs.new_eq_some hp
    rw [PackedLongs.get_eq, hbytes, hbits] at hv
    split at hv
    · rename_i hlt
      obtain rfl := Option.some.inj hv
      have hwindow := p.fast _ hlt
      rw [hbytes, hbits] at hwindow
      -- Below the limit the product does not wrap.
      have hbit : DirectReader.bitPos b index = index.toNat * b.toNat := by
        rw [hlimit] at hlt
        rw [DirectReader.bitPos, BitVec.toNat_mul, BitVec.toNat_setWidth_of_le (by decide),
          Nat.mod_eq_of_lt (Util.fastLimitOf_spec hpos hlt).1]
      rw [hbit] at hfit
      rw [DirectReader.get_eq hb, DirectReader.bytesNeeded, hbit, if_pos (by omega)]
    · cases hv

namespace DirectReader

/-- `with_width` hands the visitor the reader of the width that was checked. -/
theorem withWidth_eq {α : Type} (r : DirectReader)
    (visit : (B : Nat) → FixedWidthReader B → α) :
    r.withWidth visit =
      visit r.bitsPerValue.toNat (FixedWidthReader.new r.bitsPerValue.toNat r.slice) := by
  have hB := (isSupportedBits_iff _).1 r.supported
  simp only [withWidth]
  split
  · rfl
  · rename_i hne
    simp only [supportedBits, List.mem_cons, List.not_mem_nil, or_false] at hB hne
    rw [show r.bitsPerValue.toNat = 64 by omega]

/-- The readers of one packed array agree on every index, errors included,
and they read back what was packed.  `PackedLongs` answers the values that
have a whole window in the slice. -/
theorem readers_agree (b : U8) (hb : isSupportedBits b = true) (slice : List U8) :
    (∃ r, new slice b = .ok r ∧ ∀ index : U64,
      r.readerGet index = get slice b index ∧
      r.withWidth (fun _ reader => reader.get index) = get slice b index ∧
      (FixedWidthReader.new b.toNat slice).get index = get slice b index) ∧
    (∀ values : List U64, (∀ v ∈ values, v.toNat < 2 ^ b.toNat) →
      (encode values b).length ≤ maxAlloc → ∀ (i : Nat) (hi : i < values.length),
        get (encode values b) b (BitVec.ofNat 64 i) = .ok values[i]) ∧
    ∃ p, PackedLongs.new slice b.toNat = some p ∧
      (slice.length ≤ maxAlloc → ∀ i,
        (p.get i).isSome ↔ i * b.toNat / 8 + 8 ≤ slice.length) ∧
      (∀ i v, p.get i = some v → ∀ j < 64,
        v.getLsbD j = (decide (j < b.toNat) && bitAt slice (i * b.toNat + j))) ∧
      (∀ start out, ∃ n ≤ out.length, (p.decodeRange start out).2 = n ∧
        (p.decodeRange start out).1.length = out.length ∧
        (∀ k < n, (p.decodeRange start out).1[k]? = p.get (start + k)) ∧
        (∀ k < n, (p.get (start + k)).isSome) ∧
        (∀ k, n ≤ k → (p.decodeRange start out).1[k]? = out[k]?) ∧
        (n < out.length → p.get (start + n) = none)) ∧
      ∀ i, (FixedPackedLongs.new b.toNat slice).get i = p.get i := by
  refine ⟨⟨⟨slice, b, hb⟩, dif_pos hb, fun index => ⟨?_, ?_, ?_⟩⟩,
    fun values hfits halloc i hi => get_encode hb hfits halloc hi, ?_⟩
  · exact readerGet_eq _ index
  · rw [withWidth_eq]
    exact FixedWidthReader.get_eq hb slice index
  · exact FixedWidthReader.get_eq hb slice index
  · obtain ⟨hpos, h64, hw⟩ := supported_width hb
    obtain ⟨p, hp⟩ : ∃ p, PackedLongs.new slice b.toNat = some p := by
      rw [PackedLongs.new, dif_neg (by omega)]
      exact ⟨_, rfl⟩
    obtain ⟨hbytes, hbits, -⟩ := PackedLongs.new_eq_some hp
    refine ⟨p, hp, PackedLongs.get_isSome_iff hp, ?_, p.decodeRange_get, ?_⟩
    · intro i v hv j hj
      rw [PackedLongs.get_eq, hbytes, hbits] at hv
      split at hv
      · obtain rfl := Option.some.inj hv
        rw [getLsbD_field, decide_eq_true hj, Bool.true_and]
      · cases hv
    · intro i
      rw [FixedPackedLongs.get_eq, hp, Option.bind_some]

/-- Two values of 12 bits: the second starts in the middle of a byte. -/
theorem readers_agree_two :
    get (encode [5#64, 4095#64] 12#8) 12#8 1#64 = .ok 4095#64 :=
  (readers_agree 12#8 (by decide) []).2.1 [5#64, 4095#64] (by simp)
    (by decide +kernel) 1 (by decide)

end DirectReader

end LuceneRust.Codecs
