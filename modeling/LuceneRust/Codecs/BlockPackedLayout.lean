import LuceneRust.Codecs.BlockPacked
import LuceneRust.Store.VarintSpec

/-!
# How `block_packed` writes a block

* `reads_readMinValueVlong` is the round trip of the least value: eight
  groups of seven bits at most, and a ninth byte that gives all its bits.
* `writtenMin_spec` says that the differences from the value that is written
  fit the width, whatever the signs: they are differences of longs as
  integers, and the subtraction wraps to them.
* `encodeBlock_layout` puts a block together: a token, the least value, and a
  tape of the differences.
* `unpackBlock_eq` says that the accumulator of `decode_all` reads the fields
  of the tape.
-/

namespace LuceneRust.Codecs.BlockPacked

open RustSem ByteTape
open Store

/-! ## The least value -/

theorem minValueBytes_cases (k : Nat) (v : U64) :
    (v.toNat < 128 ∧ minValueBytes (k + 1) v = [v.setWidth 8] ∧
        (v.setWidth 8).toNat < 128) ∨
      (128 ≤ v.toNat ∧ minValueBytes (k + 1) v =
        (v.setWidth 8 &&& 0x7F#8 ||| 0x80#8) :: minValueBytes k (v >>> 7)) := by
  rcases Nat.lt_or_ge v.toNat 128 with h | h
  · refine Or.inl ⟨h, ?_, ?_⟩
    · have hone := mt (and_not_low7_ne_zero v).1 (by omega)
      rw [minValueBytes, if_neg hone]
    · rw [BitVec.toNat_setWidth]
      omega
  · refine Or.inr ⟨h, ?_⟩
    rw [minValueBytes, if_pos ((and_not_low7_ne_zero v).2 (by omega)), BitVec.setWidth_and]
    rfl

/-- With `k` groups to come before the last byte, the shift is `7 * (8 - k)`. -/
theorem iterate_readMinValuePass (tail : List U8) (k : Nat) :
    ∀ (v acc : U64) (inp : SliceInput), k ≤ 8 → inp.rest = minValueBytes k v ++ tail →
      v.toNat < 2 ^ (64 - 7 * (8 - k)) →
      iterate readMinValuePass (k + 1) (acc, 7 * (8 - k), inp) =
        .ok (acc ||| v <<< (7 * (8 - k)), inp.advance (minValueBytes k v).length) := by
  induction k with
  | zero =>
    intro v acc inp _ hrest hv
    rw [minValueBytes] at hrest
    refine iterate_leave ?_
    have hbyte : (v.setWidth 8).setWidth 64 = v := by
      apply BitVec.eq_of_toNat_eq
      simp only [BitVec.toNat_setWidth]
      omega
    simp only [readMinValuePass, SliceInput.readByte_cons hrest, ok_bind]
    rw [if_neg (by decide), hbyte]
    rfl
  | succ k ih =>
    intro v acc inp hk hrest hv
    have hshift : 7 * (8 - (k + 1)) < 56 := by omega
    rcases minValueBytes_cases k v with ⟨hlt, he, hb⟩ | ⟨hge, he⟩
    · obtain ⟨-, -, hend⟩ := last_byte hb
      rw [he] at hrest ⊢
      refine iterate_leave ?_
      simp only [readMinValuePass, SliceInput.readByte_cons hrest, ok_bind]
      rw [if_pos hshift, if_pos hend, or_last hlt, BitVec.setWidth_eq]
      rfl
    · obtain ⟨hlow, -, hmore⟩ := low7_cont (v.setWidth 8)
      rw [he, List.cons_append] at hrest
      have hrest' : (inp.advance 1).rest = minValueBytes k (v >>> 7) ++ tail := by
        rw [SliceInput.rest_advance, hrest]
        rfl
      have hnext : 7 * (8 - (k + 1)) + 7 = 7 * (8 - k) := by omega
      have hv' : (v >>> 7).toNat < 2 ^ (64 - 7 * (8 - k)) := by
        have hpow : 2 ^ (64 - 7 * (8 - (k + 1))) = 2 ^ (64 - 7 * (8 - k)) * 128 := by
          rw [show 64 - 7 * (8 - (k + 1)) = 64 - 7 * (8 - k) + 7 by omega, Nat.pow_add]
        rw [shiftRight_seven, Nat.div_lt_iff_lt_mul (by decide)]
        omega
      have hstep : readMinValuePass (acc, 7 * (8 - (k + 1)), inp) =
          .ok (.inl (acc ||| (v.setWidth 8 &&& 0x7F#8).setWidth 64
            <<< (7 * (8 - (k + 1))), 7 * (8 - k), inp.advance 1)) := by
        simp only [readMinValuePass, SliceInput.readByte_cons hrest, ok_bind]
        rw [if_pos hshift, if_neg hmore, hlow, hnext]
      have hgroup := or_group (w := 64) v (7 * (8 - (k + 1)))
      rw [hnext] at hgroup
      simp only [BitVec.setWidth_eq] at hgroup
      rw [iterate_continue hstep, ih (v >>> 7) _ _ (by omega) hrest' hv',
        SliceInput.advance_advance, BitVec.or_assoc, hgroup, he, List.length_cons,
        Nat.add_comm 1]

theorem reads_readMinValueVlong (v : U64) :
    Reads readMinValueVlong (writeMinValueVlong v) v := by
  intro inp tail h
  have hloop := iterate_readMinValuePass tail 8 v 0#64 inp (Nat.le_refl 8) h v.isLt
  rw [readMinValueVlong, writeMinValueVlong]
  simpa using hloop

/-! ## The least and the greatest of a block -/

theorem slt_iff (a b : U64) : a.slt b = true ↔ a.toInt < b.toInt := by
  rw [BitVec.slt_eq_decide, decide_eq_true_eq]

theorem foldl_min_spec (vs : List U64) :
    ∀ m, let r := vs.foldl (fun m u => if u.slt m then u else m) m
      (r = m ∨ r ∈ vs) ∧ r.toInt ≤ m.toInt ∧ ∀ v ∈ vs, r.toInt ≤ v.toInt := by
  induction vs with
  | nil =>
    intro m
    exact ⟨Or.inl rfl, Int.le_refl _, by simp⟩
  | cons u us ih =>
    intro m
    obtain ⟨hmem, hle, hall⟩ := ih (if u.slt m then u else m)
    rw [List.foldl_cons]
    by_cases h : u.slt m = true
    · rw [if_pos h] at hmem hle hall ⊢
      have hlt := (slt_iff u m).1 h
      refine ⟨Or.inr ?_, by omega, ?_⟩
      · rcases hmem with hmem | hmem
        · rw [hmem]
          exact List.mem_cons_self ..
        · exact List.mem_cons_of_mem u hmem
      · rintro v (_ | ⟨_, hv⟩)
        · exact hle
        · exact hall v hv
    · rw [if_neg h] at hmem hle hall ⊢
      have hge := mt (slt_iff u m).2 h
      refine ⟨hmem.imp id (List.mem_cons_of_mem u), hle, ?_⟩
      rintro v (_ | ⟨_, hv⟩)
      · omega
      · exact hall v hv

theorem foldl_max_spec (vs : List U64) :
    ∀ m, let r := vs.foldl (fun m u => if m.slt u then u else m) m
      m.toInt ≤ r.toInt ∧ ∀ v ∈ vs, v.toInt ≤ r.toInt := by
  induction vs with
  | nil =>
    intro m
    exact ⟨Int.le_refl _, by simp⟩
  | cons u us ih =>
    intro m
    obtain ⟨hle, hall⟩ := ih (if m.slt u then u else m)
    rw [List.foldl_cons]
    by_cases h : m.slt u = true
    · rw [if_pos h] at hle hall ⊢
      have hlt := (slt_iff m u).1 h
      refine ⟨by omega, ?_⟩
      rintro v (_ | ⟨_, hv⟩)
      · exact hle
      · exact hall v hv
    · rw [if_neg h] at hle hall ⊢
      have hge := mt (slt_iff m u).2 h
      refine ⟨hle, ?_⟩
      rintro v (_ | ⟨_, hv⟩)
      · omega
      · exact hall v hv

/-- The least and the greatest value of a block. -/
theorem iterMin_iterMax {block : List U64} (hne : block ≠ []) :
    ∃ lo hi, iterMin block = some lo ∧ iterMax block = some hi ∧ lo ∈ block ∧
      ∀ v ∈ block, lo.toInt ≤ v.toInt ∧ v.toInt ≤ hi.toInt := by
  obtain ⟨u, us, rfl⟩ := List.exists_cons_of_ne_nil hne
  obtain ⟨hmem, hlo, hmin⟩ := foldl_min_spec us u
  obtain ⟨hhi, hmax⟩ := foldl_max_spec us u
  refine ⟨_, _, rfl, rfl, ?_, ?_⟩
  · rcases hmem with hmem | hmem
    · rw [hmem]
      exact List.mem_cons_self ..
    · exact List.mem_cons_of_mem u hmem
  · rintro v (_ | ⟨_, hv⟩)
    · exact ⟨hlo, hhi⟩
    · exact ⟨hmin v hv, hmax v hv⟩

/-! ## Differences -/

/-- A difference that is not negative, as the word that the subtraction
leaves: it wraps past `i64::MAX`, and never past a word. -/
theorem toNat_sub_of_le {a b : U64} (h : b.toInt ≤ a.toInt) :
    ((a - b).toNat : Int) = a.toInt - b.toInt := by
  have ha := a.isLt
  have hb := b.isLt
  rw [BitVec.toInt_eq_toNat_cond, BitVec.toInt_eq_toNat_cond] at h ⊢
  rw [BitVec.toNat_sub]
  split at h <;> split at h <;> omega

/-- Longs that are not negative are subtracted as integers. -/
theorem toInt_sub_of_nonneg {a b : U64} (ha : 0 ≤ a.toInt) (hb : 0 ≤ b.toInt) :
    (a - b).toInt = a.toInt - b.toInt := by
  have halt := a.isLt
  have hblt := b.isLt
  rw [BitVec.toInt_eq_toNat_cond] at ha hb
  split at ha
  · split at hb
    · rw [BitVec.toInt_eq_toNat_cond, BitVec.toInt_eq_toNat_cond, BitVec.toInt_eq_toNat_cond,
        BitVec.toNat_sub, if_pos (by omega : 2 * a.toNat < 2 ^ 64),
        if_pos (by omega : 2 * b.toNat < 2 ^ 64)]
      split <;> omega
    · omega
  · omega

theorem unsignedBitsRequired_spec (v : U64) :
    unsignedBitsRequired v ≤ 64 ∧ v.toNat < 2 ^ unsignedBitsRequired v := by
  unfold unsignedBitsRequired
  refine ⟨by omega, ?_⟩
  have h : v.toNat < 2 ^ (64 - v.clz.toNat) := BitVec.toNat_lt_two_pow_sub_clz
  exact h.trans_le (Nat.pow_le_pow_right (by decide) (Nat.le_max_left ..))

theorem toInt_maxValue {bits : Nat} (h : bits < 64) :
    (maxValue bits).toInt = 2 ^ bits - 1 := by
  have hpow : 2 ^ bits ≤ 2 ^ 63 := Nat.pow_le_pow_right (by decide) (by omega)
  have hpos := Nat.two_pow_pos bits
  have hnat : (maxValue bits).toNat = 2 ^ bits - 1 := by
    have hmask := Util.lowMask_isMask bits (by omega)
    rw [Util.lowMask, if_neg (by omega)] at hmask
    exact hmask.toNat_eq (by omega)
  rw [BitVec.toInt_eq_toNat_cond, hnat, if_pos (by omega)]
  push_cast [hpos]
  omega

/-- The value that is written instead of the least one: nothing is below it,
and the differences from it still fit. -/
theorem writtenMin_spec {lo hi : U64} {bits : Nat} (h64 : bits ≤ 64)
    (hle : lo.toInt ≤ hi.toInt) (hfit : (hi - lo).toNat < 2 ^ bits) :
    bits = 64 ∧ writtenMin lo hi bits = 0#64 ∨
      bits < 64 ∧ (writtenMin lo hi bits).toInt ≤ lo.toInt ∧
        hi.toInt - (writtenMin lo hi bits).toInt < 2 ^ bits := by
  have hdiff := toNat_sub_of_le hle
  unfold writtenMin
  by_cases hb : bits = 64
  · exact Or.inl ⟨hb, if_pos hb⟩
  refine Or.inr ⟨by omega, ?_⟩
  rw [if_neg hb]
  have hpow : (2 : Int) ^ bits = ((2 ^ bits : Nat) : Int) := by push_cast; rfl
  have hzero : (0#64).toInt = 0 := rfl
  by_cases hpos : (0#64).slt lo = true
  · rw [if_pos hpos]
    have hlo := (slt_iff _ _).1 hpos
    have hmax : (maxValue bits).toInt = 2 ^ bits - 1 := toInt_maxValue (by omega)
    have hlow := toInt_sub_of_nonneg (a := hi) (b := maxValue bits) (by omega) (by omega)
    dsimp only
    by_cases hsl : (0#64).slt (hi - maxValue bits) = true
    · rw [if_pos hsl]
      omega
    · have hge := mt (slt_iff _ _).2 hsl
      rw [if_neg hsl]
      omega
  · rw [if_neg hpos]
    exact ⟨Int.le_refl _, by omega⟩

/-! ## Blocks -/

/-- A block of the values `block` behind its token: the bytes of the least
value, which is `min`, and the body. -/
structure Layout (block : List U64) (token : U8) (minBytes body : List U8) (min : U64) :
    Prop where
  width : tokenBits token ≤ 64
  reads : Reads (readMinValue token) minBytes min
  size : body.length = PackedInts.byteCount block.length (tokenBits token)
  flat : tokenBits token = 0 → ∀ v ∈ block, v = min
  packs : 0 < tokenBits token →
    Packs body (tokenBits token) (block.map fun v => v - min)
  fits : 0 < tokenBits token → ∀ v ∈ block, (v - min).toNat < 2 ^ tokenBits token

theorem token_spec (bits : Nat) (h : bits ≤ 64) :
    tokenBits (BitVec.ofNat 8 ((bits <<< 1) ||| 1)) = bits ∧
      minValueEquals0 (BitVec.ofNat 8 ((bits <<< 1) ||| 1)) = true ∧
      tokenBits (BitVec.ofNat 8 ((bits <<< 1) ||| 0)) = bits ∧
      minValueEquals0 (BitVec.ofNat 8 ((bits <<< 1) ||| 0)) = false := by
  have key : ∀ bits : Fin 65, tokenBits (BitVec.ofNat 8 ((bits.val <<< 1) ||| 1)) = bits.val ∧
      minValueEquals0 (BitVec.ofNat 8 ((bits.val <<< 1) ||| 1)) = true ∧
      tokenBits (BitVec.ofNat 8 ((bits.val <<< 1) ||| 0)) = bits.val ∧
      minValueEquals0 (BitVec.ofNat 8 ((bits.val <<< 1) ||| 0)) = false := by
    decide +kernel
  exact key ⟨bits, by omega⟩

/-- The least value that `encodeBlock` writes, with the token in front. -/
theorem reads_readMinValue (min : U64) {bits : Nat} (h : bits ≤ 64) :
    let token := BitVec.ofNat 8 ((bits <<< 1) ||| (if min = 0#64 then 1 else 0))
    tokenBits token = bits ∧ Reads (readMinValue token)
      (if min ≠ 0#64 then writeMinValueVlong (zigzagEncode min - 1#64) else []) min := by
  dsimp only
  obtain ⟨hbits, hflag, hbits', hflag'⟩ := token_spec bits h
  by_cases hmin : min = 0#64
  · rw [if_pos hmin, if_neg (not_not_intro hmin), hmin]
    refine ⟨hbits, fun inp tail _ => ?_⟩
    rw [readMinValue, if_pos hflag, List.length_nil, SliceInput.advance_zero]
  · rw [if_neg hmin, if_pos hmin]
    refine ⟨hbits', fun inp tail hrest => ?_⟩
    rw [readMinValue, if_neg (by rw [hflag']; decide),
      reads_readMinValueVlong _ inp tail hrest, ok_bind]
    dsimp only
    rw [show 1#64 + (zigzagEncode min - 1#64) = zigzagEncode min by
      rw [BitVec.add_comm, BitVec.sub_add_cancel], zigzagDecode_zigzagEncode]

/-- The widest value of a block fits the width that the block asks for. -/
theorem bitsRequired_spec (delta : U64) :
    let bits := if delta = 0#64 then 0 else unsignedBitsRequired delta
    bits ≤ 64 ∧ delta.toNat < 2 ^ bits ∧ (bits = 0 → delta = 0#64) := by
  dsimp only
  obtain ⟨hle, hlt⟩ := unsignedBitsRequired_spec delta
  by_cases h : delta = 0#64
  · rw [if_pos h, h]
    exact ⟨by decide, by decide, fun _ => rfl⟩
  · rw [if_neg h]
    refine ⟨hle, hlt, fun h0 => ?_⟩
    have : 1 ≤ unsignedBitsRequired delta := Nat.le_max_right ..
    omega

theorem encodeBlock_layout {block : List U64} (hne : block ≠ [])
    (hlen : block.length ≤ 2 ^ 27) :
    ∃ token minBytes body min, encodeBlock block = .ok (token :: (minBytes ++ body)) ∧
      Layout block token minBytes body min := by
  obtain ⟨lo, hi, hlo, hhi, hmem, hall⟩ := iterMin_iterMax hne
  obtain ⟨h64, hfit, hflat⟩ := bitsRequired_spec (hi - lo)
  simp only [encodeBlock, hlo, hhi, expect_some, ok_bind]
  generalize (if hi - lo = 0#64 then 0 else unsignedBitsRequired (hi - lo)) = bits at *
  have hmin := writtenMin_spec h64 (hall lo hmem).2 hfit
  generalize writtenMin lo hi bits = min at *
  obtain ⟨hbits, hreads⟩ := reads_readMinValue min h64
  -- The differences, as integers, and as the words that are written.
  have hdiff : ∀ v ∈ block, (v - min).toNat < 2 ^ bits := by
    intro v hv
    obtain ⟨hlov, hvhi⟩ := hall v hv
    rcases hmin with ⟨rfl, rfl⟩ | ⟨-, hle, hlt⟩
    · exact (v - 0#64).isLt
    · have h := toNat_sub_of_le (a := v) (b := min) (by omega)
      have hpow : (2 : Int) ^ bits = ((2 ^ bits : Nat) : Int) := by push_cast; rfl
      omega
  have heq : bits = 0 → ∀ v ∈ block, v = min := by
    intro h0 v hv
    have h := hdiff v hv
    rw [h0] at h
    have hz : v - min = 0#64 := BitVec.eq_of_toNat_eq (by simpa using h)
    rw [← BitVec.sub_add_cancel v min, hz, BitVec.zero_add]
  rcases Nat.eq_zero_or_pos bits with h0 | hpos
  · rw [if_neg (by omega)]
    refine ⟨_, _, [], min, by rw [List.append_nil], ?_⟩
    refine ⟨by omega, hreads, ?_, fun _ => heq h0, fun h => ?_, fun h => ?_⟩
    · rw [hbits, h0]
      simp [PackedInts.byteCount]
    · omega
    · omega
  · rw [if_pos hpos]
    obtain ⟨body, hbody, hsize, hpacks⟩ := PackedInts.encode_packs
      (block.map fun v => v - min) (by
        rw [List.length_map]
        calc block.length * bits ≤ 2 ^ 27 * 64 := Nat.mul_le_mul hlen h64
          _ < 2 ^ 64 := by decide)
    rw [hbody, ok_bind]
    refine ⟨_, _, body, min, rfl, ?_⟩
    rw [List.length_map] at hsize
    refine ⟨by omega, hreads, ?_, fun h => ?_, fun _ => ?_, fun _ => ?_⟩
    · rw [hbits, hsize]
    · omega
    · rw [hbits]
      exact hpacks
    · rw [hbits]
      exact hdiff

/-! ## The accumulator of `decode_all` -/

/-- The accumulator between two values: fewer than eight bits are left, and
they end at a byte. -/
structure Loaded (bytes : List U8) (p : Nat) (s : U128 × Nat × Nat) : Prop where
  holds : Holds s.1 s.2.1 bytes (8 * s.2.2)
  pos : 8 * s.2.2 = p + s.2.1

theorem iterate_loadPass {bytes : List U8} {p w : Nat} {s : U128 × Nat × Nat}
    (h : Loaded bytes p s) (hrest : s.2.1 ≤ 7) (hw : w ≤ 64) :
    ∃ s', iterate (loadPass bytes w) (w + 1) s = .ok s' ∧ Loaded bytes p s' ∧
      w ≤ s'.2.1 ∧ s'.2.1 ≤ w + 7 := by
  refine iterate_ok (loadPass bytes w) (fun s => Loaded bytes p s ∧ s.2.1 ≤ w + 7)
    (fun s => w - s.2.1) (fun s => Loaded bytes p s ∧ w ≤ s.2.1 ∧ s.2.1 ≤ w + 7) ?_
    (w + 1) s ⟨h, by omega⟩ (by omega)
  rintro ⟨acc, n, e⟩ ⟨⟨hholds, hpos⟩, hn⟩
  simp only at hholds hpos hn
  by_cases hlt : n < w
  · refine Or.inl ⟨_, by simp only [loadPass]; rw [if_pos hlt], ⟨⟨?_, ?_⟩, ?_⟩, ?_⟩
    · exact hholds.push (by omega)
    · simp only
      omega
    · simp only
      omega
    · simp only
      omega
  · refine Or.inr ⟨(acc, n, e), by simp only [loadPass]; rw [if_neg hlt],
      ⟨hholds, hpos⟩, ?_, hn⟩
    simp only
    omega

theorem mask_spec {w : Nat} (hw : w ≤ 64) (k : Nat) :
    ((1#128 <<< w) - 1#128).getLsbD k = decide (k < w) := by
  have hlt : 2 ^ w < 2 ^ 128 := Nat.pow_lt_pow_right (by decide) (by omega)
  have hpos : 0 < 2 ^ w := Nat.two_pow_pos w
  have hone : (1#128).toNat = 1 := rfl
  have hnat : ((1#128 <<< w) - 1#128).toNat = 2 ^ w - 1 := by
    rw [BitVec.toNat_sub, BitVec.toNat_shiftLeft, Nat.shiftLeft_eq, hone, Nat.one_mul]
    omega
  rw [BitVec.getLsbD, hnat, Nat.testBit_two_pow_sub_one]

/-- `unpack_block` reads the fields of the tape, and adds the least value. -/
theorem unpackBlock_eq (bytes : List U8) {w : Nat} (hw : w ≤ 64) (count : Nat) (min : U64)
    (out : List U64) :
    unpackBlock bytes w count min out =
      .ok (out ++ (fields bytes w count).map fun v => v + min) := by
  obtain ⟨s, hs, -, -, hout⟩ := foldlM_visited (f := unpackValue bytes w min)
    (fun seen (s : (U128 × Nat × Nat) × List U64) =>
      Loaded bytes (seen.length * w) s.1 ∧ s.1.2.1 ≤ 7 ∧
        s.2 = out ++ (fields bytes w seen.length).map fun v => v + min)
    (List.range count)
    (by
      rintro seen i ⟨s, out'⟩ - ⟨hloaded, hrest, hout⟩
      simp only at hloaded hrest hout
      obtain ⟨⟨acc, n, e⟩, hload, ⟨hholds, hpos⟩, hlo, hhi⟩ := iterate_loadPass hloaded hrest hw
      simp only at hholds hpos hlo hhi
      have hraw : ((acc >>> (n - w)) &&& ((1#128 <<< w) - 1#128)).setWidth 64 =
          field bytes (8 * e - n) w :=
        hholds.field hlo (by omega) fun k _ => mask_spec hw k
      simp only [unpackValue]
      rw [hload, ok_bind]
      dsimp only
      rw [sub_of_le hlo, ok_bind]
      refine ⟨_, rfl, ⟨?_, ?_⟩, ?_, ?_⟩
      · intro k hk
        simp only at hk
        exact hholds k (by omega)
      · rw [List.length_append, List.length_singleton, Nat.add_mul]
        simp only
        omega
      · simp only
        omega
      · simp only
        rw [hraw, hout, List.length_append, List.length_singleton, fields, fields,
          List.range_succ, List.map_append, List.map_append, List.append_assoc,
          show 8 * e - n = seen.length * w by omega]
        rfl)
    ((0#128, 0, 0), out)
    ⟨⟨fun k hk => absurd hk (Nat.not_lt_zero k), by simp⟩, by simp, by simp [fields]⟩
  rw [unpackBlock, hs, ok_bind, hout, List.length_range]

end LuceneRust.Codecs.BlockPacked
