import LuceneRust.RustSem.Bytes
import Mathlib.Tactic.IntervalCases

/-!
# Writing a varint

Two encoders of one format: `encode_varint` of `lucene_store::data_output`
goes byte by byte, and `push_varint` spreads the 7-bit groups of the value
into byte lanes, sets the continuation bits and stores all lanes at once.

* `encodeVarint_eq` is the closed form of the byte loop: byte `j` is group
  `j` of the value, with the continuation bit on every byte but the last.
* `lanes_getLsbD` says which bit of the value a bit of the lanes is, and
  `pushVarint_eq` is the agreement of the two encoders.

The intrinsic `_pdep_u64`, which `spread7` uses on targets that have it, is
modelled by what it is documented to do.
-/

namespace LuceneRust.Store

open RustSem

theorem shiftRight_seven (v : U64) : (v >>> 7).toNat = v.toNat / 128 := by
  rw [BitVec.toNat_ushiftRight, Nat.shiftRight_eq_div_pow]

/-- A constant of seven low bits. -/
theorem getLsbD_low7 {w : Nat} (hw : 7 ≤ w) (i : Nat) :
    (0x7F#w).getLsbD i = decide (i < 7) := by
  rw [BitVec.getLsbD_ofNat, show 0x7F = 2 ^ 7 - 1 from rfl,
    Nat.testBit_two_pow_sub_one]
  by_cases hi : i < 7
  · simp [hi, Nat.lt_of_lt_of_le hi hw]
  · simp [hi]

/-- The test of the byte loop: more than one group is left. -/
theorem and_not_low7_ne_zero (v : U64) :
    v &&& ~~~0x7F#64 ≠ 0 ↔ 0x7F < v.toNat := by
  have hz : v &&& ~~~0x7F#64 = 0 ↔ v >>> 7 = 0 := by
    constructor
    · intro h
      apply BitVec.eq_of_getLsbD_eq
      intro i hi
      have hbit := congrArg (fun x => x.getLsbD (7 + i)) h
      simp only [BitVec.getLsbD_and, BitVec.getLsbD_not,
        getLsbD_low7 (by decide : 7 ≤ 64)] at hbit
      rw [BitVec.getLsbD_ushiftRight]
      by_cases h64 : 7 + i < 64
      · have h7 : ¬ 7 + i < 7 := by omega
        simpa [h64, h7] using hbit
      · simp [BitVec.getLsbD_of_ge v (7 + i) (by omega)]
    · intro h
      apply BitVec.eq_of_getLsbD_eq
      intro i hi
      simp only [BitVec.getLsbD_and, BitVec.getLsbD_not,
        getLsbD_low7 (by decide : 7 ≤ 64)]
      by_cases h7 : i < 7
      · simp [h7]
      · have hbit := congrArg (fun x => x.getLsbD (i - 7)) h
        simp only [BitVec.getLsbD_ushiftRight] at hbit
        rw [show 7 + (i - 7) = i by omega] at hbit
        have hv : v.getLsbD i = false := by simpa using hbit
        simp [hv]
  have hs : v >>> 7 = 0 ↔ v.toNat / 128 = 0 := by
    rw [← shiftRight_seven, ← BitVec.toNat_inj]
    rfl
  rw [Ne, hz, hs]
  omega

/-- `encode_varint`. -/
def encodeVarint (v : U64) : List U8 :=
  if v &&& ~~~0x7F#64 ≠ 0 then
    ((v &&& 0x7F#64).setWidth 8 ||| 0x80#8) :: encodeVarint (v >>> 7)
  else [v.setWidth 8]
termination_by v.toNat
decreasing_by
  have := (and_not_low7_ne_zero v).1 (by assumption)
  rw [shiftRight_seven]
  omega

/-- `spread7_portable`: one shift and mask per lane. -/
def spread7Portable (v : U64) : U64 :=
  (v &&& 0x7F#64) ||| ((v <<< 1) &&& 0x7F00#64) |||
    ((v <<< 2) &&& 0x7F0000#64) ||| ((v <<< 3) &&& 0x7F000000#64) |||
    ((v <<< 4) &&& 0x7F00000000#64) ||| ((v <<< 5) &&& 0x7F0000000000#64) |||
    ((v <<< 6) &&& 0x7F000000000000#64) |||
    ((v <<< 7) &&& 0x7F00000000000000#64)

/-- `_pdep_u64`: the low bits of `v`, in order, at the set bits of `mask`. -/
def pdep (v mask : U64) : U64 :=
  ofBits (fun p =>
    mask.getLsbD p && v.getLsbD ((List.range p).countP mask.getLsbD)) 64

/-- `spread7`, on a target with and without BMI2. -/
def spread7 (bmi2 : Bool) (v : U64) : U64 :=
  if bmi2 then pdep v 0x7F7F7F7F7F7F7F7F#64 else spread7Portable v

/-- The constant `CONT`: the continuation bit of ten lanes. -/
def cont : U128 := 0x80808080808080808080#128

/-- The ten groups of `v`, one to a byte lane. -/
def lanes (bmi2 : Bool) (v : U64) : U128 :=
  (spread7 bmi2 v).setWidth 128 |||
    (((v >>> 56) &&& 0x7F#64).setWidth 128 <<< 64) |||
    ((v >>> 63).setWidth 128 <<< 72)

/-- The number of bytes of the varint of `v`. -/
def varintLen (v : U64) : Nat :=
  let bits := 64 - (v ||| 1#64).clz.toNat
  (bits + 6) / 7

/-- `push_varint`: of the sixteen lanes that are stored only the encoded
length is claimed. -/
def pushVarint (bmi2 : Bool) (out : List U8) (v : U64) : List U8 :=
  let n := varintLen v
  let encoded := lanes bmi2 v |||
    (cont &&& ((1#128 <<< (8 * (n - 1))) - 1#128))
  out ++ (toLeBytes 16 encoded).take n

/-! ## The byte loop -/

/-- Byte `j` of a varint of `n` bytes. -/
def groupByte (v : U64) (n j : Nat) : U8 :=
  ((v >>> (7 * j)).setWidth 8 &&& 0x7F#8) |||
    (if j + 1 < n then 0x80#8 else 0#8)

/-- A varint of `k + 1` bytes. -/
theorem encodeVarint_eq (k : Nat) (v : U64) (hlt : v.toNat < 2 ^ (7 * (k + 1)))
    (hge : k = 0 ∨ 2 ^ (7 * k) ≤ v.toNat) :
    encodeVarint v = (List.range (k + 1)).map (groupByte v (k + 1)) := by
  induction k generalizing v with
  | zero =>
    have hsmall : v.toNat < 128 := hlt
    have hone : ¬ v &&& ~~~0x7F#64 ≠ 0 := by
      rw [and_not_low7_ne_zero]
      omega
    have hb : v.setWidth 8 &&& 0x7F#8 = v.setWidth 8 := by
      apply BitVec.eq_of_toNat_eq
      rw [BitVec.toNat_and, BitVec.toNat_setWidth,
        show (0x7F#8).toNat = 2 ^ 7 - 1 from rfl,
        Nat.and_two_pow_sub_one_eq_mod]
      omega
    rw [encodeVarint, if_neg hone]
    simp [groupByte, hb]
  | succ k ih =>
    have hbig : 2 ^ (7 * (k + 1)) ≤ v.toNat := by
      rcases hge with h | h
      · omega
      · exact h
    have hpow : 2 ^ (7 * (k + 1)) = 128 * 2 ^ (7 * k) := by
      rw [Nat.mul_add, Nat.pow_add, Nat.mul_comm]
    have hpow' : 2 ^ (7 * (k + 1 + 1)) = 128 * 2 ^ (7 * (k + 1)) := by
      rw [Nat.mul_add, Nat.pow_add, Nat.mul_comm]
    have hpos : 0 < 2 ^ (7 * k) := Nat.two_pow_pos _
    have hrec := ih (v >>> 7)
      (by rw [shiftRight_seven]; omega)
      (by
        right
        rw [shiftRight_seven, Nat.le_div_iff_mul_le (by decide)]
        omega)
    rw [encodeVarint, if_pos ((and_not_low7_ne_zero v).2 (by omega)), hrec,
      List.range_succ_eq_map (n := k + 1), List.map_cons, List.map_map]
    congr 1
    · simp only [groupByte, Nat.mul_zero, BitVec.ushiftRight_zero]
      rw [if_pos (by omega), BitVec.setWidth_and]
      rfl
    · refine List.map_congr_left fun j _ => ?_
      have hiff : j + 1 < k + 1 ↔ j.succ + 1 < k + 1 + 1 := by omega
      simp only [groupByte, Function.comp_apply, hiff]
      rw [← BitVec.shiftRight_add, show 7 + 7 * j = 7 * j.succ by omega]

/-! ## The lanes -/

/-- One lane of `spread7_portable`: group `k`, moved to byte `k`. -/
theorem lane_getLsbD (v : U64) {k j i : Nat} (hk : k < 8) (hi : i < 8)
    (hj : j < 8) :
    ((v <<< k) &&& (0x7F#64 <<< (8 * k))).getLsbD (8 * j + i) =
      (decide (k = j) && decide (i < 7) && v.getLsbD (7 * j + i)) := by
  rw [BitVec.getLsbD_and, BitVec.getLsbD_shiftLeft, BitVec.getLsbD_shiftLeft,
    getLsbD_low7 (by decide)]
  by_cases hkj : k = j
  · subst hkj
    have h₁ : 8 * k + i < 64 := by omega
    have h₂ : ¬ 8 * k + i < k := by omega
    have h₃ : 8 * k + i - k = 7 * k + i := by omega
    have h₄ : ¬ 8 * k + i < 8 * k := by omega
    simp [h₁, h₂, h₃, h₄, Bool.and_comm]
  · -- The bit lies in another byte.
    have hout : (8 * j + i < 8 * k) ∨ ¬ 8 * j + i - 8 * k < 7 := by omega
    rcases hout with h | h
    · simp [hkj, h]
    · simp [hkj, h]

theorem spread7Portable_getLsbD (v : U64) {j i : Nat} (hj : j < 8)
    (hi : i < 8) :
    (spread7Portable v).getLsbD (8 * j + i) =
      (decide (i < 7) && v.getLsbD (7 * j + i)) := by
  have h : spread7Portable v =
      ((v <<< 0) &&& (0x7F#64 <<< (8 * 0))) |||
      ((v <<< 1) &&& (0x7F#64 <<< (8 * 1))) |||
      ((v <<< 2) &&& (0x7F#64 <<< (8 * 2))) |||
      ((v <<< 3) &&& (0x7F#64 <<< (8 * 3))) |||
      ((v <<< 4) &&& (0x7F#64 <<< (8 * 4))) |||
      ((v <<< 5) &&& (0x7F#64 <<< (8 * 5))) |||
      ((v <<< 6) &&& (0x7F#64 <<< (8 * 6))) |||
      ((v <<< 7) &&& (0x7F#64 <<< (8 * 7))) := by
    simp [spread7Portable]
  rw [h]
  simp only [BitVec.getLsbD_or]
  rw [lane_getLsbD v (by decide) hi hj, lane_getLsbD v (by decide) hi hj,
    lane_getLsbD v (by decide) hi hj, lane_getLsbD v (by decide) hi hj,
    lane_getLsbD v (by decide) hi hj, lane_getLsbD v (by decide) hi hj,
    lane_getLsbD v (by decide) hi hj, lane_getLsbD v (by decide) hi hj]
  interval_cases j <;> simp

/-- The deposit of `_pdep_u64` at the seven low bits of every byte. -/
theorem pdep_getLsbD (v : U64) {j i : Nat} (hj : j < 8) (hi : i < 8) :
    (pdep v 0x7F7F7F7F7F7F7F7F#64).getLsbD (8 * j + i) =
      (decide (i < 7) && v.getLsbD (7 * j + i)) := by
  have key : ∀ (j i : Fin 8),
      (0x7F7F7F7F7F7F7F7F#64).getLsbD (8 * j + i) = decide (i.val < 7) ∧
      (i.val < 7 → (List.range (8 * j + i)).countP
        (0x7F7F7F7F7F7F7F7F#64).getLsbD = 7 * j + i) := by
    decide
  obtain ⟨hm, hc⟩ := key ⟨j, hj⟩ ⟨i, hi⟩
  simp only at hm hc
  rw [pdep, getLsbD_ofBits, hm]
  have h64 : 8 * j + i < 64 := by omega
  by_cases h7 : i < 7
  · rw [hc h7]
    simp [h64, h7]
  · simp [h7]

theorem spread7_getLsbD (bmi2 : Bool) (v : U64) {j i : Nat} (hj : j < 8)
    (hi : i < 8) :
    (spread7 bmi2 v).getLsbD (8 * j + i) =
      (decide (i < 7) && v.getLsbD (7 * j + i)) := by
  cases bmi2 with
  | true => exact pdep_getLsbD v hj hi
  | false => exact spread7Portable_getLsbD v hj hi

/-- Bit `i` of lane `j` is bit `i` of group `j`. -/
theorem lanes_getLsbD (bmi2 : Bool) (v : U64) {j i : Nat} (hj : j < 10)
    (hi : i < 8) :
    (lanes bmi2 v).getLsbD (8 * j + i) =
      (decide (i < 7) && v.getLsbD (7 * j + i)) := by
  simp only [lanes, BitVec.getLsbD_or, BitVec.getLsbD_setWidth,
    BitVec.getLsbD_shiftLeft, BitVec.getLsbD_ushiftRight, BitVec.getLsbD_and,
    getLsbD_low7 (by decide : 7 ≤ 64)]
  have h128 : 8 * j + i < 128 := by omega
  rcases Nat.lt_or_ge j 8 with h8 | h8
  · have h64 : 8 * j + i < 64 := by omega
    have h72 : 8 * j + i < 72 := by omega
    rw [spread7_getLsbD bmi2 v h8 hi]
    simp [h128, h64, h72]
  · have h64 : ¬ 8 * j + i < 64 := by omega
    rw [BitVec.getLsbD_of_ge (spread7 bmi2 v) _ (by omega)]
    rcases Nat.lt_or_ge j 9 with h9 | h9
    · obtain rfl : j = 8 := by omega
      have h72 : 8 * 8 + i < 72 := by omega
      have ho : 8 * 8 + i - 64 = i := by omega
      have h64' : ¬ 64 + i < 64 := by omega
      have hi' : i < 128 := by omega
      simp [h128, h72, ho, h64', hi', Bool.and_comm]
    · obtain rfl : j = 9 := by omega
      have ho : 8 * 9 + i - 64 = 8 + i := by omega
      have ho' : 8 * 9 + i - 72 = i := by omega
      have h7 : ¬ 8 + i < 7 := by omega
      by_cases h0 : i = 0
      · simp [h0]
      · have hge : v.getLsbD (63 + i) = false :=
          BitVec.getLsbD_of_ge v _ (by omega)
        simp [h128, ho, ho', hge, h7]

/-! ## The two encoders agree -/

/-- The length that `push_varint` computes is the number of groups. -/
theorem varintLen_spec (v : U64) :
    ∃ k, varintLen v = k + 1 ∧ k ≤ 9 ∧ v.toNat < 2 ^ (7 * (k + 1)) ∧
      (k = 0 ∨ 2 ^ (7 * k) ≤ v.toNat) := by
  have hnat : (v ||| 1#64).toNat = v.toNat ||| 1 := BitVec.toNat_or ..
  have hhalf : (v.toNat ||| 1) / 2 = v.toNat / 2 := by
    rw [Nat.or_div_two]
    simp
  have hge1 : 1 ≤ v.toNat ||| 1 := Nat.right_le_or
  have hlev : v.toNat ≤ v.toNat ||| 1 := Nat.left_le_or
  have hne : v ||| 1#64 ≠ 0#64 := by
    intro h
    rw [h] at hnat
    simp at hnat
    omega
  have hlt := BitVec.toNat_lt_two_pow_sub_clz (x := v ||| 1#64)
  have hge := BitVec.two_pow_sub_clz_le_toNat_of_ne_zero (by decide) hne
  have hclz : (v ||| 1#64).clz.toNat < 64 := by
    have := (BitVec.clz_lt_iff_ne_zero (x := v ||| 1#64)).2 hne
    rw [BitVec.lt_def] at this
    simpa using this
  rw [hnat] at hlt hge
  simp only [varintLen]
  generalize (v ||| 1#64).clz.toNat = c at hlt hge hclz
  refine ⟨(64 - c - 1) / 7, by omega, by omega, ?_, ?_⟩
  · have hpow : 2 ^ (64 - c) ≤ 2 ^ (7 * ((64 - c - 1) / 7 + 1)) :=
      Nat.pow_le_pow_right (by decide) (by omega)
    omega
  · rcases Nat.eq_zero_or_pos ((64 - c - 1) / 7) with h | h
    · exact Or.inl h
    · right
      generalize hk : (64 - c - 1) / 7 = k at h
      obtain ⟨m, hm⟩ : ∃ m, 7 * k = m + 1 := ⟨7 * k - 1, by omega⟩
      have hpow : 2 ^ (7 * k) ≤ 2 ^ (64 - 1 - c) :=
        Nat.pow_le_pow_right (by decide) (by omega)
      rw [hm, Nat.pow_succ] at hpow ⊢
      omega

theorem cont_getLsbD {j i : Nat} (hj : j < 10) (hi : i < 8) :
    cont.getLsbD (8 * j + i) = decide (i = 7) := by
  have key : ∀ (j : Fin 10) (i : Fin 8),
      cont.getLsbD (8 * j + i) = decide (i.val = 7) := by decide
  exact key ⟨j, hj⟩ ⟨i, hi⟩

/-- The mask of the first `m` bits. -/
theorem getLsbD_mask {m p : Nat} (hm : m < 128) :
    ((1#128 <<< m) - 1#128).getLsbD p = decide (p < m) := by
  have hlt : 2 ^ m < 2 ^ 128 := Nat.pow_lt_pow_right (by decide) hm
  have hpos : 0 < 2 ^ m := Nat.two_pow_pos m
  have hone : (1#128).toNat = 1 := rfl
  have hnat : ((1#128 <<< m) - 1#128).toNat = 2 ^ m - 1 := by
    rw [BitVec.toNat_sub, BitVec.toNat_shiftLeft, Nat.shiftLeft_eq, hone,
      Nat.one_mul]
    omega
  rw [BitVec.getLsbD, hnat, Nat.testBit_two_pow_sub_one]

/-- `push_varint` appends what `encode_varint` writes. -/
theorem pushVarint_eq (bmi2 : Bool) (out : List U8) (v : U64) :
    pushVarint bmi2 out v = out ++ encodeVarint v := by
  obtain ⟨k, hn, hk, hlt, hge⟩ := varintLen_spec v
  rw [encodeVarint_eq k v hlt hge]
  simp only [pushVarint, hn, Nat.add_sub_cancel]
  rw [toLeBytes, ← List.map_take, List.take_range, Nat.min_eq_left (by omega)]
  congr 1
  refine List.map_congr_left fun j hj => ?_
  rw [List.mem_range] at hj
  apply BitVec.eq_of_getLsbD_eq
  intro i hi
  rw [BitVec.getLsbD_extractLsb', BitVec.getLsbD_or, BitVec.getLsbD_and,
    lanes_getLsbD bmi2 v (by omega) hi, cont_getLsbD (by omega) hi,
    getLsbD_mask (by omega), groupByte, BitVec.getLsbD_or, BitVec.getLsbD_and,
    BitVec.getLsbD_setWidth, BitVec.getLsbD_ushiftRight,
    getLsbD_low7 (by decide)]
  by_cases hlast : j + 1 < k + 1
  · -- A byte with the continuation bit: `0x80` is bit 7.
    have h80 : (0x80#8).getLsbD i = decide (i = 7) := by
      have key : ∀ i : Fin 8, (0x80#8).getLsbD i = decide (i.val = 7) := by
        decide
      exact key ⟨i, hi⟩
    have hin : 8 * j + i < 8 * k := by omega
    rw [if_pos hlast, h80]
    simp [hi, hin, Bool.and_comm]
  · rw [if_neg hlast]
    by_cases h7 : i = 7
    · simp [h7]
      omega
    · simp [hi, h7, Bool.and_comm]

theorem encodeVarint_length (v : U64) :
    (encodeVarint v).length = varintLen v := by
  obtain ⟨k, hn, -, hlt, hge⟩ := varintLen_spec v
  rw [encodeVarint_eq k v hlt hge, hn]
  simp

end LuceneRust.Store
