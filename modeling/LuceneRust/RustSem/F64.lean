import Mathlib

/-!
# Rust's `f64`

The arithmetic and the comparisons of an `f64` are those of `Float`, which has
IEEE 754 semantics.  This module adds the casts from and to integers and
`f64::max`, and what it takes to reason about the signs of results.

* `div_lt_of_nonpos`: a quotient that is not positive is below a bound that is
  at least 2.
* `one_le_toI64_mul`: a product of numbers that are at least 1 is at least 1
  after the cast.
-/

namespace RustSem

open Float.Model Float.Model.UnpackedFloat

/-- `n as f64`, for an integer `n`. -/
def f64OfInt (n : Int) : Float := .ofModel (.ofInt n)

/-- `x as i64`. -/
def f64ToI64 (x : Float) : Int := x.toModel.toInt64.toInt

/-- `x as u64`. -/
def f64ToU64 (x : Float) : Nat := x.toUInt64.toNat

/-- `a.max(b)`: the other one if one is not a number. -/
def f64Max (a b : Float) : Float :=
  if a.isNaN then b else if b.isNaN then a else if a < b then b else a

/-! ## Packing -/

theorem unpackSign_packComponents {spec : Format} {sign : Sign}
    {exponent : BitVec spec.exponentBits} {mantissa : BitVec spec.mantissaBitsWithoutImplicit} :
    unpackSign (packComponents spec sign exponent mantissa) = sign.toBitVec := by
  ext i hi
  obtain rfl : i = 0 := by omega
  simp [unpackSign, packComponents, BitVec.getElem_append, BitVec.getLsbD_append]

theorem ofBitVec_toBitVec (s : Sign) : Sign.ofBitVec s.toBitVec = s := by
  cases s <;> rfl

/-- What a float is read back as. -/
def repack (x : UnpackedFloat) : UnpackedFloat := (Float.Model.pack x).unpack

theorem repack_eq (x : UnpackedFloat) :
    repack x = UnpackedFloat.unpack Format.binary64 (UnpackedFloat.pack Format.binary64 x) := rfl

theorem repack_infinity (s : Sign) : repack (.infinity s) = .infinity s := by
  cases s <;> rfl

theorem repack_zero (s : Sign) : repack (.zero s) = .zero s := by
  cases s <;> rfl

/-- A number that is at least `2 ^ k`. -/
def AtLeast (k : Int) (x : UnpackedFloat) : Prop :=
  x = .infinity .positive ∨
    ∃ m e hm, x = .finite .positive m e hm ∧ 2 ^ 52 ≤ m ∧ m < 2 ^ 53 ∧ k - 52 ≤ e

/-- A number that is not above zero. -/
def Nonpos (x : UnpackedFloat) : Prop :=
  (∃ s, x = .zero s) ∨ x = .infinity .negative ∨ ∃ m e hm, x = .finite .negative m e hm

theorem implicit_bounds (m : BitVec 52) :
    2 ^ 52 ≤ (1#1 ++ m).toNat ∧ (1#1 ++ m).toNat < 2 ^ 53 := by
  refine ⟨?_, (1#1 ++ m).isLt⟩
  rw [BitVec.toNat_append]
  exact Nat.left_le_or

theorem log2_normal {m : Nat} (hlo : 2 ^ 52 ≤ m) (hhi : m < 2 ^ 53) : m.log2 = 52 :=
  Nat.log2_eq_iff (by omega) |>.2 ⟨hlo, hhi⟩

/-- What the parts of a number that is not special are read back as. -/
theorem unpack_packComponents {s : Sign} {exponent : BitVec 11} {mantissa : BitVec 52}
    (hne : exponent ≠ -1#11) :
    UnpackedFloat.unpack Format.binary64 (packComponents Format.binary64 s exponent mantissa) =
        .zero s ∨
      ∃ m e hm, UnpackedFloat.unpack Format.binary64
        (packComponents Format.binary64 s exponent mantissa) = .finite s m e hm := by
  rw [UnpackedFloat.unpack]
  simp only [unpackExponent_packComponents, unpackMantissa_packComponents,
    unpackSign_packComponents, ofBitVec_toBitVec, if_neg hne]
  split
  · split
    · exact .inl rfl
    · next hmantissa =>
        have hpos : 0 < mantissa.toNat := Nat.pos_of_ne_zero fun h =>
          hmantissa (BitVec.eq_of_toNat_eq h)
        exact .inr ⟨_, _, hpos, rfl⟩
  · exact .inr ⟨_, _, Nat.lt_of_lt_of_le (by decide) (implicit_bounds _).1, rfl⟩

theorem ofNat_ne_special {n : Nat} (h : n + 1 < 2 ^ 11) : BitVec.ofNat 11 n ≠ -1#11 := by
  intro heq
  have hnat := congrArg BitVec.toNat heq
  rw [BitVec.toNat_ofNat, Nat.mod_eq_of_lt (by omega)] at hnat
  simp at hnat
  omega

/-- A normal number that is in range is read back as one of the same exponent. -/
theorem repack_normal {s : Sign} {m : Nat} {e : Int} (hm : 0 < m) (hlo : 2 ^ 52 ≤ m)
    (hhi : m < 2 ^ 53) (he : -1074 ≤ e) (hin : e ≤ 971) :
    ∃ m' hm', repack (.finite s m e hm) = .finite s m' e hm' ∧ 2 ^ 52 ≤ m' ∧ m' < 2 ^ 53 := by
  refine ⟨(1#1 ++ BitVec.ofNat 52 m).toNat,
    Nat.lt_of_lt_of_le (by decide) (implicit_bounds _).1, ?_, implicit_bounds _⟩
  have hpack : UnpackedFloat.pack Format.binary64 (.finite s m e hm) =
      packComponents Format.binary64 s (BitVec.ofNat 11 (e + 1023 + 52).toNat)
        (BitVec.ofNat 52 m) := by
    rw [UnpackedFloat.pack]
    refine (if_neg ?_).trans (if_pos (by rw [log2_normal hlo hhi]; rfl))
    show ¬2 ^ 11 ≤ (e + 1023 + 52).toNat + 1
    omega
  have hne := ofNat_ne_special (n := (e + 1023 + 52).toNat) (by omega)
  have hexp : (BitVec.ofNat 11 (e + 1023 + 52).toNat).toNat = (e + 1075).toNat := by
    rw [BitVec.toNat_ofNat, Nat.mod_eq_of_lt (by omega)]
    omega
  have hne0 : BitVec.ofNat 11 (e + 1023 + 52).toNat ≠ 0#11 := by
    intro h
    have hnat := congrArg BitVec.toNat h
    rw [hexp] at hnat
    simp at hnat
    omega
  rw [repack_eq, hpack, UnpackedFloat.unpack]
  simp only [unpackExponent_packComponents, unpackMantissa_packComponents,
    unpackSign_packComponents, ofBitVec_toBitVec, if_neg hne, if_neg hne0, hexp]
  congr 1
  show ((e + 1075).toNat : Int) - (1023 + 52) = e
  omega

theorem repack_overflow {s : Sign} {m : Nat} {e : Int} (hm : 0 < m) (hout : 972 ≤ e) :
    repack (.finite s m e hm) = .infinity s := by
  have hbig : 2 ^ 11 ≤ (e + 1023 + 52).toNat + 1 := by omega
  have hpack : UnpackedFloat.pack Format.binary64 (.finite s m e hm) =
      UnpackedFloat.pack Format.binary64 (.infinity s) := if_pos hbig
  rw [repack_eq, hpack, ← repack_eq, repack_infinity]

theorem repack_atLeast {m : Nat} {e k : Int} (hm : 0 < m) (hlo : 2 ^ 52 ≤ m) (hhi : m < 2 ^ 53)
    (hk : -1022 ≤ k) (he : k - 52 ≤ e) : AtLeast k (repack (.finite .positive m e hm)) := by
  by_cases hin : e ≤ 971
  · obtain ⟨m', hm', hrepack, hlo', hhi'⟩ := repack_normal (s := .positive) hm hlo hhi (by omega) hin
    exact .inr ⟨m', e, hm', hrepack, hlo', hhi', he⟩
  · exact .inl (repack_overflow hm (by omega))

/-- A number that is not above zero is read back as one. -/
theorem repack_nonpos {x : UnpackedFloat} (hx : Nonpos x) : Nonpos (repack x) := by
  obtain ⟨s, rfl⟩ | rfl | ⟨m, e, hm, rfl⟩ := hx
  · exact .inl ⟨s, repack_zero s⟩
  · exact .inr (.inl (repack_infinity _))
  · by_cases hin : e ≤ 971
    · have hread : ∀ (exponent : BitVec 11) (mantissa : BitVec 52), exponent ≠ -1#11 →
          Nonpos (UnpackedFloat.unpack Format.binary64
            (packComponents Format.binary64 .negative exponent mantissa)) := by
        intro exponent mantissa hne
        rcases unpack_packComponents hne with h | h
        · exact .inl ⟨_, h⟩
        · exact .inr (.inr h)
      have hfit : ¬2 ^ 11 ≤ (e + 1023 + 52).toNat + 1 := by omega
      rw [repack_eq, UnpackedFloat.pack]
      split
      · next h => exact absurd h hfit
      split
      · exact hread _ _ (ofNat_ne_special (by
          show (e + 1023 + 52).toNat + 1 < 2 ^ 11
          omega))
      · exact hread _ _ (by decide)
    · exact .inr (.inl (repack_overflow hm (by omega)))

/-! ## Rounding -/

theorem mantissa_shiftRight (em : ExtendedMantissa) (k : Nat) :
    (em >>> k).mantissa = em.mantissa / 2 ^ k := by
  induction k with
  | zero => exact (Nat.div_one _).symm
  | succ k ih =>
    show ((em >>> k).shiftRightOne).mantissa = _
    rw [ExtendedMantissa.shiftRightOne, ih, Nat.div_div_eq_div_mul, Nat.pow_succ]

theorem roundedMantissa_bounds (em : ExtendedMantissa) :
    em.mantissa ≤ em.roundedMantissa ∧ em.roundedMantissa ≤ em.mantissa + 1 := by
  obtain ⟨m, roundBit, stickyBit⟩ := em
  cases roundBit <;> cases stickyBit <;>
    simp [ExtendedMantissa.roundedMantissa, ExtendedMantissa.accuracy, Accuracy.roundToNearestEven]
  omega

/-- A shift that leaves the 53 highest bits of a mantissa. -/
theorem shiftToTarget_spec {M : Nat} {e : Int} (acc : Accuracy) (hM : 52 ≤ M.log2)
    (he : -1022 ≤ M.log2 + e) :
    (shiftToTargetExponent Format.binary64 M e acc).2 = M.log2 + e - 52 ∧
      2 ^ 52 ≤ (shiftToTargetExponent Format.binary64 M e acc).1.mantissa ∧
      (shiftToTargetExponent Format.binary64 M e acc).1.mantissa < 2 ^ 53 := by
  have hM0 : M ≠ 0 := by
    rintro rfl
    exact absurd hM (by decide)
  have htarget : Format.binary64.targetExponent (totalExponent M e) = M.log2 + e - 52 := by
    rw [Format.targetExponent, totalExponent]
    show max ((M.log2 : Int) + 1 + e - 53) (-1074) = _
    omega
  have hshift : (M.log2 + e - 52 - e).toNat = M.log2 - 52 := by omega
  rw [shiftToTargetExponent, htarget, shiftToExponent, hshift]
  have hmantissa : (ExtendedMantissa.ofMantissaAndAccuracy M acc).mantissa = M := by
    cases acc with
    | exact => rfl
    | inexact o => cases o <;> rfl
  simp only [mantissa_shiftRight, hmantissa]
  have hlow := Nat.log2_self_le hM0
  have hhigh := Nat.lt_log2_self (n := M)
  have hpow : 2 ^ M.log2 = 2 ^ 52 * 2 ^ (M.log2 - 52) := by
    rw [← Nat.pow_add, Nat.add_sub_cancel' hM]
  rw [Nat.pow_succ, hpow] at hhigh
  rw [hpow] at hlow
  refine ⟨by omega, (Nat.le_div_iff_mul_le (Nat.two_pow_pos _)).2 hlow,
    (Nat.div_lt_iff_lt_mul (Nat.two_pow_pos _)).2 ?_⟩
  rw [show 2 ^ 53 = 2 ^ 52 * 2 from rfl, Nat.mul_right_comm]
  exact hhigh

theorem roundWithAccuracy_spec {s : Sign} {M : Nat} {e : Int} (acc : Accuracy) (hM : 52 ≤ M.log2)
    (he : -1022 ≤ M.log2 + e) :
    ∃ m e' hm, roundWithAccuracy Format.binary64 s M e acc = .finite s m e' hm ∧
      2 ^ 52 ≤ m ∧ m < 2 ^ 53 ∧ M.log2 + e - 52 ≤ e' ∧ e' ≤ M.log2 + e - 51 := by
  have hfirst := shiftToTarget_spec acc hM he
  rw [roundWithAccuracy]
  generalize shiftToTargetExponent Format.binary64 M e acc = first at hfirst ⊢
  obtain ⟨em, e₁⟩ := first
  obtain ⟨he₁, hlo, hhi⟩ := hfirst
  simp only at he₁ hlo hhi ⊢
  obtain ⟨hle, hge⟩ := roundedMantissa_bounds em
  have hr0 : em.roundedMantissa ≠ 0 := by omega
  have hlog : 52 ≤ em.roundedMantissa.log2 := (Nat.le_log2 hr0).2 (by omega)
  have hlog' : em.roundedMantissa.log2 < 54 := (Nat.log2_lt hr0).2 (by omega)
  -- rounding up may take a further bit, which the second shift drops
  have hsecond := shiftToTarget_spec (e := e₁) .exact hlog (by omega)
  generalize shiftToTargetExponent Format.binary64 em.roundedMantissa e₁ .exact = second
    at hsecond ⊢
  obtain ⟨em', e'⟩ := second
  obtain ⟨he', hlo', hhi'⟩ := hsecond
  simp only at he' hlo' hhi' ⊢
  have hm' : em'.mantissa ≠ 0 := by omega
  rw [dif_neg hm']
  exact ⟨em'.mantissa, e', Nat.pos_of_ne_zero hm', rfl, hlo', hhi', by omega, by omega⟩

theorem log2_shiftLeft {n : Nat} (hn : n ≠ 0) (k : Nat) : (n <<< k).log2 = n.log2 + k := by
  have hpos := Nat.two_pow_pos k
  rw [Nat.shiftLeft_eq, Nat.log2_eq_iff (by positivity)]
  refine ⟨?_, ?_⟩
  · rw [Nat.pow_add]
    exact Nat.mul_le_mul_right _ (Nat.log2_self_le hn)
  · rw [Nat.add_right_comm, Nat.pow_add]
    exact Nat.mul_lt_mul_of_pos_right Nat.lt_log2_self hpos

/-! ## The casts and the operations -/

theorem unpack_f64OfInt (n : Int) :
    (f64OfInt n).toModel.unpack = repack (UnpackedFloat.ofInt Format.binary64 n) := rfl

theorem unpack_mul (a b : Float) : (a * b).toModel.unpack =
    repack (UnpackedFloat.mul Format.binary64 a.toModel.unpack b.toModel.unpack) := rfl

theorem unpack_div (a b : Float) : (a / b).toModel.unpack =
    repack (UnpackedFloat.div Format.binary64 a.toModel.unpack b.toModel.unpack) := rfl

theorem lt_iff (a b : Float) : a < b ↔ a.toModel.unpack.compare b.toModel.unpack = some .lt := by
  show decide ((a.toModel.unpack.compare b.toModel.unpack == some .lt) = true) = true ↔ _
  rw [decide_eq_true_iff]
  exact beq_iff_eq

/-- A round result is zero or has the sign. -/
theorem roundWithAccuracy_sign (s : Sign) (M : Nat) (e : Int) (acc : Accuracy) :
    roundWithAccuracy Format.binary64 s M e acc = .zero s ∨
      ∃ m e' hm, roundWithAccuracy Format.binary64 s M e acc = .finite s m e' hm := by
  rw [roundWithAccuracy]
  simp only
  split
  · exact .inl rfl
  · next h => exact .inr ⟨_, _, Nat.pos_of_ne_zero h, rfl⟩

theorem nonpos_round (M : Nat) (e : Int) (acc : Accuracy) :
    Nonpos (roundWithAccuracy Format.binary64 .negative M e acc) := by
  rcases roundWithAccuracy_sign .negative M e acc with h | h
  · exact .inl ⟨_, h⟩
  · exact .inr (.inr h)

/-- A positive integer that fits a machine word is a normal number. -/
theorem unpack_ofInt_pos {n : Nat} (hn : 0 < n) (hlt : n < 2 ^ 64) :
    ∃ m e hm, (f64OfInt n).toModel.unpack = .finite .positive m e hm ∧ 2 ^ 52 ≤ m ∧ m < 2 ^ 53 ∧
      -52 ≤ e := by
  have hlog : n.log2 < 64 := (Nat.log2_lt (by omega)).2 hlt
  have htarget : Format.binary64.targetExponent (totalExponent n 0) = n.log2 - 52 := by
    rw [Format.targetExponent, totalExponent]
    show max ((n.log2 : Int) + 1 + 0 - 53) (-1074) = _
    omega
  have hcmp : compare (n : Int) 0 = .gt := by
    rw [Int.compare_eq_gt]
    omega
  have hround : UnpackedFloat.ofInt Format.binary64 n = roundWithAccuracy Format.binary64 .positive
      (n <<< (0 - ((n.log2 : Int) - 52)).toNat) (0 - (0 - ((n.log2 : Int) - 52)).toNat) .exact := by
    rw [UnpackedFloat.ofInt, UnpackedFloat.normalize, hcmp]
    simp only [UnpackedFloat.round, Int.toNat_natCast, htarget, decreaseExponent]
  have hlog2 : (n <<< (0 - ((n.log2 : Int) - 52)).toNat).log2 =
      n.log2 + (0 - ((n.log2 : Int) - 52)).toNat := log2_shiftLeft (by omega) _
  obtain ⟨m, e, hm, heq, hlo, hhi, hge, hle⟩ := roundWithAccuracy_spec (s := .positive)
    (M := n <<< (0 - ((n.log2 : Int) - 52)).toNat)
    (e := 0 - (0 - ((n.log2 : Int) - 52)).toNat) .exact (by omega) (by omega)
  obtain ⟨m', hm', hrepack, hlo', hhi'⟩ :=
    repack_normal (s := .positive) (e := e) hm hlo hhi (by omega) (by omega)
  exact ⟨m', e, hm', by rw [unpack_f64OfInt, hround, heq, hrepack], hlo', hhi', by omega⟩

/-- A cast of an integer that is not positive. -/
theorem nonpos_f64OfInt {n : Int} (hn : n ≤ 0) : Nonpos (f64OfInt n).toModel.unpack := by
  rw [unpack_f64OfInt]
  refine repack_nonpos ?_
  rw [UnpackedFloat.ofInt, UnpackedFloat.normalize]
  rcases Int.lt_or_eq_of_le hn with hlt | rfl
  · rw [Int.compare_eq_lt.2 hlt]
    exact nonpos_round _ _ _
  · exact .inl ⟨.positive, rfl⟩

theorem compare_nonpos_atLeast {x y : UnpackedFloat} (hx : Nonpos x) {k : Int} (hy : AtLeast k y) :
    x.compare y = some .lt := by
  obtain ⟨s, rfl⟩ | rfl | ⟨m, e, hm, rfl⟩ := hx <;> obtain rfl | ⟨m', e', hm', rfl, -⟩ := hy <;> rfl

/-- The numbers that a float can be. -/
theorem unpack_cases (b : BitVec 64) : UnpackedFloat.unpack Format.binary64 b = .notANumber ∨
    ∃ s, UnpackedFloat.unpack Format.binary64 b = .infinity s ∨
      UnpackedFloat.unpack Format.binary64 b = .zero s ∨
      ∃ m e hm, UnpackedFloat.unpack Format.binary64 b = .finite s m e hm ∧
        (e = -1074 ∨ (2 ^ 52 ≤ m ∧ m < 2 ^ 53)) := by
  rw [UnpackedFloat.unpack]
  simp only
  split
  · split
    · exact .inr ⟨_, .inl rfl⟩
    · exact .inl rfl
  · split
    · next hexp =>
        split
        · exact .inr ⟨_, .inr (.inl rfl)⟩
        · next hmantissa =>
            have hpos : 0 < (@unpackMantissa Format.binary64 b).toNat :=
              Nat.pos_of_ne_zero fun h => hmantissa (BitVec.eq_of_toNat_eq h)
            refine .inr ⟨_, .inr (.inr ⟨_, _, hpos, rfl, .inl ?_⟩)⟩
            rw [hexp]
            rfl
    · exact .inr ⟨_, .inr (.inr ⟨_, _, Nat.lt_of_lt_of_le (by decide) (implicit_bounds _).1, rfl,
        .inr (implicit_bounds _)⟩)⟩

/-- What is not a number and what is below 2 is replaced by 2. -/
theorem atLeast_max_two (a : Float) : AtLeast 1 (f64Max a 2.0).toModel.unpack := by
  have htwo : (2.0 : Float).toModel.unpack = .finite .positive (2 ^ 52) (-51) (by decide) := rfl
  have hmax : AtLeast 1 (2.0 : Float).toModel.unpack :=
    .inr ⟨2 ^ 52, -51, by decide, htwo, by decide, by decide, by decide⟩
  rw [f64Max]
  split
  · exact hmax
  next hnan =>
  rw [if_neg (by decide)]
  split
  · exact hmax
  next hlt =>
  rw [lt_iff, htwo] at hlt
  have hnan' : a.toModel.unpack ≠ .notANumber := by
    intro h
    refine hnan ?_
    show a.toModel.unpack.isNaN = true
    rw [h]
    rfl
  rcases unpack_cases a.toModel.toBits.toBitVec with h | ⟨s, h | h | ⟨m, e, hm, h, hnormal⟩⟩
  · exact absurd h hnan'
  · cases s with
    | positive => exact .inl h
    | negative =>
      refine absurd ?_ hlt
      rw [show a.toModel.unpack = _ from h]
      rfl
  · refine absurd ?_ hlt
    rw [show a.toModel.unpack = _ from h]
    rfl
  · cases s with
    | negative =>
      refine absurd ?_ hlt
      rw [show a.toModel.unpack = _ from h]
      rfl
    | positive =>
      rw [show a.toModel.unpack = _ from h] at hlt ⊢
      -- a number that is not below 2 is a normal one
      have hcmp : (compare e (-51)).then (compare m (2 ^ 52)) ≠ .lt := fun h => hlt (by
        rw [UnpackedFloat.compare, h])
      have he : -51 ≤ e := by
        by_contra hlow
        rw [Int.compare_eq_lt.2 (by omega)] at hcmp
        exact hcmp rfl
      obtain ⟨hlo, hhi⟩ := hnormal.resolve_left (by omega)
      exact .inr ⟨m, e, hm, rfl, hlo, hhi, by omega⟩

/-! ## Two facts about quotients and products -/

/-- A quotient of an integer that is not positive is below a bound that is at
least 2. -/
theorem div_lt_of_nonpos {a : Int} {n : Nat} (ha : a ≤ 0) (hn : 0 < n) (hlt : n < 2 ^ 64)
    (bound : Float) : f64OfInt a / f64OfInt n < f64Max bound 2.0 := by
  rw [lt_iff]
  refine compare_nonpos_atLeast ?_ (atLeast_max_two bound)
  obtain ⟨m, e, hm, hn', -⟩ := unpack_ofInt_pos hn hlt
  rw [unpack_div, hn']
  refine repack_nonpos ?_
  obtain ⟨s, h⟩ | h | ⟨m', e', hm', h⟩ := nonpos_f64OfInt ha <;> rw [h]
  · exact .inl ⟨_, rfl⟩
  · exact .inr (.inl rfl)
  · exact nonpos_round _ _ _

theorem one_le_toInt64 {x : UnpackedFloat} (hx : AtLeast 1 x) : 1 ≤ x.toInt64.toInt := by
  have hone : 1 ≤ x.toInt Int64.minValue.toInt Int64.maxValue.toInt := by
    obtain rfl | ⟨m, e, hm, rfl, hlo, -, he⟩ := hx
    · decide
    · have hround : UnpackedFloat.toInt Int64.minValue.toInt Int64.maxValue.toInt
          (.finite .positive m e hm) =
            ((m <<< (e - 0).toNat / 2 ^ (0 - (e - (e - 0).toNat)).toNat : Nat) : Int) := by
        rw [UnpackedFloat.toInt, roundToInt]
        simp only [decreaseExponent, shiftToExponent, mantissa_shiftRight]
        rfl
      have hdiv : 0 < m <<< (e - 0).toNat / 2 ^ (0 - (e - (e - 0).toNat)).toNat := by
        refine Nat.div_pos ?_ (Nat.two_pow_pos _)
        have hpow : 2 ^ (0 - (e - (e - 0).toNat)).toNat ≤ 2 ^ 52 :=
          Nat.pow_le_pow_right (by decide) (by omega)
        have hshift : m ≤ m <<< (e - 0).toNat := by
          rw [Nat.shiftLeft_eq]
          exact Nat.le_mul_of_pos_right m (Nat.two_pow_pos _)
        omega
      rw [hround]
      omega
  have hmin : Int64.minValue.toInt = -2 ^ 63 := rfl
  have hmax : Int64.maxValue.toInt = 2 ^ 63 - 1 := rfl
  rw [UnpackedFloat.toInt64]
  by_cases hin : x.toInt Int64.minValue.toInt Int64.maxValue.toInt ≤ Int64.maxValue.toInt
  · rw [Int64.toInt_ofIntClamp (by omega) hin]
    exact hone
  · rw [Int64.ofIntClamp, dif_pos (by omega), dif_neg hin]
    decide

/-- A product with a bound that is at least 2 is at least 1 as an integer. -/
theorem one_le_toI64_mul {n : Nat} (hn : 0 < n) (hlt : n < 2 ^ 64) (bound : Float) :
    1 ≤ f64ToI64 (f64Max bound 2.0 * f64OfInt n) := by
  obtain ⟨m, e, hm, hn', hlo, hhi, he⟩ := unpack_ofInt_pos hn hlt
  refine one_le_toInt64 (x := (f64Max bound 2.0 * f64OfInt n).toModel.unpack) ?_
  rw [unpack_mul, hn']
  obtain h | ⟨m', e', hm', h, hlo', hhi', he'⟩ := atLeast_max_two bound <;> rw [h]
  · exact .inl (repack_infinity _)
  · have hlow : 2 ^ (52 + 52) ≤ m' * m := by
      rw [Nat.pow_add]
      exact Nat.mul_le_mul hlo' hlo
    have hlog : 104 ≤ (m' * m).log2 := (Nat.le_log2 (by omega)).2 hlow
    obtain ⟨r, er, hr, heq, hrlo, hrhi, her, -⟩ := roundWithAccuracy_spec
      (s := .positive) (M := m' * m) (e := e' + e) .exact (by omega) (by omega)
    have hmul : UnpackedFloat.mul Format.binary64 (.finite .positive m' e' hm')
        (.finite .positive m e hm) = .finite .positive r er hr := heq
    rw [hmul]
    exact repack_atLeast hr hrlo hrhi (by decide) (by omega)

end RustSem
