import LuceneRust.Lib.BitStream

/-!
# Bit tapes over 64-bit words

A list of words read as one tape of bits.  The same words are two tapes:
`msbAt` starts at the most significant bit of each word, and `lsbAt` at the
least significant one.  Both run through the words in order.

* `msbField` is the word whose bits, most significant first, stand at a
  position of the first tape.  `msbField_word` and `msbField_straddle` are
  the two reads of it: inside one word, and across two.
* `lsbField_word` is the read of a field of the second tape.
* `msbAt_set` and `lsbAt_set` say what the store of one word does, and
  `msbAt_store_word`, `msbAt_store_straddle` and `lsbAt_store_word` what the
  store of a field does.
* `valueAt` is the tape of a list of values of one width.  `MsbPacks` says
  that a tape of words starts with it.
-/

namespace WordTape

open RustSem
open BitStream (IsMask)

/-- Bit `p` of the tape that starts at the most significant bits. -/
def msbAt (ws : List U64) (p : Nat) : Bool :=
  (ws.getD (p / 64) 0).getLsbD (63 - p % 64)

/-- Bit `p` of the tape that starts at the least significant bits. -/
def lsbAt (ws : List U64) (p : Nat) : Bool :=
  (ws.getD (p / 64) 0).getLsbD (p % 64)

/-! ## Cutting, joining and storing -/

section

variable (ws vs : List U64) (p : Nat)

theorem msbAt_drop (n : Nat) : msbAt (ws.drop n) p = msbAt ws (64 * n + p) := by
  rw [msbAt, msbAt, List.getD_eq_getElem?_getD, List.getD_eq_getElem?_getD,
    List.getElem?_drop, show (64 * n + p) / 64 = n + p / 64 by omega,
    show (64 * n + p) % 64 = p % 64 by omega]

theorem lsbAt_drop (n : Nat) : lsbAt (ws.drop n) p = lsbAt ws (64 * n + p) := by
  rw [lsbAt, lsbAt, List.getD_eq_getElem?_getD, List.getD_eq_getElem?_getD,
    List.getElem?_drop, show (64 * n + p) / 64 = n + p / 64 by omega,
    show (64 * n + p) % 64 = p % 64 by omega]

/-- The tape of words that replace a tail. -/
theorem msbAt_take_append {n : Nat} (hn : n ≤ ws.length) :
    msbAt (ws.take n ++ vs) p =
      if p < 64 * n then msbAt ws p else msbAt vs (p - 64 * n) := by
  have hlen : (ws.take n).length = n := List.length_take_of_le hn
  rw [msbAt, msbAt, msbAt]
  by_cases hp : p < 64 * n
  · rw [if_pos hp, List.getD_append _ _ _ _ (by omega),
      List.getD_eq_getElem?_getD, List.getElem?_take_of_lt (by omega),
      ← List.getD_eq_getElem?_getD]
  · rw [if_neg hp, List.getD_append_right _ _ _ _ (by omega), hlen,
      show (p - 64 * n) / 64 = p / 64 - n by omega,
      show (p - 64 * n) % 64 = p % 64 by omega]

theorem lsbAt_take_append {n : Nat} (hn : n ≤ ws.length) :
    lsbAt (ws.take n ++ vs) p =
      if p < 64 * n then lsbAt ws p else lsbAt vs (p - 64 * n) := by
  have hlen : (ws.take n).length = n := List.length_take_of_le hn
  rw [lsbAt, lsbAt, lsbAt]
  by_cases hp : p < 64 * n
  · rw [if_pos hp, List.getD_append _ _ _ _ (by omega),
      List.getD_eq_getElem?_getD, List.getElem?_take_of_lt (by omega),
      ← List.getD_eq_getElem?_getD]
  · rw [if_neg hp, List.getD_append_right _ _ _ _ (by omega), hlen,
      show (p - 64 * n) / 64 = p / 64 - n by omega,
      show (p - 64 * n) % 64 = p % 64 by omega]

theorem getD_set {e i : Nat} (he : e < ws.length) (w : U64) :
    (ws.set e w).getD i 0 = if i = e then w else ws.getD i 0 := by
  rw [List.getD_eq_getElem?_getD, List.getElem?_set]
  by_cases h : i = e
  · subst h
    simp [he]
  · rw [if_neg (Ne.symm h), if_neg h, List.getD_eq_getElem?_getD]

/-- A store changes the bits of its word only. -/
theorem msbAt_set {e : Nat} (he : e < ws.length) (w : U64) :
    msbAt (ws.set e w) p =
      if p / 64 = e then w.getLsbD (63 - p % 64) else msbAt ws p := by
  rw [msbAt, getD_set ws he]
  by_cases h : p / 64 = e
  · rw [if_pos h, if_pos h]
  · rw [if_neg h, if_neg h, msbAt]

theorem lsbAt_set {e : Nat} (he : e < ws.length) (w : U64) :
    lsbAt (ws.set e w) p =
      if p / 64 = e then w.getLsbD (p % 64) else lsbAt ws p := by
  rw [lsbAt, getD_set ws he]
  by_cases h : p / 64 = e
  · rw [if_pos h, if_pos h]
  · rw [if_neg h, if_neg h, lsbAt]

theorem getD_replicate_zero (n i : Nat) :
    (List.replicate n (0#64 : U64)).getD i 0 = 0 := by
  rw [List.getD_eq_getElem?_getD, List.getElem?_replicate]
  split <;> rfl

theorem msbAt_zero (n : Nat) : msbAt (List.replicate n 0#64) p = false := by
  rw [msbAt, getD_replicate_zero]
  simp

theorem lsbAt_zero (n : Nat) : lsbAt (List.replicate n 0#64) p = false := by
  rw [lsbAt, getD_replicate_zero]
  simp

end

/-- A bit of word `e`. -/
theorem msbAt_word (ws : List U64) (e : Nat) {r : Nat} (hr : r < 64) :
    msbAt ws (64 * e + r) = (ws.getD e 0).getLsbD (63 - r) := by
  rw [msbAt, show (64 * e + r) / 64 = e by omega,
    show (64 * e + r) % 64 = r by omega]

theorem lsbAt_word (ws : List U64) (e : Nat) {r : Nat} (hr : r < 64) :
    lsbAt ws (64 * e + r) = (ws.getD e 0).getLsbD r := by
  rw [lsbAt, show (64 * e + r) / 64 = e by omega,
    show (64 * e + r) % 64 = r by omega]

/-! ## Fields -/

/-- The `w` bits at `p`, most significant first. -/
def msbField (ws : List U64) (p w : Nat) : U64 :=
  ofBits (fun k => decide (k < w) && msbAt ws (p + (w - 1 - k))) 64

/-- The `w` bits at `p`, least significant first. -/
def lsbField (ws : List U64) (p w : Nat) : U64 :=
  ofBits (fun k => decide (k < w) && lsbAt ws (p + k)) 64

theorem getLsbD_msbField (ws : List U64) (p w k : Nat) :
    (msbField ws p w).getLsbD k =
      (decide (k < 64) && (decide (k < w) && msbAt ws (p + (w - 1 - k)))) :=
  getLsbD_ofBits _ 64 k

theorem getLsbD_lsbField (ws : List U64) (p w k : Nat) :
    (lsbField ws p w).getLsbD k =
      (decide (k < 64) && (decide (k < w) && lsbAt ws (p + k))) :=
  getLsbD_ofBits _ 64 k

/-- A field that holds the bits of a value is the value. -/
theorem msbField_eq {ws : List U64} {p w : Nat} {v : U64}
    (hv : v.toNat < 2 ^ w)
    (h : ∀ t < w, msbAt ws (p + t) = v.getLsbD (w - 1 - t)) :
    msbField ws p w = v := by
  apply BitVec.eq_of_getLsbD_eq
  intro k hk
  rw [getLsbD_msbField]
  by_cases hkw : k < w
  · rw [h _ (by omega), show w - 1 - (w - 1 - k) = k by omega]
    simp [hk, hkw]
  · have hz : v.getLsbD k = false := Nat.testBit_lt_two_pow
      (hv.trans_le (Nat.pow_le_pow_right (by decide) (Nat.le_of_not_lt hkw)))
    simp [hkw, hz]

theorem lsbField_eq {ws : List U64} {p w : Nat} {v : U64}
    (hv : v.toNat < 2 ^ w) (h : ∀ k < w, lsbAt ws (p + k) = v.getLsbD k) :
    lsbField ws p w = v := by
  apply BitVec.eq_of_getLsbD_eq
  intro k hk
  rw [getLsbD_lsbField]
  by_cases hkw : k < w
  · rw [h _ hkw]
    simp [hk, hkw]
  · have hz : v.getLsbD k = false := Nat.testBit_lt_two_pow
      (hv.trans_le (Nat.pow_le_pow_right (by decide) (Nat.le_of_not_lt hkw)))
    simp [hkw, hz]

/-- A field depends on its words only. -/
theorem msbField_take (ws : List U64) {n p w : Nat} (h : p + w ≤ 64 * n) :
    msbField (ws.take n) p w = msbField ws p w := by
  apply BitVec.eq_of_getLsbD_eq
  intro k _
  rw [getLsbD_msbField, getLsbD_msbField]
  by_cases hkw : k < w
  · rw [msbAt, msbAt, List.getD_eq_getElem?_getD, List.getD_eq_getElem?_getD,
      List.getElem?_take_of_lt (by omega)]
  · simp [hkw]

/-- The read of a field inside one word. -/
theorem msbField_word {ws : List U64} {e s w : Nat} {mask : U64}
    (hmask : IsMask mask w) (hfit : s + w ≤ 64) :
    ((ws.getD e 0) >>> (64 - s - w)) &&& mask = msbField ws (64 * e + s) w := by
  apply BitVec.eq_of_getLsbD_eq
  intro k hk
  rw [BitVec.getLsbD_and, BitVec.getLsbD_ushiftRight, hmask k hk,
    getLsbD_msbField]
  by_cases hkw : k < w
  · rw [Nat.add_assoc, msbAt_word ws e (by omega),
      show 63 - (s + (w - 1 - k)) = 64 - s - w + k by omega]
    simp [hk, hkw]
  · simp [hkw]

theorem lsbField_word {ws : List U64} {e s w : Nat} {mask : U64}
    (hmask : IsMask mask w) (hfit : s + w ≤ 64) :
    ((ws.getD e 0) >>> s) &&& mask = lsbField ws (64 * e + s) w := by
  apply BitVec.eq_of_getLsbD_eq
  intro k hk
  rw [BitVec.getLsbD_and, BitVec.getLsbD_ushiftRight, hmask k hk,
    getLsbD_lsbField]
  by_cases hkw : k < w
  · rw [Nat.add_assoc, lsbAt_word ws e (by omega)]
    simp [hk, hkw]
  · simp [hkw]

/-- The read of a field across two words: its last `n` bits are the first
ones of the second word. -/
theorem msbField_straddle {ws : List U64} {e s w n : Nat} {mask : U64}
    (hmask : IsMask mask w) (hw : w ≤ 64) (hs : s ≤ 64) (hn : s + w = 64 + n)
    (hpos : 0 < n) :
    (((ws.getD e 0) <<< n) ||| ((ws.getD (e + 1) 0) >>> (64 - n))) &&& mask =
      msbField ws (64 * e + s) w := by
  apply BitVec.eq_of_getLsbD_eq
  intro k hk
  rw [BitVec.getLsbD_and, BitVec.getLsbD_or, BitVec.getLsbD_shiftLeft,
    BitVec.getLsbD_ushiftRight, hmask k hk, getLsbD_msbField]
  by_cases hkw : k < w
  · by_cases hkn : k < n
    · rw [show 64 * e + s + (w - 1 - k) = 64 * (e + 1) + (n - 1 - k) by omega,
        msbAt_word ws (e + 1) (by omega),
        show 63 - (n - 1 - k) = 64 - n + k by omega]
      simp [hk, hkw, hkn]
    · rw [show 64 * e + s + (w - 1 - k) = 64 * e + (s + (w - 1 - k)) by omega,
        msbAt_word ws e (by omega),
        show 63 - (s + (w - 1 - k)) = k - n by omega,
        BitVec.getLsbD_of_ge (ws.getD (e + 1) 0) (64 - n + k) (by omega)]
      simp [hk, hkw, hkn]
  · simp [hkw]

/-- The read of a field across two words that masks the first one.  The
shift count wraps when the whole field is in the second word. -/
theorem msbField_carry {ws : List U64} {e s w c n : Nat} {mask : U64}
    (hmask : IsMask mask c) (hw : w ≤ 64) (hc : s + c = 64) (hn : c + n = w)
    (hpos : 0 < n) :
    ((ws.getD e 0 &&& mask) <<< (n % 64)) ||| (ws.getD (e + 1) 0 >>> (64 - n)) =
      msbField ws (64 * e + s) w := by
  apply BitVec.eq_of_getLsbD_eq
  intro k hk
  rw [BitVec.getLsbD_or, BitVec.getLsbD_shiftLeft, BitVec.getLsbD_and,
    BitVec.getLsbD_ushiftRight, getLsbD_msbField, hmask _ (by omega)]
  by_cases hkn : k < n
  · rw [show 64 * e + s + (w - 1 - k) = 64 * (e + 1) + (n - 1 - k) by omega,
      msbAt_word ws (e + 1) (by omega),
      show 63 - (n - 1 - k) = 64 - n + k by omega]
    by_cases h64 : n = 64
    · simp [hk, show k < w by omega, show ¬ k - n % 64 < c by omega]
    · simp [hk, show k < w by omega, show k < n % 64 by omega]
  · rw [Nat.mod_eq_of_lt (by omega),
      BitVec.getLsbD_of_ge (ws.getD (e + 1) 0) (64 - n + k) (by omega)]
    by_cases hkw : k < w
    · rw [show 64 * e + s + (w - 1 - k) = 64 * e + (s + (w - 1 - k)) by omega,
        msbAt_word ws e (by omega),
        show 63 - (s + (w - 1 - k)) = k - n by omega]
      simp [hk, hkw, hkn, show k - n < c by omega]
    · simp [hk, hkw, show ¬ k - n < c by omega]

/-! ## Storing a field -/

theorem getLsbD_eq_false_of_lt {v : U64} {w k : Nat} (hv : v.toNat < 2 ^ w)
    (hk : w ≤ k) : v.getLsbD k = false :=
  Nat.testBit_lt_two_pow
    (hv.trans_le (Nat.pow_le_pow_right (by decide) hk))

/-- The store of a field inside one word. -/
theorem msbAt_store_word {ws : List U64} {e s w : Nat} {mask v : U64}
    (hmask : IsMask mask w) (hv : v.toNat < 2 ^ w) (hfit : s + w ≤ 64)
    (he : e < ws.length) (p : Nat) :
    msbAt (ws.set e ((ws.getD e 0 &&& ~~~(mask <<< (64 - s - w))) |||
        (v <<< (64 - s - w)))) p =
      if 64 * e + s ≤ p ∧ p < 64 * e + s + w then
        v.getLsbD (w - 1 - (p - (64 * e + s)))
      else msbAt ws p := by
  rw [msbAt_set ws p he]
  by_cases hp : p / 64 = e
  · have hr : p % 64 < 64 := Nat.mod_lt _ (by decide)
    have hpe : p = 64 * e + p % 64 := by omega
    rw [if_pos hp, BitVec.getLsbD_or, BitVec.getLsbD_and, BitVec.getLsbD_not,
      BitVec.getLsbD_shiftLeft, BitVec.getLsbD_shiftLeft]
    generalize p % 64 = r at hr hpe
    subst hpe
    rw [msbAt_word ws e hr, hmask _ (by omega)]
    by_cases hin : s ≤ r ∧ r < s + w
    · rw [if_pos (by omega),
        show w - 1 - (64 * e + r - (64 * e + s)) = 63 - r - (64 - s - w) by
          omega]
      simp [show 63 - r < 64 by omega, show ¬ 63 - r < 64 - s - w by omega,
        show 63 - r - (64 - s - w) < w by omega]
    · rw [if_neg (by omega)]
      by_cases hlo : 63 - r < 64 - s - w
      · simp [hlo, show 63 - r < 64 by omega]
      · rw [getLsbD_eq_false_of_lt hv (by omega)]
        simp [hlo, show 63 - r < 64 by omega,
          show ¬ 63 - r - (64 - s - w) < w by omega]
  · rw [if_neg hp, if_neg (by omega)]

theorem lsbAt_store_word {ws : List U64} {e s w : Nat} {mask v : U64}
    (hmask : IsMask mask w) (hv : v.toNat < 2 ^ w) (hfit : s + w ≤ 64)
    (he : e < ws.length) (p : Nat) :
    lsbAt (ws.set e ((ws.getD e 0 &&& ~~~(mask <<< s)) ||| (v <<< s))) p =
      if 64 * e + s ≤ p ∧ p < 64 * e + s + w then
        v.getLsbD (p - (64 * e + s))
      else lsbAt ws p := by
  rw [lsbAt_set ws p he]
  by_cases hp : p / 64 = e
  · have hr : p % 64 < 64 := Nat.mod_lt _ (by decide)
    have hpe : p = 64 * e + p % 64 := by omega
    rw [if_pos hp, BitVec.getLsbD_or, BitVec.getLsbD_and, BitVec.getLsbD_not,
      BitVec.getLsbD_shiftLeft, BitVec.getLsbD_shiftLeft]
    generalize p % 64 = r at hr hpe
    subst hpe
    rw [lsbAt_word ws e hr, hmask _ (by omega)]
    by_cases hin : s ≤ r ∧ r < s + w
    · rw [if_pos (by omega), show 64 * e + r - (64 * e + s) = r - s by omega]
      simp [hr, show ¬ r < s by omega, show r - s < w by omega]
    · rw [if_neg (by omega)]
      by_cases hlo : r < s
      · simp [hlo, hr]
      · rw [getLsbD_eq_false_of_lt hv (by omega)]
        simp [hlo, hr, show ¬ r - s < w by omega]
  · rw [if_neg hp, if_neg (by omega)]

/-- The store of a field across two words. -/
theorem msbAt_store_straddle {ws : List U64} {e s w n : Nat} {mask v : U64}
    (hmask : IsMask mask w) (hv : v.toNat < 2 ^ w) (hw : w ≤ 64)
    (hn : s + w = 64 + n) (hpos : 0 < n) (hs : s < 64)
    (he : e + 1 < ws.length) (p : Nat) :
    msbAt ((ws.set e ((ws.getD e 0 &&& ~~~(mask >>> n)) ||| (v >>> n))).set
        (e + 1) ((ws.getD (e + 1) 0 &&& (BitVec.allOnes 64 >>> n)) |||
          (v <<< (64 - n)))) p =
      if 64 * e + s ≤ p ∧ p < 64 * e + s + w then
        v.getLsbD (w - 1 - (p - (64 * e + s)))
      else msbAt ws p := by
  have hr : p % 64 < 64 := Nat.mod_lt _ (by decide)
  rw [msbAt_set _ p (by rw [List.length_set]; exact he),
    msbAt_set ws p (by omega)]
  by_cases hp : p / 64 = e + 1
  · have hpe : p = 64 * (e + 1) + p % 64 := by omega
    rw [if_pos hp, BitVec.getLsbD_or, BitVec.getLsbD_and,
      BitVec.getLsbD_ushiftRight, BitVec.getLsbD_allOnes,
      BitVec.getLsbD_shiftLeft]
    generalize p % 64 = r at hr hpe
    subst hpe
    rw [msbAt_word ws (e + 1) hr]
    by_cases hin : r < n
    · rw [if_pos (by omega),
        show w - 1 - (64 * (e + 1) + r - (64 * e + s)) = 63 - r - (64 - n) by
          omega]
      simp [show 63 - r < 64 by omega, show ¬ n + (63 - r) < 64 by omega,
        show ¬ 63 - r < 64 - n by omega]
    · rw [if_neg (by omega)]
      simp [show 63 - r < 64 by omega, show n + (63 - r) < 64 by omega,
        show 63 - r < 64 - n by omega]
  · rw [if_neg hp]
    by_cases hp' : p / 64 = e
    · have hpe : p = 64 * e + p % 64 := by omega
      rw [if_pos hp', BitVec.getLsbD_or, BitVec.getLsbD_and,
        BitVec.getLsbD_not, BitVec.getLsbD_ushiftRight,
        BitVec.getLsbD_ushiftRight]
      generalize p % 64 = r at hr hpe
      subst hpe
      rw [msbAt_word ws e hr]
      by_cases hin : s ≤ r
      · rw [if_pos (by omega), hmask _ (by omega),
          show w - 1 - (64 * e + r - (64 * e + s)) = n + (63 - r) by omega]
        simp [show 63 - r < 64 by omega, show n + (63 - r) < w by omega]
      · have hmaskz : mask.getLsbD (n + (63 - r)) = false := by
          by_cases h64 : n + (63 - r) < 64
          · rw [hmask _ h64]
            simp
            omega
          · exact BitVec.getLsbD_of_ge mask _ (by omega)
        rw [if_neg (by omega), hmaskz, getLsbD_eq_false_of_lt hv (by omega)]
        simp [show 63 - r < 64 by omega]
    · rw [if_neg hp', if_neg (by omega)]

/-! ## The tape of a list of values -/

/-- Bit `p` of the values `vs`, of `w` bits each, most significant first. -/
def valueAt (vs : List U64) (w p : Nat) : Bool :=
  (vs.getD (p / w) 0).getLsbD (w - 1 - p % w)

/-- The tape of the words starts with the tape of the values. -/
def MsbPacks (ws : List U64) (w : Nat) (vs : List U64) : Prop :=
  ∀ p < vs.length * w, msbAt ws p = valueAt vs w p

section

variable {vs us : List U64} {w : Nat}

theorem valueAt_mul_add (vs : List U64) (i : Nat) {t : Nat} (ht : t < w) :
    valueAt vs w (i * w + t) = (vs.getD i 0).getLsbD (w - 1 - t) := by
  rw [valueAt, Nat.mul_comm, Nat.mul_add_div (by omega), Nat.div_eq_of_lt ht,
    Nat.add_zero, Nat.mul_add_mod, Nat.mod_eq_of_lt ht]

theorem valueAt_set {i : Nat} (hi : i < vs.length) (v : U64) (p : Nat) :
    valueAt (vs.set i v) w p =
      if p / w = i then v.getLsbD (w - 1 - p % w) else valueAt vs w p := by
  rw [valueAt, getD_set vs hi]
  split
  · rfl
  · rfl

theorem valueAt_drop (hw : 0 < w) (vs : List U64) (i p : Nat) :
    valueAt (vs.drop i) w p = valueAt vs w (i * w + p) := by
  rw [valueAt, valueAt, List.getD_eq_getElem?_getD,
    List.getD_eq_getElem?_getD, List.getElem?_drop, Nat.mul_comm,
    Nat.mul_add_div hw, Nat.mul_add_mod]

theorem valueAt_take (vs : List U64) {n p : Nat} (h : p < n * w) :
    valueAt (vs.take n) w p = valueAt vs w p := by
  have hlt : p / w < n := Nat.div_lt_of_lt_mul (by rwa [Nat.mul_comm] at h)
  rw [valueAt, valueAt, List.getD_eq_getElem?_getD,
    List.getElem?_take_of_lt hlt, ← List.getD_eq_getElem?_getD]

theorem valueAt_replicate {n p : Nat} (v : U64) (h : p < n * w) :
    valueAt (List.replicate n v) w p = v.getLsbD (w - 1 - p % w) := by
  have hlt : p / w < n := Nat.div_lt_of_lt_mul (by rwa [Nat.mul_comm] at h)
  rw [valueAt, List.getD_eq_getElem?_getD, List.getElem?_replicate,
    if_pos hlt, Option.getD_some]

theorem valueAt_splice (hw : 0 < w) {i : Nat}
    (h : i + us.length ≤ vs.length) (p : Nat) :
    valueAt (splice vs i us) w p =
      if i * w ≤ p ∧ p < (i + us.length) * w then valueAt us w (p - i * w)
      else valueAt vs w p := by
  have hge : i * w ≤ p ↔ i ≤ p / w := (Nat.le_div_iff_mul_le hw).symm
  have hlt : p < (i + us.length) * w ↔ p / w < i + us.length :=
    (Nat.div_lt_iff_lt_mul hw).symm
  simp only [hge, hlt]
  rw [valueAt, List.getD_eq_getElem?_getD, getElem?_splice h]
  by_cases hp : i ≤ p / w ∧ p / w < i + us.length
  · have hsub : p = (p - i * w) + i * w := by
      rw [Nat.sub_add_cancel (hge.2 hp.1)]
    have hdiv : p / w = (p - i * w) / w + i := by
      conv_lhs => rw [hsub, Nat.add_mul_div_right _ _ hw]
    have hmod : (p - i * w) % w = p % w := by
      conv_rhs => rw [hsub, Nat.add_mul_mod_self_right]
    rw [if_pos hp, if_pos hp, valueAt, hmod, List.getD_eq_getElem?_getD,
      show p / w - i = (p - i * w) / w by omega]
  · rw [if_neg hp, if_neg hp, valueAt, List.getD_eq_getElem?_getD]

/-- The tape of a list with a run of one value. -/
theorem valueAt_fill (hw : 0 < w) {i n : Nat} (h : i + n ≤ vs.length)
    (v : U64) (p : Nat) :
    valueAt (splice vs i (List.replicate n v)) w p =
      if i * w ≤ p ∧ p < (i + n) * w then v.getLsbD (w - 1 - p % w)
      else valueAt vs w p := by
  rw [valueAt_splice hw (by rwa [List.length_replicate]),
    List.length_replicate]
  by_cases hp : i * w ≤ p ∧ p < (i + n) * w
  · have hlt := hp.2
    rw [Nat.add_mul] at hlt
    rw [if_pos hp, if_pos hp, valueAt_replicate v (by omega), Nat.mul_comm i w,
      Nat.sub_mul_mod (by rw [Nat.mul_comm]; exact hp.1)]
  · rw [if_neg hp, if_neg hp]

/-- The tape from a value on that starts a word. -/
theorem MsbPacks.drop {ws : List U64} (h : MsbPacks ws w vs) (hw : 0 < w)
    {i e : Nat} (hi : i * w = 64 * e) :
    MsbPacks (ws.drop e) w (vs.drop i) := by
  intro p hp
  rw [List.length_drop, Nat.sub_mul] at hp
  rw [msbAt_drop, valueAt_drop hw, hi, h _ (by omega)]

theorem msbField_lt (ws : List U64) (p w : Nat) :
    (msbField ws p w).toNat < 2 ^ w := by
  apply Nat.lt_pow_two_of_testBit
  intro k hk
  rw [BitVec.testBit_toNat, getLsbD_msbField]
  simp [show ¬ k < w by omega]

/-- Every tape packs the values that it reads as. -/
theorem msbPacks_fields (ws : List U64) (hw : 0 < w) (hw' : w ≤ 64) (n : Nat) :
    MsbPacks ws w ((List.range n).map fun i => msbField ws (i * w) w) := by
  intro p hp
  rw [List.length_map, List.length_range] at hp
  have hlt : p / w < n := Nat.div_lt_of_lt_mul (by rwa [Nat.mul_comm] at hp)
  have hmod := Nat.mod_lt p hw
  have hdm := Nat.div_add_mod p w
  rw [valueAt, List.getD_eq_getElem?_getD, List.getElem?_map,
    List.getElem?_range hlt, Option.map_some, Option.getD_some,
    getLsbD_msbField, show w - 1 - (w - 1 - p % w) = p % w by omega,
    Nat.mul_comm, hdm]
  simp [show w - 1 - p % w < 64 by omega, show w - 1 - p % w < w by omega]

/-- A value that fits its width is read back. -/
theorem MsbPacks.field {ws : List U64} {i : Nat} {v : U64}
    (h : MsbPacks ws w vs) (hi : vs[i]? = some v) (hv : v.toNat < 2 ^ w) :
    msbField ws (i * w) w = v := by
  have hlt : i < vs.length := (List.getElem?_eq_some_iff.1 hi).1
  have hmul : (i + 1) * w ≤ vs.length * w := Nat.mul_le_mul_right w hlt
  rw [Nat.add_mul, Nat.one_mul] at hmul
  refine msbField_eq hv fun t ht => ?_
  rw [h _ (by omega), valueAt_mul_add vs i ht, List.getD_eq_getElem?_getD, hi,
    Option.getD_some]

end

/-! ## Words that hold whole values -/

/-- Word `e` holds the values from `e * per` on, `w` bits each, the first one
in its least significant bits. -/
def LsbBlocks (ws : List U64) (w per : Nat) (vs : List U64) : Prop :=
  ∀ i v, vs[i]? = some v → ∀ k < w,
    lsbAt ws (64 * (i / per) + i % per * w + k) = v.getLsbD k

/-- Value `j` of a word lies inside the word. -/
theorem slot_le {per w j : Nat} (hper : per * w ≤ 64) (hj : j < per) :
    j * w + w ≤ 64 := by
  have := Nat.mul_le_mul_right w hj
  rw [Nat.succ_mul] at this
  omega

theorem slot_div {per i j : Nat} (hj : j < per) : (i * per + j) / per = i := by
  rw [Nat.mul_comm, Nat.mul_add_div (by omega), Nat.div_eq_of_lt hj,
    Nat.add_zero]

theorem slot_mod {per i j : Nat} (hj : j < per) : (i * per + j) % per = j := by
  rw [Nat.mul_comm, Nat.mul_add_mod, Nat.mod_eq_of_lt hj]

/-- The words from a boundary on. -/
theorem LsbBlocks.drop {ws vs : List U64} {w per : Nat}
    (h : LsbBlocks ws w per vs) (hper : 0 < per) (e : Nat) :
    LsbBlocks (ws.drop e) w per (vs.drop (e * per)) := by
  intro i v hi k hk
  rw [List.getElem?_drop] at hi
  have hbit := h _ v hi k hk
  rw [Nat.mul_comm e per, Nat.mul_add_div hper, Nat.mul_add_mod] at hbit
  rw [lsbAt_drop, ← hbit]
  congr 1
  omega

/-- The words of a store are those of the list with the value. -/
theorem LsbBlocks.store {ws vs : List U64} {w per i : Nat} {mask v : U64}
    (h : LsbBlocks ws w per vs) (hmask : IsMask mask w) (hv : v.toNat < 2 ^ w)
    (hper : per * w ≤ 64) (hpos : 0 < per) (hi : i / per < ws.length) :
    LsbBlocks (ws.set (i / per) ((ws.getD (i / per) 0 &&&
      ~~~(mask <<< (i % per * w))) ||| (v <<< (i % per * w)))) w per
      (vs.set i v) := by
  intro j u hj k hk
  have hfit := slot_le hper (Nat.mod_lt i hpos)
  have hfit' := slot_le hper (Nat.mod_lt j hpos)
  rw [lsbAt_store_word hmask hv hfit hi]
  rw [List.getElem?_set] at hj
  by_cases hij : i = j
  · subst hij
    rw [if_pos rfl] at hj
    split at hj
    · rw [if_pos (by omega), Nat.add_sub_cancel_left, Option.some.inj hj]
    · cases hj
  · rw [if_neg hij] at hj
    rw [if_neg, h j u hj k hk]
    rintro ⟨h1, h2⟩
    have hword : i / per = j / per := by omega
    have hslot : i % per ≠ j % per := by
      intro hslot
      apply hij
      rw [← Nat.div_add_mod i per, ← Nat.div_add_mod j per, hword, hslot]
    rcases Nat.lt_or_gt_of_ne hslot with hlt | hlt
    · have := Nat.mul_le_mul_right w hlt
      rw [Nat.succ_mul] at this
      omega
    · have := Nat.mul_le_mul_right w hlt
      rw [Nat.succ_mul] at this
      omega

/-- Words that replace the tail from word `e` on, where they hold the values
`us` in their first `n` words and what was there behind them. -/
theorem LsbBlocks.splice {ws words vs us : List U64} {w per e n : Nat}
    (h : LsbBlocks ws w per vs) (hwords : LsbBlocks words w per us)
    (hrest : ∀ p, 64 * n ≤ p → lsbAt words p = lsbAt ws (64 * e + p))
    (hus : us.length = n * per) (hlen : e * per + us.length ≤ vs.length)
    (he : e ≤ ws.length) (hper : per * w ≤ 64) (hpos : 0 < per) :
    LsbBlocks (ws.take e ++ words) w per (RustSem.splice vs (e * per) us) := by
  intro j v hj k hk
  have hslot := slot_le hper (Nat.mod_lt j hpos)
  rw [getElem?_splice hlen] at hj
  rw [lsbAt_take_append _ _ _ he]
  by_cases hlo : j < e * per
  · have hword : j / per < e := (Nat.div_lt_iff_lt_mul hpos).2 hlo
    rw [if_neg (by omega)] at hj
    rw [if_pos (by omega), h j v hj k hk]
  · have hword : e ≤ j / per := (Nat.le_div_iff_mul_le hpos).2 (by omega)
    rw [if_neg (by omega)]
    by_cases hhi : j < e * per + us.length
    · rw [if_pos (by omega)] at hj
      have hbit := hwords _ v hj k hk
      rw [Nat.mul_comm e per, Nat.sub_mul_div, Nat.sub_mul_mod
        (by rw [Nat.mul_comm]; omega)] at hbit
      rw [← hbit]
      congr 1
      omega
    · have hbehind : e + n ≤ j / per := by
        rw [Nat.le_div_iff_mul_le hpos, Nat.add_mul]
        omega
      rw [if_neg (by omega)] at hj
      rw [hrest _ (by omega), ← h j v hj k hk]
      congr 1
      omega

/-- A value that fits its width is read back. -/
theorem LsbBlocks.field {ws vs : List U64} {w per i : Nat} {v : U64}
    (h : LsbBlocks ws w per vs) (hi : vs[i]? = some v)
    (hv : v.toNat < 2 ^ w) :
    lsbField ws (64 * (i / per) + i % per * w) w = v :=
  lsbField_eq hv fun k hk => h i v hi k hk

end WordTape
