import LuceneRust.RustSem.Bytes

/-!
# Bit streams over bytes

A byte string read as one stream of bits, the least significant bit of each
byte first.  `bitAt` is one bit of the stream and `field` the word that
stands at a bit position.

* `window_eq_field` is the read that packed readers make: load some bytes,
  shift the word down to the position, mask it to the width.
* `field_append_left` and `field_drop` move a field along the stream.
* `Packs bs w vs` says that the stream starts with the values `vs`, `w` bits
  each; `Packs.field` reads one of them back.
-/

namespace BitStream

open RustSem

/-- Bit `p` of the stream. -/
def bitAt (bs : List U8) (p : Nat) : Bool :=
  (bs.getD (p / 8) 0).getLsbD (p % 8)

/-- The word of the `w` bits at `p`. -/
def field (bs : List U8) (p w : Nat) : U64 :=
  ofBits (fun j => decide (j < w) && bitAt bs (p + j)) 64

theorem getLsbD_field (bs : List U8) (p w j : Nat) :
    (field bs p w).getLsbD j =
      (decide (j < 64) && (decide (j < w) && bitAt bs (p + j))) :=
  getLsbD_ofBits _ 64 j

/-! ## Bits of joined and cut streams -/

theorem bitAt_append_left {a b : List U8} {p : Nat} (h : p < 8 * a.length) :
    bitAt (a ++ b) p = bitAt a p := by
  rw [bitAt, bitAt, List.getD_append _ _ _ _ (by omega)]

theorem bitAt_append_right (a b : List U8) (p : Nat) :
    bitAt (a ++ b) (8 * a.length + p) = bitAt b p := by
  rw [bitAt, bitAt, List.getD_append_right _ _ _ _ (by omega),
    show (8 * a.length + p) / 8 - a.length = p / 8 by omega,
    show (8 * a.length + p) % 8 = p % 8 by omega]

theorem bitAt_drop (bs : List U8) (n p : Nat) :
    bitAt (bs.drop n) p = bitAt bs (8 * n + p) := by
  rw [bitAt, bitAt, List.getD_eq_getElem?_getD, List.getD_eq_getElem?_getD,
    List.getElem?_drop, show (8 * n + p) / 8 = n + p / 8 by omega,
    show (8 * n + p) % 8 = p % 8 by omega]

theorem bitAt_take {bs : List U8} {n p : Nat} (h : p < 8 * n) :
    bitAt (bs.take n) p = bitAt bs p := by
  rw [bitAt, bitAt, List.getD_eq_getElem?_getD, List.getD_eq_getElem?_getD,
    List.getElem?_take_of_lt (by omega)]

theorem bitAt_toLeBytes {w n p : Nat} (v : BitVec w) (h : p < 8 * n) :
    bitAt (toLeBytes n v) p = v.getLsbD p := by
  rw [bitAt, toLeBytes_getD n v (by omega), BitVec.getLsbD_extractLsb',
    Nat.div_add_mod]
  simp [Nat.mod_lt]

theorem getLsbD_word (bs : List U8) (i : Nat) :
    (fromLeBytes 64 bs).getLsbD i = (decide (i < 64) && bitAt bs i) :=
  getLsbD_fromLeBytes 64 bs i

/-! ## Fields -/

theorem field_congr {as bs : List U8} {p q w : Nat}
    (h : ∀ j < w, bitAt as (p + j) = bitAt bs (q + j)) :
    field as p w = field bs q w := by
  apply BitVec.eq_of_getLsbD_eq
  intro j _
  rw [getLsbD_field, getLsbD_field]
  by_cases hj : j < w
  · rw [h j hj]
  · simp [hj]

theorem field_append_left {a b : List U8} {p w : Nat}
    (h : p + w ≤ 8 * a.length) : field (a ++ b) p w = field a p w :=
  field_congr fun j hj => bitAt_append_left (by omega)

theorem field_drop (bs : List U8) (n p w : Nat) :
    field (bs.drop n) p w = field bs (8 * n + p) w :=
  field_congr fun j _ => by rw [bitAt_drop, Nat.add_assoc]

/-- The mask of a width: its bits below `w`. -/
def IsMask (mask : U64) (w : Nat) : Prop :=
  ∀ j < 64, mask.getLsbD j = decide (j < w)

theorem IsMask.toNat_eq {mask : U64} {w : Nat} (h : IsMask mask w)
    (hw : w ≤ 64) : mask.toNat = 2 ^ w - 1 := by
  apply Nat.eq_of_testBit_eq
  intro j
  rw [Nat.testBit_two_pow_sub_one, BitVec.testBit_toNat]
  by_cases hj : j < 64
  · exact h j hj
  · rw [BitVec.getLsbD_of_ge mask j (by omega)]
    simp
    omega

/-- Load `n` bytes, shift the word down and mask it: the field that starts
`s` bits into the bytes, as long as it lies inside the word and the bytes. -/
theorem window_eq_field {bs : List U8} {byte n s w : Nat} {mask : U64}
    (hmask : IsMask mask w) (h64 : s + w ≤ 64) (hn : s + w ≤ 8 * n) :
    (fromLeBytes 64 ((bs.drop byte).take n) >>> s) &&& mask =
      field bs (8 * byte + s) w := by
  apply BitVec.eq_of_getLsbD_eq
  intro j hj
  rw [BitVec.getLsbD_and, BitVec.getLsbD_ushiftRight, getLsbD_word,
    hmask j hj, getLsbD_field]
  by_cases hw : j < w
  · rw [bitAt_take (by omega), bitAt_drop, Nat.add_assoc]
    simp [hw, hj, show s + j < 64 by omega]
  · simp [hw]

/-! ## Packed values -/

/-- The stream starts with the values `vs`, of `w` bits each. -/
def Packs (bs : List U8) (w : Nat) (vs : List U64) : Prop :=
  ∀ i v, vs[i]? = some v → ∀ j < w, bitAt bs (i * w + j) = v.getLsbD j

/-- A value that fits its width is read back. -/
theorem Packs.field {bs : List U8} {w i : Nat} {vs : List U64} {v : U64}
    (h : Packs bs w vs) (hi : vs[i]? = some v) (hv : v.toNat < 2 ^ w) :
    field bs (i * w) w = v := by
  apply BitVec.eq_of_getLsbD_eq
  intro j hj
  rw [getLsbD_field]
  by_cases hw : j < w
  · rw [h i v hi j hw]
    simp [hj, hw]
  · have hz : v.getLsbD j = false := Nat.testBit_lt_two_pow
      (hv.trans_le (Nat.pow_le_pow_right (by decide) (Nat.le_of_not_lt hw)))
    simp [hw, hz]

end BitStream
