import LuceneRust.Lib.WordTape

/-!
# Bit tapes over bytes, most significant bit first

A byte string read as one tape of bits that starts at the most significant
bit of each byte.  `field` is the word whose bits stand at a position of it.

* `window_eq_field` is the read of a field out of one big-endian window.
* `Holds` is an accumulator that has read the tape up to some byte.
  `Holds.push` reads one byte more, and `Holds.field` takes a field out.
* `Packs` says that a tape starts with the values of a list, of one width;
  `Packs.field` reads one of them back.
-/

namespace ByteTape

open RustSem
open WordTape (valueAt valueAt_mul_add)
open BitStream (IsMask)

/-- Bit `p` of the tape. -/
def bitAt (bs : List U8) (p : Nat) : Bool :=
  (bs.getD (p / 8) 0).getLsbD (7 - p % 8)

/-- The `w` bits at `p`. -/
def field (bs : List U8) (p w : Nat) : U64 :=
  ofBits (fun k => decide (k < w) && bitAt bs (p + (w - 1 - k))) 64

theorem getLsbD_field (bs : List U8) (p w k : Nat) :
    (field bs p w).getLsbD k =
      (decide (k < 64) && (decide (k < w) && bitAt bs (p + (w - 1 - k)))) :=
  getLsbD_ofBits _ 64 k

/-! ## Cutting and joining -/

section

variable (bs : List U8) {p n : Nat}

theorem bitAt_byte (e : Nat) {r : Nat} (hr : r < 8) :
    bitAt bs (8 * e + r) = (bs.getD e 0).getLsbD (7 - r) := by
  rw [bitAt, show (8 * e + r) / 8 = e by omega, show (8 * e + r) % 8 = r by omega]

theorem bitAt_drop : bitAt (bs.drop n) p = bitAt bs (8 * n + p) := by
  rw [bitAt, bitAt, List.getD_eq_getElem?_getD, List.getD_eq_getElem?_getD,
    List.getElem?_drop, show (8 * n + p) / 8 = n + p / 8 by omega,
    show (8 * n + p) % 8 = p % 8 by omega]

theorem bitAt_take (h : p < 8 * n) : bitAt (bs.take n) p = bitAt bs p := by
  rw [bitAt, bitAt, List.getD_eq_getElem?_getD, List.getD_eq_getElem?_getD,
    List.getElem?_take_of_lt (by omega)]

theorem bitAt_append_left {cs : List U8} (h : p < 8 * bs.length) :
    bitAt (bs ++ cs) p = bitAt bs p := by
  rw [bitAt, bitAt, List.getD_append _ _ _ _ (by omega)]

theorem bitAt_of_le (h : 8 * bs.length ≤ p) : bitAt bs p = false := by
  rw [bitAt, List.getD_eq_default _ _ (by omega)]
  exact BitVec.getLsbD_zero

theorem bitAt_replicate_zero : bitAt (List.replicate n 0#8) p = false := by
  rw [bitAt, List.getD_eq_getElem?_getD, List.getElem?_replicate]
  split
  · exact BitVec.getLsbD_zero
  · exact BitVec.getLsbD_zero

/-- Zeros behind a tape are what stands there anyway. -/
theorem bitAt_pad : bitAt (bs ++ List.replicate n 0#8) p = bitAt bs p := by
  by_cases h : p < 8 * bs.length
  · exact bitAt_append_left bs h
  · rw [bitAt_of_le bs (by omega), bitAt, List.getD_append_right _ _ _ _ (by omega),
      List.getD_eq_getElem?_getD, List.getElem?_replicate]
    split
    · exact BitVec.getLsbD_zero
    · exact BitVec.getLsbD_zero

end

/-! ## Fields -/

theorem field_congr {as bs : List U8} {p q w : Nat}
    (h : ∀ t < w, bitAt as (p + t) = bitAt bs (q + t)) :
    field as p w = field bs q w := by
  apply BitVec.eq_of_getLsbD_eq
  intro k _
  rw [getLsbD_field, getLsbD_field]
  by_cases hk : k < w
  · rw [h _ (by omega)]
  · simp [hk]

/-- A field that holds the bits of a value is the value. -/
theorem field_eq {bs : List U8} {p w : Nat} {v : U64} (hv : v.toNat < 2 ^ w)
    (h : ∀ t < w, bitAt bs (p + t) = v.getLsbD (w - 1 - t)) :
    field bs p w = v := by
  apply BitVec.eq_of_getLsbD_eq
  intro k hk
  rw [getLsbD_field]
  by_cases hkw : k < w
  · rw [h _ (by omega), show w - 1 - (w - 1 - k) = k by omega]
    simp [hk, hkw]
  · rw [WordTape.getLsbD_eq_false_of_lt hv (by omega)]
    simp [hkw]

/-- A big-endian word of eight bytes. -/
theorem getLsbD_beWord {c : List U8} (hc : c.length = 8) {k : Nat} (hk : k < 64) :
    (fromLeBytes 64 c.reverse).getLsbD k = bitAt c (63 - k) := by
  rw [getLsbD_fromLeBytes, bitAt, List.getD_eq_getElem?_getD, List.getD_eq_getElem?_getD,
    List.getElem?_reverse (by omega), hc, show 8 - 1 - k / 8 = (63 - k) / 8 by omega,
    show 7 - (63 - k) % 8 = k % 8 by omega, decide_eq_true hk, Bool.true_and]

/-- Shift a window up to the field and down again: the field that starts `s`
bits into the window. -/
theorem window_eq_field {c : List U8} (hc : c.length = 8) {s w : Nat} (hfit : s + w ≤ 64) :
    (fromLeBytes 64 c.reverse <<< s) >>> (64 - w) = field c s w := by
  apply BitVec.eq_of_getLsbD_eq
  intro k hk
  rw [BitVec.getLsbD_ushiftRight, BitVec.getLsbD_shiftLeft, getLsbD_field]
  by_cases hw : k < w
  · rw [getLsbD_beWord hc (by omega),
      show 63 - (64 - w + k - s) = s + (w - 1 - k) by omega]
    simp [hk, hw, show 64 - w + k < 64 by omega, show ¬ 64 - w + k < s by omega]
  · simp [hw, show ¬ 64 - w + k < 64 by omega]

/-! ## Accumulators -/

/-- The low `n` bits of `acc` are the last `n` bits before position `e`. -/
def Holds {m : Nat} (acc : BitVec m) (n : Nat) (bs : List U8) (e : Nat) : Prop :=
  ∀ k < n, acc.getLsbD k = bitAt bs (e - 1 - k)

section

variable {m n at_ : Nat} {acc : BitVec m} {bs : List U8}

/-- One byte more. -/
theorem Holds.push (h : Holds acc n bs (8 * at_)) (hm : n + 8 ≤ m) :
    Holds (acc <<< 8 ||| (bs.getD at_ 0).setWidth m) (n + 8) bs (8 * (at_ + 1)) := by
  intro k hk
  rw [BitVec.getLsbD_or, BitVec.getLsbD_shiftLeft, BitVec.getLsbD_setWidth]
  by_cases h8 : k < 8
  · rw [show 8 * (at_ + 1) - 1 - k = 8 * at_ + (7 - k) by omega,
      bitAt_byte bs at_ (by omega), show 7 - (7 - k) = k by omega]
    simp [h8, show k < m by omega]
  · rw [h _ (by omega), BitVec.getLsbD_of_ge _ k (by omega),
      show 8 * at_ - 1 - (k - 8) = 8 * (at_ + 1) - 1 - k by omega]
    simp [h8, show k < m by omega]

/-- The field at the front of the accumulator. -/
theorem Holds.field {e w : Nat} (h : Holds acc n bs e) (hw : w ≤ n) (hn : n ≤ e)
    {mask : BitVec m} (hmask : ∀ k < 64, mask.getLsbD k = decide (k < w)) :
    ((acc >>> (n - w)) &&& mask).setWidth 64 = field bs (e - n) w := by
  apply BitVec.eq_of_getLsbD_eq
  intro k hk
  rw [BitVec.getLsbD_setWidth, BitVec.getLsbD_and, BitVec.getLsbD_ushiftRight,
    hmask k hk, getLsbD_field]
  by_cases hkw : k < w
  · rw [h _ (by omega), show e - 1 - (n - w + k) = e - n + (w - 1 - k) by omega]
    simp [hkw, hk]
  · simp [hkw]

end

/-! ## Packed values -/

/-- The tape starts with the tape of the values. -/
def Packs (bs : List U8) (w : Nat) (vs : List U64) : Prop :=
  ∀ p < vs.length * w, bitAt bs p = valueAt vs w p

theorem Packs.congr {bs cs : List U8} {w : Nat} {vs : List U64} (h : Packs bs w vs)
    (hcs : ∀ p < vs.length * w, bitAt cs p = bitAt bs p) : Packs cs w vs :=
  fun p hp => (hcs p hp).trans (h p hp)

/-- A value that fits its width is read back. -/
theorem Packs.field {bs : List U8} {w i : Nat} {vs : List U64} {v : U64}
    (h : Packs bs w vs) (hi : vs[i]? = some v) (hv : v.toNat < 2 ^ w) :
    field bs (i * w) w = v := by
  have hlt : i < vs.length := (List.getElem?_eq_some_iff.1 hi).1
  have hmul : (i + 1) * w ≤ vs.length * w := Nat.mul_le_mul_right w hlt
  rw [Nat.add_mul, Nat.one_mul] at hmul
  refine field_eq hv fun t ht => ?_
  rw [h _ (by omega), valueAt_mul_add vs i ht, List.getD_eq_getElem?_getD, hi,
    Option.getD_some]

/-- The fields of a tape, one after the other. -/
def fields (bs : List U8) (w n : Nat) : List U64 :=
  (List.range n).map fun i => field bs (i * w) w

theorem fields_length (bs : List U8) (w n : Nat) : (fields bs w n).length = n := by
  rw [fields, List.length_map, List.length_range]

/-- The fields of a tape that packs values are the values. -/
theorem Packs.fields {bs : List U8} {w n : Nat} {vs : List U64} (h : Packs bs w vs)
    (hfits : ∀ v ∈ vs, v.toNat < 2 ^ w) (hn : n ≤ vs.length) :
    fields bs w n = vs.take n := by
  apply List.ext_getElem?
  intro i
  rcases Nat.lt_or_ge i n with hi | hi
  · have hiv : i < vs.length := by omega
    rw [ByteTape.fields, List.getElem?_map, List.getElem?_range hi, Option.map_some,
      List.getElem?_take_of_lt hi, List.getElem?_eq_getElem hiv,
      h.field (List.getElem?_eq_getElem hiv) (hfits _ (List.getElem_mem hiv))]
  · rw [List.getElem?_eq_none (by rw [fields_length]; exact hi),
      List.getElem?_eq_none (by rw [List.length_take]; omega)]

end ByteTape
