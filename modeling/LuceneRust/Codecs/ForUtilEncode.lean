import LuceneRust.Codecs.ForUtilDecode

/-!
# The encoder of `lucene_codecs::for_util`

`encode_generic` packs the values in two loops.  The first puts as many values
into each word as fit whole, the second spells the values that are left over
the low bits of the words.  `Packs` says so, for lanes of `p` bits, in the
terms of `Unpacks`.

* `shiftPasses_spec` and `spillPasses_spec`: the two loops.
* `encodeGeneric_packs`: the words that are written pack the values.
* `slots_eq_of_packs`: unpacking what is packed gives the values back.
-/

namespace LuceneRust.Codecs.ForUtil

open RustSem LaneWord
open Store (Result writeBytes)

theorem isMask_maskFor {p m : Nat} (hp : p = 8 ∨ p = 16 ∨ p = 32) (hm : m ≤ p) :
    IsMask p m (maskFor m p) := by
  rcases hp with rfl | rfl | rfl
  · exact isMask_mask8 hm
  · exact isMask_mask16 hm
  · exact isMask_mask32 hm

/-- The words `ws` pack the values `vs`, in lanes of `p` bits. -/
structure Packs (p b : Nat) (vs ws : List U32) : Prop where
  shifted : ∀ j < p / b, ∀ i < 8 * b, ∀ q, ∀ y < b,
    lane p (slot ws i) q (p - (j + 1) * b + y) = lane p (slot vs (j * (8 * b) + i)) q y
  spilled : ∀ q, ∀ s < 8 * b * (p % b),
    streamBit p (p % b) ws q s = streamBit p b (vs.drop (p / b * (8 * b))) q s

/-! ## The values that fit whole -/

section Encode

variable {p b : Nat} {ints : List U32}

/-- The words after `j` shifts: `j` values each, and room below them. -/
def Shifted (p b : Nat) (ints : List U32) (j : Nat) (tmp : List U32) : Prop :=
  ∀ i < 8 * b, ∀ q,
    (∀ j' < j, ∀ y < b,
      lane p (slot tmp i) q (p - (j' + 1) * b + y) = lane p (slot ints (j' * (8 * b) + i)) q y) ∧
    ∀ y < p - j * b, lane p (slot tmp i) q y = false

/-- A shift puts a value below the others. -/
theorem Shifted.succ (hpw : p ∣ 32) (hb : 0 < b) {j : Nat} {tmp tmp' : List U32}
    (h : Shifted p b ints j tmp) (hj : (j + 1) * b ≤ p)
    (hfits : ∀ i < 8 * b, FitsLanes p b (slot ints (j * (8 * b) + i)))
    (htmp : ∀ i < 8 * b, slot tmp' i =
      slot tmp i ||| (slot ints (j * (8 * b) + i) <<< (p - (j + 1) * b))) :
    Shifted p b ints (j + 1) tmp' := by
  have hjb : (j + 1) * b = j * b + b := Nat.succ_mul j b
  intro i hi q
  obtain ⟨hvalues, hroom⟩ := h i hi q
  have hlane : ∀ y < p, lane p (slot tmp' i) q y = (lane p (slot tmp i) q y ||
      (decide (p - (j + 1) * b ≤ y) &&
        lane p (slot ints (j * (8 * b) + i)) q (y - (p - (j + 1) * b)))) := by
    intro y hy
    rw [htmp i hi, lane_or, lane_shiftLeft hpw (hfits i hi) (by omega) hy]
  refine ⟨?_, ?_⟩
  · intro j' hj' y hy
    have hmul := Nat.mul_le_mul_right b (show j' + 1 ≤ j + 1 by omega)
    by_cases hnew : j' = j
    · rw [hnew, hlane (p - (j + 1) * b + y) (by omega), hroom (p - (j + 1) * b + y) (by omega),
        decide_eq_true (by omega), Nat.add_sub_cancel_left]
      simp
    · have hmul' := Nat.mul_le_mul_right b (show j' + 1 ≤ j by omega)
      have hpos := Nat.zero_le (j' * b)
      have hsucc : (j' + 1) * b = j' * b + b := Nat.succ_mul j' b
      have hout := hfits i hi q (p - (j' + 1) * b + y - (p - (j + 1) * b)) (by omega) (by omega)
      rw [hlane _ (by omega), hvalues j' (by omega) y hy, hout, Bool.and_false, Bool.or_false]
  · intro y hy
    rw [hlane y (by omega), hroom y (by omega), decide_eq_false (by omega), Bool.false_and,
      Bool.false_or]

theorem slot_zipWith {f : U32 → U32 → U32} {l l' : List U32} {i : Nat} (hi : i < l.length)
    (hi' : i < l'.length) : slot (List.zipWith f l l') i = f (slot l i) (slot l' i) := by
  simp [slot, List.getD_eq_getElem?_getD, hi, hi']

theorem slot_drop (l : List U32) (n i : Nat) : slot (l.drop n) i = slot l (n + i) := by
  rw [slot, slot, List.getD_eq_getElem?_getD, List.getD_eq_getElem?_getD, List.getElem?_drop]

theorem slot_take {l : List U32} {n i : Nat} (hi : i < n) : slot (l.take n) i = slot l i := by
  rw [slot, slot, List.getD_eq_getElem?_getD, List.getD_eq_getElem?_getD,
    List.getElem?_take_of_lt hi]

/-- The second loop of `encode_generic`. -/
theorem shiftPasses_spec (hpw : p ∣ 32) (hp : p ≤ 32) (hb : 0 < b) (hints : ints.length = blockSize)
    (hfits : ∀ i < 8 * p, FitsLanes p b (slot ints i)) {tmp : List U32}
    (htmp : tmp.length = blockSize) (hbp : b ≤ p) (hfirst : Shifted p b ints 1 tmp) :
    ∃ tmp', iterate (ε := Store.Error) (shiftPass ints b (b * 8)) (p + 1)
        (b * 8, ((p - b : Nat) : Int) - b, tmp) =
          .ok (p / b * (8 * b), ((p % b : Nat) : Int) - b, tmp') ∧
      tmp'.length = blockSize ∧ Shifted p b ints (p / b) tmp' := by
  let Inv : Nat × Int × List U32 → Prop := fun s => ∃ j, j * b ≤ p ∧ s.1 = j * (8 * b) ∧
    s.2.1 = ((p - j * b : Nat) : Int) - b ∧ s.2.2.length = blockSize ∧ Shifted p b ints j s.2.2
  let Post : Nat × Int × List U32 → Prop := fun s => s.1 = p / b * (8 * b) ∧
    s.2.1 = ((p % b : Nat) : Int) - b ∧ s.2.2.length = blockSize ∧ Shifted p b ints (p / b) s.2.2
  rw [blockSize] at hints htmp
  have hstep : ∀ s, Inv s → (∃ s', shiftPass ints b (b * 8) s = .ok (.inl s') ∧ Inv s' ∧
      (s'.2.1 + b).toNat < (s.2.1 + b).toNat) ∨
      ∃ r, shiftPass ints b (b * 8) s = .ok (.inr r) ∧ Post r := by
    rintro ⟨idx, shift, tmp⟩ ⟨j, hj, hidx, hshift, hlen, hsh⟩
    simp only at hidx hshift hlen
    rw [blockSize] at hlen
    have hjb : (j + 1) * b = j * b + b := Nat.succ_mul j b
    have hj8 : j * (8 * b) = 8 * (j * b) := Nat.mul_left_comm j 8 b
    by_cases hnonneg : 0 ≤ shift
    · have hvalues : slice ints idx (idx + b * 8) = some ((ints.drop idx).take (b * 8)) := by
        rw [slice_eq_some (by omega) (by omega), Nat.add_sub_cancel_left]
      have hvlen : ((ints.drop idx).take (b * 8)).length = b * 8 := by
        rw [List.length_take, List.length_drop]
        omega
      have hzip : (List.zipWith (fun t v : U32 => t ||| (v <<< shift.toNat)) tmp
          ((ints.drop idx).take (b * 8))).length = b * 8 := by
        rw [List.length_zipWith, hvlen]
        omega
      refine .inl ⟨(idx + b * 8, shift - b, splice tmp 0 (List.zipWith
        (fun t v : U32 => t ||| (v <<< shift.toNat)) tmp ((ints.drop idx).take (b * 8)))), ?_,
        ⟨j + 1, by omega, ?_, ?_, ?_, ?_⟩, ?_⟩
      · rw [shiftPass]
        simp only [if_pos hnonneg, hvalues, expect_some, ok_bind]
      · simp only
        rw [Nat.succ_mul]
        omega
      · simp only
        omega
      · rw [splice_length (by omega), hlen, blockSize]
      · refine hsh.succ hpw hb (by omega) (fun i hi => hfits _ (by omega)) ?_
        intro i hi
        rw [slot_splice_inside (by omega) (by omega), slot_zipWith (by omega) (by omega),
          slot_take (by omega), slot_drop, hidx,
          show shift.toNat = p - (j + 1) * b by omega]
      · simp only
        omega
    · have hdiv : p / b = j := Nat.div_eq_of_lt_le (by omega) (by omega)
      have hmod : p % b = p - j * b := by
        have hdm := Nat.div_add_mod' p b
        rw [hdiv] at hdm
        omega
      refine .inr ⟨(idx, shift, tmp), ?_, ?_⟩
      · rw [shiftPass]
        simp only [if_neg hnonneg]
      · simp only [Post, hdiv, hmod, blockSize]
        exact ⟨hidx, hshift, hlen, hsh⟩
  obtain ⟨⟨idx, shift, tmp'⟩, hrun, hidx, hshift, hlen, hsh⟩ := iterate_ok
    (ε := Store.Error) (shiftPass ints b (b * 8)) Inv (fun s => (s.2.1 + b).toNat) Post hstep (p + 1)
    (b * 8, ((p - b : Nat) : Int) - b, tmp)
    ⟨1, by omega, by simp [Nat.mul_comm], by simp, htmp, hfirst⟩ (by
      simp only
      omega)
  simp only at hidx hshift hlen hsh
  rw [hidx, hshift] at hrun
  exact ⟨tmp', hrun, hlen, hsh⟩

/-! ## The values that are spelled out -/

theorem slot_set {l : List U32} {i j : Nat} {v : U32} (hi : i < l.length) :
    slot (l.set i v) j = if i = j then v else slot l j := by
  rw [slot, slot, List.getD_eq_getElem?_getD, List.getD_eq_getElem?_getD, List.getElem?_set]
  split
  · next h => simp [← h, hi]
  · rfl

/-- One turn of the last loop of `encode_generic`: the next `r` bits of the
stream of the values go to a word. -/
theorem spillPass_turn (hp : p = 8 ∨ p = 16 ∨ p = 32) {start r pos e : Nat} (hr : 0 < r)
    (hrb : r < b) (hbp : b ≤ p) {tmp : List U32} (he : e < tmp.length)
    (hlen : start + 8 * r ≤ ints.length) (hpos : pos + r ≤ 8 * r * b) :
    ∃ w, spillPass ints b p (start + 8 * r) r
        (start + pos / b, b - pos % b, e, tmp) =
          .ok (.inl (start + (pos + r) / b, b - (pos + r) % b, e + 1,
            tmp.set e (slot tmp e ||| w))) ∧
      ReadsFrom p r b (ints.drop start) pos 0 w := by
  have hpw : p ∣ 32 := by rcases hp with rfl | rfl | rfl <;> decide
  have hb : 0 < b := by omega
  obtain ⟨i, c, hic, hcb⟩ : ∃ i c, pos = i * b + c ∧ c < b :=
    ⟨pos / b, pos % b, (Nat.div_add_mod' pos b).symm, Nat.mod_lt pos hb⟩
  have hread : readerAt b pos = (i, b - c) := readerAt_eq hic hcb
  rw [readerAt, Prod.mk.injEq] at hread
  have hin : ∀ k d, k * b + d = pos + r → 0 < d → k < 8 * r := fun k d hk hd =>
    Nat.lt_of_mul_lt_mul_right (a := b) (by omega)
  have hi : i < 8 * r := hin i (c + r) (by omega) (by omega)
  have hv : ints[start + i]? = some (slot ints (start + i)) := getElem?_slot (by omega)
  have hempty : ∀ lo, r ≤ lo → ReadsFrom p r b (ints.drop start) pos lo 0#32 := by
    intro lo hlo q y hy
    rw [decide_eq_false (by omega), Bool.false_and, lane, BitVec.getLsbD_zero]
  rw [hread.1, hread.2]
  by_cases hfit : r ≤ b - c
  · refine ⟨(slot ints (start + i) >>> (b - c - r)) &&& maskFor r p, ?_, ?_⟩
    · rw [spillPass]
      simp only [show start + i < start + 8 * r from by omega, hv, getElem?_slot he, hfit,
        if_true, expect_some, ok_bind]
      by_cases hend : b - c - r = 0
      · have hnext : readerAt b (pos + r) = (i + 1, b - 0) :=
          readerAt_eq (by rw [Nat.succ_mul]; omega) hb
        rw [readerAt, Prod.mk.injEq] at hnext
        rw [if_pos hend, hnext.1, hnext.2, Nat.sub_zero, Nat.add_assoc]
      · have hnext : readerAt b (pos + r) = (i, b - (c + r)) := readerAt_eq (by omega) (by omega)
        rw [readerAt, Prod.mk.injEq] at hnext
        rw [if_neg hend, hnext.1, hnext.2, Nat.sub_sub]
    · have hor := readsFrom_or hpw (by omega) (i := i) (m := r) (c := b - c - r)
        (by omega) (by omega) (by omega) (hempty (0 + r) (by omega))
        (w := (slot ints (start + i) >>> (b - c - r)) &&& maskFor r p) (by
          intro q y hy
          rw [lane_and_mask (isMask_maskFor hp (by omega)) hy, lane_ushiftRight, slot_drop])
      rwa [BitVec.shiftLeft_zero, BitVec.zero_or] at hor
  · -- the bits of the word are the end of one value and the start of the next
    have hnext : readerAt b (pos + r) = (i + 1, b - (c + r - b)) :=
      readerAt_eq (by rw [Nat.succ_mul]; omega) (by omega)
    rw [readerAt, Prod.mk.injEq] at hnext
    have hi' : i + 1 < 8 * r := hin (i + 1) (c + r - b) (by rw [Nat.succ_mul]; omega) (by omega)
    have hv' : ints[start + i + 1]? = some (slot ints (start + i + 1)) :=
      getElem?_slot (by omega)
    refine ⟨((slot ints (start + i) &&& maskFor (b - c) p) <<< (r - (b - c))) |||
      ((slot ints (start + i + 1) >>> (b - c + (b - r))) &&& maskFor (r - (b - c)) p), ?_, ?_⟩
    · rw [spillPass]
      simp only [show start + i < start + 8 * r from by omega, hv, hv', getElem?_slot he, hfit,
        if_true, if_false, expect_some, ok_bind]
      rw [hnext.1, hnext.2, BitVec.or_assoc, show b - (c + r - b) = b - c + (b - r) by omega,
        Nat.add_assoc]
    · have hfirst := readsFrom_or hpw (by omega) (i := i) (m := b - c) (c := 0) (by omega)
        (by omega) (by omega) (hempty (r - (b - c) + (b - c)) (by omega))
        (w := slot ints (start + i) &&& maskFor (b - c) p) (by
          intro q y hy
          rw [lane_and_mask (isMask_maskFor hp (by omega)) hy, slot_drop, Nat.add_zero])
      rw [BitVec.zero_or] at hfirst
      have hboth := readsFrom_or hpw (by omega) (i := i + 1) (m := r - (b - c))
        (c := b - c + (b - r)) (by rw [Nat.succ_mul]; omega) (by omega) (by omega)
        ((Nat.zero_add (r - (b - c))).symm ▸ hfirst)
        (w := (slot ints (start + i + 1) >>> (b - c + (b - r))) &&& maskFor (r - (b - c)) p) (by
          intro q y hy
          rw [lane_and_mask (isMask_maskFor hp (by omega)) hy, lane_ushiftRight, slot_drop,
            Nat.add_assoc])
      rwa [BitVec.shiftLeft_zero, Nat.zero_add] at hboth

/-- The words after `e` turns: the first `e` of them spell out the stream in
their lowest `r` bits, and the others have room there. -/
structure Spilled (p b r n : Nat) (vs tmp₀ : List U32) (e : Nat) (tmp : List U32) : Prop where
  length : tmp.length = blockSize
  high : ∀ i q y, r ≤ y → y < p → lane p (slot tmp i) q y = lane p (slot tmp₀ i) q y
  spelled : ∀ i < e, ∀ q, ∀ y < r,
    lane p (slot tmp i) q y = streamBit p b vs q (i * r + (r - 1 - y))
  room : ∀ i, e ≤ i → i < n → ∀ q, ∀ y < r, lane p (slot tmp i) q y = false

theorem Spilled.succ {r n e : Nat} {vs tmp₀ tmp : List U32} {w : U32}
    (h : Spilled p b r n vs tmp₀ e tmp) (he : e < n) (hn : n ≤ blockSize) (hrp : r ≤ p)
    (hw : ReadsFrom p r b vs (e * r) 0 w) :
    Spilled p b r n vs tmp₀ (e + 1) (tmp.set e (slot tmp e ||| w)) := by
  have hlen := h.length
  refine ⟨by rw [List.length_set, hlen], ?_, ?_, ?_⟩
  · intro i q y hr hy
    rw [slot_set (by omega), ← h.high i q y hr hy]
    split
    · next heq =>
        rw [heq, lane_or, hw q y hy, decide_eq_false (by omega), Bool.false_and, Bool.or_false]
    · rfl
  · intro i hi q y hy
    rw [slot_set (by omega)]
    split
    · next heq =>
        rw [← heq, lane_or, hw q y (by omega), h.room e (Nat.le_refl e) he q y hy,
          decide_eq_true (by omega), Bool.true_and, Bool.false_or]
    · exact h.spelled i (by omega) q y hy
  · intro i hei hi q y hy
    rw [slot_set (by omega), if_neg (by omega)]
    exact h.room i (by omega) hi q y hy

/-- The last loop of `encode_generic`. -/
theorem spillPasses_spec (hp : p = 8 ∨ p = 16 ∨ p = 32) {start r : Nat} (hrb : r < b) (hbp : b ≤ p)
    {tmp : List U32} (htmp : tmp.length = blockSize) (hlen : start + 8 * r ≤ ints.length)
    (hroom : ∀ i < 8 * b, ∀ q, ∀ y < r, lane p (slot tmp i) q y = false) :
    ∃ tmp', iterate (ε := Store.Error) (spillPass ints b p (start + 8 * r) r) (blockSize + 1)
        (start, b, 0, tmp) = .ok tmp' ∧
      Spilled p b r (8 * b) (ints.drop start) tmp (if r = 0 then 0 else 8 * b) tmp' := by
  have hstart : Spilled p b r (8 * b) (ints.drop start) tmp 0 tmp :=
    ⟨htmp, fun _ _ _ _ _ => rfl, fun i hi => absurd hi (Nat.not_lt_zero i),
      fun i _ hi q y hy => hroom i hi q y hy⟩
  by_cases hr : r = 0
  · subst hr
    refine ⟨tmp, iterate_leave ?_, by simpa using hstart⟩
    rw [spillPass]
    simp
  rw [if_neg hr]
  have hsize : 8 * b ≤ blockSize := by
    rw [blockSize]
    omega
  let Inv : Nat × Nat × Nat × List U32 → Prop := fun s => ∃ e ≤ 8 * b,
    s.1 = start + e * r / b ∧ s.2.1 = b - e * r % b ∧ s.2.2.1 = e ∧
      Spilled p b r (8 * b) (ints.drop start) tmp e s.2.2.2
  have hstep : ∀ s, Inv s → (∃ s', spillPass ints b p (start + 8 * r) r s = .ok (.inl s') ∧
      Inv s' ∧ 8 * b - s'.2.2.1 < 8 * b - s.2.2.1) ∨
      ∃ tmp', spillPass ints b p (start + 8 * r) r s = .ok (.inr tmp') ∧
        Spilled p b r (8 * b) (ints.drop start) tmp (8 * b) tmp' := by
    rintro ⟨idx, remaining, tmpIdx, t⟩ ⟨e, he, hidx, hremaining, htmpIdx, hspilled⟩
    simp only at hidx hremaining htmpIdx hspilled
    subst hidx hremaining htmpIdx
    rcases Nat.lt_or_eq_of_le he with hlt | rfl
    · have hpos : tmpIdx * r + r ≤ 8 * r * b := by
        have hmul := Nat.mul_le_mul_right r (Nat.succ_le_of_lt hlt)
        rwa [Nat.succ_mul, Nat.mul_right_comm 8 b r] at hmul
      have hin : tmpIdx < t.length := by
        rw [hspilled.length]
        omega
      obtain ⟨w, hturn, hw⟩ := spillPass_turn hp (Nat.pos_of_ne_zero hr) hrb hbp hin hlen hpos
      rw [← Nat.succ_mul] at hturn
      exact .inl ⟨_, hturn, ⟨tmpIdx + 1, hlt, rfl, rfl, rfl,
        hspilled.succ hlt hsize (by omega) hw⟩, by
          simp only
          omega⟩
    · have hdiv : 8 * b * r / b = 8 * r := by
        rw [Nat.mul_right_comm, Nat.mul_div_cancel _ (by omega)]
      refine .inr ⟨t, ?_, hspilled⟩
      rw [spillPass, hdiv]
      simp
  obtain ⟨tmp', hrun, hspilled⟩ := iterate_ok (ε := Store.Error)
    (spillPass ints b p (start + 8 * r) r) Inv (fun s => 8 * b - s.2.2.1) _ hstep (blockSize + 1)
    (start, b, 0, tmp) ⟨0, Nat.zero_le _, by simp, by simp, rfl, hstart⟩ (by
      simp only
      omega)
  exact ⟨tmp', hrun, hspilled⟩

/-! ## `encode_generic` -/

/-- The words go to the output one after another. -/
theorem writeChunks_eq (words : List U32) (out : List U8) :
    (chunks 16 words).foldl (fun out words => writeBytes out (words.flatMap (toLeBytes 4))) out =
      out ++ words.flatMap (toLeBytes 4) := by
  have hfold : ∀ (parts : List (List U32)) (out : List U8),
      parts.foldl (fun out words => writeBytes out (words.flatMap (toLeBytes 4))) out =
        out ++ parts.flatten.flatMap (toLeBytes 4) := by
    intro parts
    induction parts with
    | nil => simp
    | cons part parts ih =>
      intro out
      rw [List.foldl_cons, ih, writeBytes, List.flatten_cons, List.flatMap_append,
        List.append_assoc]
  rw [hfold, chunks_flatten (by decide)]

theorem encodeGeneric_packs (hp : p = 8 ∨ p = 16 ∨ p = 32) (hb : 0 < b) (hbp : b ≤ p)
    (hints : ints.length = blockSize) (hfits : ∀ i < 8 * p, FitsLanes p b (slot ints i))
    (out : List U8) {tmp : List U32} (htmp : tmp.length = blockSize) :
    ∃ ws tmp', encodeGeneric ints b p out tmp = .ok (out ++ ws.flatMap (toLeBytes 4), tmp') ∧
      ws.length = 8 * b ∧ Packs p b ints ws := by
  have hpw : p ∣ 32 := by rcases hp with rfl | rfl | rfl <;> decide
  have hp32 : p ≤ 32 := by omega
  have hnum : blockSize * p / 32 = p / b * (8 * b) + 8 * (p % b) := by
    have hdm := Nat.div_add_mod' p b
    have h8 : p / b * (8 * b) = 8 * (p / b * b) := Nat.mul_left_comm (p / b) 8 b
    rw [blockSize]
    omega
  have hfit : p / b * (8 * b) + 8 * (p % b) ≤ 256 := by
    rw [← hnum, blockSize]
    omega
  rw [blockSize] at hints htmp
  have hvalues : slice ints 0 (b * 8) = some (ints.take (b * 8)) := by
    rw [slice_eq_some (by omega) (by omega)]
    rfl
  -- the first shift overwrites what the buffer held
  obtain ⟨tmp₁, htmp₁⟩ : ∃ tmp₁, tmp₁ =
      splice tmp 0 ((ints.take (b * 8)).map fun v : U32 => v <<< (p - b)) := ⟨_, rfl⟩
  have hmap : ((ints.take (b * 8)).map fun v : U32 => v <<< (p - b)).length = b * 8 := by
    rw [List.length_map, List.length_take]
    omega
  have hlen₁ : tmp₁.length = blockSize := by
    rw [htmp₁, splice_length (by omega), htmp, blockSize]
  have hfirst : Shifted p b ints 1 tmp₁ := by
    have hempty : ∀ i, slot [] i = 0#32 := fun i => rfl
    have hzero : Shifted p b ints 0 [] := by
      intro i hi q
      refine ⟨fun j hj => absurd hj (Nat.not_lt_zero j), ?_⟩
      intro y _
      rw [hempty, lane, BitVec.getLsbD_zero]
    refine hzero.succ hpw hb (by omega) (fun i hi => hfits _ (by omega)) ?_
    intro i hi
    rw [htmp₁, slot_splice_inside (by omega) (by omega), slot_map _ (by
      rw [List.length_take]
      omega), slot_take (by omega), hempty, BitVec.zero_or, Nat.zero_mul, Nat.zero_add,
      Nat.zero_add, Nat.one_mul]
  obtain ⟨tmp₂, hshift, hlen₂, hshifted⟩ := shiftPasses_spec hpw hp32 hb hints hfits hlen₁ hbp hfirst
  have hdm := Nat.div_add_mod' p b
  have hroom : p / b * (8 * b) + 8 * (p % b) ≤ ints.length := by omega
  obtain ⟨tmp₃, hspill, hspilled⟩ := spillPasses_spec hp (Nat.mod_lt p hb) hbp hlen₂
    hroom (by
      intro i hi q y hy
      exact (hshifted i hi q).2 y (by omega))
  have hlen₃ := hspilled.length
  rw [blockSize] at hlen₃
  have hwords : slice tmp₃ 0 (b * 8) = some (tmp₃.take (b * 8)) := by
    rw [slice_eq_some (by omega) (by omega)]
    rfl
  refine ⟨tmp₃.take (b * 8), tmp₃, ?_, by rw [List.length_take]; omega, ?_, ?_⟩
  · rw [encodeGeneric]
    simp only [sub_of_le hbp, ok_bind, hvalues, expect_some, ← htmp₁, hshift,
      Int.sub_add_cancel, Int.toNat_natCast, hnum, hspill, hwords, writeChunks_eq]
  · intro j hj i hi q y hy
    have hmul := Nat.mul_le_mul_right b (show j + 1 ≤ p / b from hj)
    have hsucc : (j + 1) * b = j * b + b := Nat.succ_mul j b
    rw [slot_take (by omega), hspilled.high i q (p - (j + 1) * b + y) (by omega) (by omega)]
    exact (hshifted i hi q).1 j hj y hy
  · intro q s hs
    have hr : 0 < p % b := Nat.pos_of_ne_zero (by
      intro h
      rw [h] at hs
      exact absurd hs (Nat.not_lt_zero s))
    rw [if_neg (by omega)] at hspilled
    have hmod := Nat.mod_lt s hr
    have hi := (Nat.div_lt_iff_lt_mul hr).2 hs
    rw [streamBit]
    have hbit := hspilled.spelled (s / (p % b)) hi q (p % b - 1 - s % (p % b)) (by omega)
    rw [show p % b - 1 - (p % b - 1 - s % (p % b)) = s % (p % b) by omega,
      Nat.div_add_mod'] at hbit
    rw [← hbit, ← slot_take (show s / (p % b) < b * 8 by omega)]
    rfl

/-- Unpacking what is packed gives the values back. -/
theorem slots_eq_of_packs (hb : 0 < b) (hbp : b ≤ p) {ws ds : List U32} (hpacks : Packs p b ints ws)
    (hunpacks : Unpacks p b ws ds) (hfits : ∀ i < 8 * p, FitsLanes p b (slot ints i)) :
    ∀ m < 8 * p, slot ds m = slot ints m := by
  intro m hm
  have hdm := Nat.div_add_mod' p b
  have h8 : p / b * (8 * b) = 8 * (p / b * b) := Nat.mul_left_comm (p / b) 8 b
  refine ext_lanes (p := p) (by omega) ?_
  intro q y hy
  by_cases hlt : m < p / b * (8 * b)
  · -- a value that fits whole
    obtain ⟨j, i, rfl, hi⟩ : ∃ j i, m = j * (8 * b) + i ∧ i < 8 * b :=
      ⟨m / (8 * b), m % (8 * b), (Nat.div_add_mod' m _).symm, Nat.mod_lt m (by omega)⟩
    have hj : j < p / b := Nat.lt_of_mul_lt_mul_right (a := 8 * b) (by omega)
    rw [hunpacks.shifted j hj i hi q y hy]
    by_cases hyb : y < b
    · rw [hpacks.shifted j hj i hi q y hyb, decide_eq_true hyb, Bool.true_and]
    · rw [decide_eq_false hyb, Bool.false_and, hfits _ hm q y (by omega) hy]
  · -- a value off the stream
    obtain ⟨m, rfl⟩ : ∃ k, m = p / b * (8 * b) + k := ⟨m - p / b * (8 * b), by omega⟩
    rw [hunpacks.spilled m (by omega) q y hy]
    by_cases hyb : y < b
    · have hend : m * b + b ≤ 8 * b * (p % b) := by
        have hmul := Nat.mul_le_mul_right b (show m + 1 ≤ 8 * (p % b) by omega)
        rw [Nat.succ_mul] at hmul
        rwa [Nat.mul_right_comm 8 b (p % b)]
      rw [hpacks.spilled q _ (by omega), streamBit_eq rfl (by omega), decide_eq_true (by omega),
        Bool.true_and, show b - 1 - (b - 1 - y) = y by omega]
      exact congrArg (fun v => lane p v q y) (slot_drop ints _ m)
    · rw [decide_eq_false (by omega), Bool.false_and, hfits _ hm q y (by omega) hy]

end Encode

end LuceneRust.Codecs.ForUtil
