import LuceneRust.Codecs.ForUtil
import LuceneRust.Lib.LaneWord

/-!
# The decoders of `lucene_codecs::for_util`

All decoders of a width `b` do the same with the words of a block.  The first
values are cut out of the words at fixed shifts, and the values that are left
are read off the stream that the remaining low bits of the words spell out.
`Unpacks` says so, for lanes of `p` bits.

* `nextValues_spec`: reading values off the stream, one after another.
* `unpacks_decode8Lanes`, `unpacks_decode16Lanes` and `unpacks_decodeSlow`: the
  decoders unpack the words that they read.
-/

namespace LuceneRust.Codecs.ForUtil

open RustSem LaneWord
open Store (Result SliceInput)

/-! ## Masks -/

/-- The masks of all widths, bit by bit. -/
theorem mask_bits :
    (∀ m < 33, ∀ i < 32, (mask32 m).getLsbD i = decide (i < m)) ∧
      (∀ m < 17, ∀ q < 2, ∀ y < 16, lane 16 (mask16 m) q y = decide (y < m)) ∧
      ∀ m < 9, ∀ q < 4, ∀ y < 8, lane 8 (mask8 m) q y = decide (y < m) := by
  decide +kernel

theorem getLsbD_mask32 {m i : Nat} (hm : m ≤ 32) (hi : i < 32) :
    (mask32 m).getLsbD i = decide (i < m) :=
  mask_bits.1 m (by omega) i hi

theorem isMask_mask32 {m : Nat} (hm : m ≤ 32) : IsMask 32 m (mask32 m) := by
  intro q y hy hw
  obtain rfl : q = 0 := by omega
  rw [lane, Nat.mul_zero, Nat.zero_add]
  exact getLsbD_mask32 hm hy

theorem isMask_mask16 {m : Nat} (hm : m ≤ 16) : IsMask 16 m (mask16 m) := by
  intro q y hy hw
  exact mask_bits.2.1 m (by omega) q (by omega) y hy

theorem isMask_mask8 {m : Nat} (hm : m ≤ 8) : IsMask 8 m (mask8 m) := by
  intro q y hy hw
  exact mask_bits.2.2 m (by omega) q (by omega) y hy

/-! ## Values off the stream -/

section Stream

variable {p b r : Nat} {mask : Nat → U32} {tmp : List U32}

/-- The bits of `l` from `lo` on are those of the value at `pos`. -/
def ReadsFrom (p b r : Nat) (tmp : List U32) (pos lo : Nat) (l : U32) : Prop :=
  ∀ q y, y < p → lane p l q y =
    (decide (lo ≤ y ∧ y < b) && streamBit p r tmp q (pos + (b - 1 - y)))

/-- The state of the reader at a position of the stream. -/
def readerAt (r pos : Nat) : Nat × Nat := (pos / r, r - pos % r)

theorem readerAt_eq {pos i j : Nat} (hpos : pos = i * r + j) (hj : j < r) :
    readerAt r pos = (i, r - j) := by
  rw [readerAt, hpos, Nat.mul_comm, Nat.mul_add_div (by omega), Nat.div_eq_of_lt hj,
    Nat.mul_add_mod, Nat.mod_eq_of_lt hj, Nat.add_zero]

theorem getElem?_slot {i : Nat} (hi : i < tmp.length) : tmp[i]? = some (slot tmp i) := by
  rw [slot, List.getD_eq_getElem?_getD, List.getElem?_eq_getElem hi, Option.getD_some]

/-- The word after the bits read so far gives the next bits of the value:
its bits from `c` to `c + m`, at `lo`. -/
theorem readsFrom_or (hpw : p ∣ 32) {pos i lo m c : Nat} {l w : U32} (hb : b ≤ p)
    (hpos : pos + b + c = i * r + lo + r) (hcut : c + m ≤ r) (hlo : lo + m ≤ b)
    (hl : ReadsFrom p b r tmp pos (lo + m) l)
    (hw : ∀ q y, y < p → lane p w q y = (decide (y < m) && lane p (slot tmp i) q (y + c))) :
    ReadsFrom p b r tmp pos lo (l ||| (w <<< lo)) := by
  have hfits : FitsLanes p m w := by
    intro q y hm hy
    rw [hw q y hy, decide_eq_false (by omega), Bool.false_and]
  intro q y hy
  rw [lane_or, hl q y hy, lane_shiftLeft hpw hfits (by omega) hy]
  by_cases hylo : lo ≤ y
  · rw [hw q (y - lo) (by omega)]
    by_cases hym : y < lo + m
    · have hs : pos + (b - 1 - y) = i * r + (r - 1 - (y - lo + c)) := by omega
      rw [streamBit_eq hs (by omega)]
      simp [hylo, show ¬lo + m ≤ y by omega, show y - lo < m by omega, show y < b by omega,
        show r - 1 - (r - 1 - (y - lo + c)) = y - lo + c by omega, slot]
    · simp [hylo, show lo + m ≤ y by omega, show ¬y - lo < m by omega]
  · simp [hylo, show ¬lo + m ≤ y by omega]

/-- The `while` loop of `decode_slow` takes the words that the value needs
whole. -/
theorem wholeWords_spec (hpw : p ∣ 32) (hmask : ∀ m ≤ p, IsMask p m (mask m)) (hr : 0 < r)
    (hrb : r ≤ b) (hb : b ≤ p) {pos : Nat} (hlen : pos + b ≤ tmp.length * r) {s : Nat × U32 × Nat}
    (hs : s.1 ≤ b) (hpos : s.2.2 * r + s.1 = pos + b) (hl : ReadsFrom p b r tmp pos s.1 s.2.1) :
    ∃ lo l i, iterate (ε := Store.Error) (wholeWordPass mask r tmp) (b + 1) s = .ok (lo, l, i) ∧
      lo < r ∧ i * r + lo = pos + b ∧ ReadsFrom p b r tmp pos lo l := by
  let Inv : Nat × U32 × Nat → Prop := fun s =>
    s.1 ≤ b ∧ s.2.2 * r + s.1 = pos + b ∧ ReadsFrom p b r tmp pos s.1 s.2.1
  obtain ⟨⟨lo, l, i⟩, hrun, hlo, -, hi, hread⟩ := iterate_ok (ε := Store.Error)
    (wholeWordPass mask r tmp) Inv (·.1) (fun s => s.1 < r ∧ Inv s) (by
      rintro ⟨lo, l, i⟩ ⟨hlo, hi, hl⟩
      simp only at hlo hi hl
      by_cases hlt : r ≤ lo
      · have hit : i < tmp.length := by
          have : (i + 1) * r ≤ tmp.length * r := by
            rw [Nat.succ_mul]
            omega
          exact Nat.lt_of_succ_le (Nat.le_of_mul_le_mul_right this hr)
        refine .inl ⟨(lo - r, l ||| ((slot tmp i &&& mask r) <<< (lo - r)), i + 1), ?_,
          ⟨by omega, ?_, ?_⟩, by omega⟩
        · simp [wholeWordPass, hlt, getElem?_slot hit]
        · rw [Nat.succ_mul]
          omega
        · have hmr := hmask r (by omega)
          refine readsFrom_or (i := i) (m := r) (c := 0) hpw hb (by omega) (by omega) (by omega)
            (by rwa [Nat.sub_add_cancel hlt]) ?_
          intro q y hy
          rw [lane_and_mask hmr hy, Nat.add_zero]
      · exact .inr ⟨(lo, l, i), by simp [wholeWordPass, hlt], by simpa using hlt, hlo, hi, hl⟩)
    (b + 1) s ⟨hs, hpos, hl⟩ (by omega)
  exact ⟨lo, l, i, hrun, hlo, hi, hread⟩

/-- A turn of the `for` loop of `decode_slow` reads one value. -/
theorem nextValue_spec (hpw : p ∣ 32) (hmask : ∀ m ≤ p, IsMask p m (mask m)) (hr : 0 < r)
    (hrb : r ≤ b) (hb : b ≤ p) {pos : Nat} (hlen : pos + b ≤ tmp.length * r) :
    ∃ v, nextValue mask b r tmp (readerAt r pos) = .ok (v, readerAt r (pos + b)) ∧
      ReadsFrom p b r tmp pos 0 v := by
  have hmod := Nat.mod_lt pos hr
  have hdm := Nat.div_add_mod' pos r
  have hit : ∀ i j, i * r + j = pos + b → 0 < j → i < tmp.length := by
    intro i j h hj
    exact Nat.lt_of_mul_lt_mul_right (a := r) (by omega)
  have hi : pos / r < tmp.length := hit _ (pos % r + b) (by omega) (by omega)
  -- the bits that the current word has left
  have hfirst : ReadsFrom p b r tmp pos (b - (r - pos % r))
      ((slot tmp (pos / r) &&& mask (r - pos % r)) <<< (b - (r - pos % r))) := by
    have hm := hmask (r - pos % r) (by omega)
    have hempty : ReadsFrom p b r tmp pos (b - (r - pos % r) + (r - pos % r)) 0#32 := by
      intro q y hy
      rw [decide_eq_false (by omega), Bool.false_and, lane, BitVec.getLsbD_zero]
    have hor := readsFrom_or (i := pos / r) (m := r - pos % r) (c := 0) hpw hb (by omega)
      (by omega) (by omega) hempty (w := slot tmp (pos / r) &&& mask (r - pos % r)) (by
        intro q y hy
        rw [lane_and_mask hm hy, Nat.add_zero])
    rwa [BitVec.zero_or] at hor
  obtain ⟨lo, l, i, hrun, hlo, hpos', hread⟩ := wholeWords_spec hpw hmask hr hrb hb hlen
    (s := (b - (r - pos % r), (slot tmp (pos / r) &&& mask (r - pos % r)) <<<
      (b - (r - pos % r)), pos / r + 1)) (by simp) (by
        simp only [Nat.succ_mul]
        omega) hfirst
  have hstart : nextValue mask b r tmp (readerAt r pos) =
      (if 0 < lo then do
        let w ← .expect tmp[i]?
        .ok (l ||| ((w >>> (r - lo)) &&& mask lo), i, r - lo)
      else .ok (l, i, r)) := by
    simp only [nextValue, readerAt, sub_of_le (show r - pos % r ≤ b by omega), ok_bind,
      getElem?_slot hi, expect_some, hrun]
  rw [hstart, ← hpos', readerAt_eq rfl hlo]
  by_cases hlo0 : 0 < lo
  · have hmr := hmask lo (by omega)
    rw [if_pos hlo0, getElem?_slot (hit i lo hpos' hlo0), expect_some, ok_bind]
    refine ⟨_, rfl, ?_⟩
    have hrest : ReadsFrom p b r tmp pos (0 + lo) l := by rwa [Nat.zero_add]
    have hor := readsFrom_or (i := i) (m := lo) (c := r - lo) hpw hb (by omega) (by omega)
      (by omega) hrest (w := (slot tmp i >>> (r - lo)) &&& mask lo) (by
        intro q y hy
        rw [lane_and_mask hmr hy, lane_ushiftRight])
    rwa [BitVec.shiftLeft_zero] at hor
  · obtain rfl : lo = 0 := by omega
    rw [if_neg hlo0, Nat.sub_zero]
    exact ⟨l, rfl, hread⟩

/-- `values` are the values that start at `pos`. -/
def ValuesAt (p b r : Nat) (tmp : List U32) (pos : Nat) (values : List U32) : Prop :=
  ∀ m < values.length, ReadsFrom p b r tmp (pos + m * b) 0 (slot values m)

theorem nextValues_spec (hpw : p ∣ 32) (hmask : ∀ m ≤ p, IsMask p m (mask m)) (hr : 0 < r)
    (hrb : r ≤ b) (hb : b ≤ p) (n : Nat) : ∀ pos, pos + n * b ≤ tmp.length * r →
    ∃ vs, nextValues mask b r tmp n (readerAt r pos) = .ok (vs, readerAt r (pos + n * b)) ∧
      vs.length = n ∧ ValuesAt p b r tmp pos vs := by
  induction n with
  | zero =>
    intro pos _
    refine ⟨[], by simp [nextValues], rfl, ?_⟩
    intro m hm
    exact absurd hm (Nat.not_lt_zero m)
  | succ n ih =>
    intro pos hlen
    rw [Nat.succ_mul] at hlen ⊢
    have hfirst : pos + b ≤ tmp.length * r := by omega
    obtain ⟨v, hv, hread⟩ := nextValue_spec hpw hmask hr hrb hb hfirst
    obtain ⟨vs, hvs, hcount, hvalues⟩ := ih (pos + b) (by omega)
    refine ⟨v :: vs, ?_, by simp [hcount], ?_⟩
    · rw [nextValues, hv, ok_bind]
      simp only [hvs, ok_bind]
      rw [show pos + b + n * b = pos + (n * b + b) by omega]
    · intro m hm
      cases m with
      | zero => simpa [slot] using hread
      | succ m =>
        have hm' := hvalues m (by simpa using hm)
        rwa [show pos + b + m * b = pos + (m + 1) * b by rw [Nat.succ_mul]; omega] at hm'

/-- A position of the stream that both lists of words spell out alike. -/
theorem streamBit_congr {n s q : Nat} {ws ws' : List U32} (hr : 0 < r)
    (h : ∀ i < n, ∀ y < r, lane p (slot ws i) q y = lane p (slot ws' i) q y) (hs : s < n * r) :
    streamBit p r ws q s = streamBit p r ws' q s := by
  have hmod := Nat.mod_lt s hr
  exact h (s / r) ((Nat.div_lt_iff_lt_mul hr).2 hs) _ (by omega)

end Stream

/-! ## `split_ints` -/

/-- The next words of the input. -/
def wordsAt (inp : SliceInput) (count : Nat) : List U32 :=
  (chunks 4 (inp.rest.take (4 * count))).map (fromLeBytes 32)

theorem wordsAt_length {inp : SliceInput} {count : Nat} (h : 4 * count ≤ inp.rest.length) :
    (wordsAt inp count).length = count := by
  rw [wordsAt, List.length_map, chunks, List.length_map, List.length_range,
    List.length_take_of_le h]
  omega

theorem readU32sLe_of_le {inp : SliceInput} {count : Nat} (h : 4 * count ≤ inp.rest.length) :
    inp.readU32sLe count = .ok (wordsAt inp count, inp.advance (4 * count)) := by
  rw [SliceInput.readU32sLe, SliceInput.readN_of_le h, ok_bind]
  rfl

theorem readU32sLe_short {inp : SliceInput} {count : Nat} (h : inp.rest.length < 4 * count) :
    inp.readU32sLe count = .err (.eof inp.pos) := by
  rw [SliceInput.readU32sLe, SliceInput.readN_short h, err_bind]

theorem length_flatMap_range {f : Nat → List U32} {n m : Nat} (hf : ∀ j < n, (f j).length = m) :
    ((List.range n).flatMap f).length = n * m := by
  rw [List.length_flatMap, List.map_congr_left (g := fun _ => m) (by
    intro j hj
    exact hf j (List.mem_range.1 hj))]
  simp

/-- The values that `split_ints` cuts out of the words. -/
def shiftedValues (words : List U32) (iters bShift dec : Nat) (bMask : U32) : List U32 :=
  (List.range iters).flatMap fun j =>
    words.map fun cv : U32 => (cv >>> (bShift - j * dec)) &&& bMask

theorem length_shiftedValues (words : List U32) (iters bShift dec : Nat) (bMask : U32) :
    (shiftedValues words iters bShift dec bMask).length = iters * words.length :=
  length_flatMap_range fun _ _ => List.length_map _

/-- A list of equally long parts, read by the part and the index in it. -/
theorem slot_flatMap_range {f : Nat → List U32} {n m j i : Nat} (hf : ∀ j < n, (f j).length = m)
    (hj : j < n) (hi : i < m) : slot ((List.range n).flatMap f) (j * m + i) = slot (f j) i := by
  induction n with
  | zero => exact absurd hj (Nat.not_lt_zero j)
  | succ n ih =>
    have hlen := length_flatMap_range fun j hj => hf j (Nat.lt_succ_of_lt hj)
    rw [List.range_succ, List.flatMap_append, slot, List.getD_eq_getElem?_getD]
    by_cases hjn : j < n
    · have hlt : j * m + i < n * m := by
        have hle := Nat.mul_le_mul_right m (Nat.succ_le_of_lt hjn)
        rw [Nat.succ_mul] at hle
        omega
      rw [List.getElem?_append_left (by omega)]
      exact ih (fun j hj => hf j (by omega)) hjn
    · obtain rfl : j = n := by omega
      rw [List.getElem?_append_right (by omega), hlen, Nat.add_sub_cancel_left]
      simp [slot]

theorem splitInts_eq {inp : SliceInput} (b c : List U32) {count : Nat} (bShift dec : Nat)
    (bMask : U32) (ci : Nat) (cMask : U32) (hinp : 4 * count ≤ inp.rest.length) (hc : ci + count ≤ c.length)
    (hb : count * ((bShift - 1) / dec + 1) ≤ b.length) :
    splitInts inp b c count bShift dec bMask ci cMask =
      .ok (splice b 0 (shiftedValues (wordsAt inp count) ((bShift - 1) / dec + 1) bShift dec bMask),
        splice c ci ((wordsAt inp count).map (· &&& cMask)), inp.advance (4 * count)) := by
  simp only [splitInts, guardOk_pos hc, ok_bind, readU32sLe_of_le hinp,
    guardOk_pos hb, shiftedValues]

theorem splitInts_short {inp : SliceInput} {b c : List U32} {count bShift dec ci : Nat}
    (bMask cMask : U32) (hinp : inp.rest.length < 4 * count) (hc : ci + count ≤ c.length) :
    splitInts inp b c count bShift dec bMask ci cMask = .err (.eof inp.pos) := by
  simp only [splitInts, guardOk_pos hc, ok_bind, readU32sLe_short hinp,
    err_bind]

/-! ## Unpacking -/

/-- The values `ds` are those that the words `ws` hold, in lanes of `p` bits. -/
structure Unpacks (p b : Nat) (ws ds : List U32) : Prop where
  shifted : ∀ j < p / b, ∀ i < 8 * b, ∀ q y, y < p → lane p (slot ds (j * (8 * b) + i)) q y =
    (decide (y < b) && lane p (slot ws i) q (p - (j + 1) * b + y))
  spilled : ∀ m < 8 * (p % b),
    ReadsFrom p b (p % b) ws (m * b) 0 (slot ds (p / b * (8 * b) + m))

theorem slot_splice_inside {l src : List U32} {i : Nat} (h : src.length ≤ l.length)
    (hi : i < src.length) : slot (splice l 0 src) i = slot src i := by
  rw [slot, slot, List.getD_eq_getElem?_getD, List.getD_eq_getElem?_getD,
    getElem?_splice (by omega), if_pos (by omega), Nat.sub_zero]

theorem slot_map {l : List U32} (f : U32 → U32) {i : Nat} (hi : i < l.length) :
    slot (l.map f) i = f (slot l i) := by
  simp [slot, List.getD_eq_getElem?_getD, hi]

/-- The values that `split_ints` leaves in the array. -/
theorem lane_shiftedValues {p b bShift : Nat} {bMask : U32} {words : List U32} {iters : Nat}
    (hmask : IsMask p b bMask) (hshift : bShift = p - b) {j i : Nat} (hj : j < iters)
    (hi : i < words.length) (q : Nat) {y : Nat} (hy : y < p) :
    lane p (slot (shiftedValues words iters bShift b bMask) (j * words.length + i)) q y =
      (decide (y < b) && lane p (slot words i) q (p - (j + 1) * b + y)) := by
  rw [shiftedValues, slot_flatMap_range (fun j _ => List.length_map _) hj hi, slot_map _ hi,
    lane_and_mask hmask hy, lane_ushiftRight, hshift, Nat.succ_mul]
  rw [show y + (p - b - j * b) = p - (j * b + b) + y by omega]

/-- A value does not depend on the bits outside the stream. -/
theorem ReadsFrom.congr {p b r n pos : Nat} {ws tmp : List U32} {v : U32} (hr : 0 < r)
    (hrp : r ≤ p)
    (htmp : ∀ i < n, ∀ q, ∀ y < r, lane p (slot tmp i) q y = lane p (slot ws i) q y)
    (hpos : pos + b ≤ n * r) (h : ReadsFrom p b r tmp pos 0 v) : ReadsFrom p b r ws pos 0 v := by
  intro q y hy
  rw [h q y hy]
  by_cases hyb : y < b
  · rw [streamBit_congr hr (fun i hi => htmp i hi q) (by omega)]
  · rw [decide_eq_false (by omega), Bool.false_and, Bool.false_and]

/-! ## The unrolled decoders -/

/-- A loop body of a decoder reads `h` values off `g` words. -/
def BodyReads (mask : Nat → U32) (b r g h : Nat) (body : (Nat → U32) → List U32) : Prop :=
  ∀ t : Nat → U32, (∀ i < g, t i &&& mask r = t i) →
    nextValues mask b r ((List.range g).map t) h (0, r) = .ok (body t, g, r)

theorem word_at {t : Nat → U32} {g i : Nat} (hi : i < g) :
    ((List.range g).map t)[i]? = some (t i) := by
  rw [List.getElem?_map, List.getElem?_range hi, Option.map_some]

attribute [local simp] nextValues nextValue wholeWordPass

theorem body3_reads : BodyReads mask8 3 2 3 2 body3 := by
  intro t ht
  simp only [nextValues, nextValue, iterate, wholeWordPass, body3, ht, word_at, sub_of_le,
    Nat.reduceAdd, Nat.reduceSub, Nat.reduceLT, Nat.reduceLeDiff, if_true, if_false,
    ok_bind, expect_some, BitVec.shiftLeft_zero]

theorem body5_reads : BodyReads mask8 5 3 5 3 body5 := by
  intro t ht
  simp only [nextValues, nextValue, iterate, wholeWordPass, body5, ht, word_at, sub_of_le,
    Nat.reduceAdd, Nat.reduceSub, Nat.reduceLT, Nat.reduceLeDiff, if_true, if_false,
    ok_bind, expect_some, BitVec.shiftLeft_zero]

theorem body6_reads : BodyReads mask8 6 2 3 1 body6 := by
  intro t ht
  simp only [nextValues, nextValue, iterate, wholeWordPass, body6, ht, word_at, sub_of_le,
    Nat.reduceAdd, Nat.reduceSub, Nat.reduceLT, Nat.reduceLeDiff, if_true, if_false,
    ok_bind, expect_some, BitVec.shiftLeft_zero]

theorem body7_reads : BodyReads mask8 7 1 7 1 body7 := by
  intro t ht
  simp only [nextValues, nextValue, iterate, wholeWordPass, body7, ht, word_at, sub_of_le,
    Nat.reduceAdd, Nat.reduceSub, Nat.reduceLT, Nat.reduceLeDiff, if_true, if_false,
    ok_bind, expect_some, BitVec.shiftLeft_zero]

theorem body9_reads : BodyReads mask16 9 7 9 7 body9 := by
  intro t ht
  simp only [nextValues, nextValue, iterate, wholeWordPass, body9, ht, word_at, sub_of_le,
    Nat.reduceAdd, Nat.reduceSub, Nat.reduceLT, Nat.reduceLeDiff, if_true, if_false,
    ok_bind, expect_some, BitVec.shiftLeft_zero]

theorem body10_reads : BodyReads mask16 10 6 5 3 body10 := by
  intro t ht
  simp only [nextValues, nextValue, iterate, wholeWordPass, body10, ht, word_at, sub_of_le,
    Nat.reduceAdd, Nat.reduceSub, Nat.reduceLT, Nat.reduceLeDiff, if_true, if_false,
    ok_bind, expect_some, BitVec.shiftLeft_zero]

theorem body11_reads : BodyReads mask16 11 5 11 5 body11 := by
  intro t ht
  simp only [nextValues, nextValue, iterate, wholeWordPass, body11, ht, word_at, sub_of_le,
    Nat.reduceAdd, Nat.reduceSub, Nat.reduceLT, Nat.reduceLeDiff, if_true, if_false,
    ok_bind, expect_some, BitVec.shiftLeft_zero]

theorem body12_reads : BodyReads mask16 12 4 3 1 body12 := by
  intro t ht
  simp only [nextValues, nextValue, iterate, wholeWordPass, body12, ht, word_at, sub_of_le,
    Nat.reduceAdd, Nat.reduceSub, Nat.reduceLT, Nat.reduceLeDiff, if_true, if_false,
    ok_bind, expect_some, BitVec.shiftLeft_zero]

theorem body13_reads : BodyReads mask16 13 3 13 3 body13 := by
  intro t ht
  simp only [nextValues, nextValue, iterate, wholeWordPass, body13, ht, word_at, sub_of_le,
    Nat.reduceAdd, Nat.reduceSub, Nat.reduceLT, Nat.reduceLeDiff, if_true, if_false,
    ok_bind, expect_some, BitVec.shiftLeft_zero]

theorem body14_reads : BodyReads mask16 14 2 7 1 body14 := by
  intro t ht
  simp only [nextValues, nextValue, iterate, wholeWordPass, body14, ht, word_at, sub_of_le,
    Nat.reduceAdd, Nat.reduceSub, Nat.reduceLT, Nat.reduceLeDiff, if_true, if_false,
    ok_bind, expect_some, BitVec.shiftLeft_zero]

theorem body15_reads : BodyReads mask16 15 1 15 1 body15 := by
  intro t ht
  simp only [nextValues, nextValue, iterate, wholeWordPass, body15, ht, word_at, sub_of_le,
    Nat.reduceAdd, Nat.reduceSub, Nat.reduceLT, Nat.reduceLeDiff, if_true, if_false,
    ok_bind, expect_some, BitVec.shiftLeft_zero]

section Unrolled

variable {p b r g h : Nat} {mask : Nat → U32} {body : (Nat → U32) → List U32}

/-- One turn of the loop. -/
theorem body_spec (tmp : List U32) (hpw : p ∣ 32) (hmask : ∀ m ≤ p, IsMask p m (mask m)) (hr : 0 < r) (hrb : r ≤ b)
    (hb : b ≤ p) (hgh : h * b = g * r) (hbody : BodyReads mask b r g h body) {k : Nat}
    (htmp : ∀ i < g, slot tmp (g * k + i) &&& mask r = slot tmp (g * k + i)) :
    (body fun i => slot tmp (g * k + i)).length = h ∧
      ∀ m < h, ReadsFrom p b r tmp ((k * h + m) * b) 0 (slot (body fun i => slot tmp (g * k + i)) m) := by
  let words := (List.range g).map fun i => slot tmp (g * k + i)
  have hlen : 0 + h * b ≤ words.length * r := by
    rw [List.length_map, List.length_range, hgh, Nat.zero_add]
  obtain ⟨vs, hvs, hcount, hvalues⟩ := nextValues_spec hpw hmask hr hrb hb h 0 hlen
  have hstart : readerAt r 0 = (0, r) := by
    rw [readerAt, Nat.zero_div, Nat.zero_mod, Nat.sub_zero]
  rw [hstart, hbody _ htmp, Outcome.ok.injEq, Prod.mk.injEq] at hvs
  rw [hvs.1]
  refine ⟨hcount, ?_⟩
  intro m hm q y hy
  rw [hvalues m (by omega) q y hy]
  by_cases hyb : y < b
  · congr 1
    -- the position in the words of this turn, and in all words
    obtain ⟨s, hs⟩ : ∃ s, s = 0 + m * b + (b - 1 - y) := ⟨_, rfl⟩
    have hpos : s < g * r := by
      have hmul := Nat.mul_le_mul_right b (Nat.succ_le_of_lt hm)
      rw [Nat.succ_mul, hgh] at hmul
      omega
    have hmod := Nat.mod_lt s hr
    have hi := (Nat.div_lt_iff_lt_mul hr).2 hpos
    have hall : (k * h + m) * b + (b - 1 - y) = (g * k + s / r) * r + s % r := by
      have hkh : k * h * b = g * k * r := by
        rw [Nat.mul_assoc, hgh, ← Nat.mul_assoc, Nat.mul_comm k g]
      rw [Nat.add_mul, Nat.add_mul, hkh, Nat.add_assoc, Nat.add_assoc, Nat.div_add_mod']
      omega
    rw [← hs, streamBit_eq hall hmod, streamBit]
    simp [words, List.getD_eq_getElem?_getD, List.getElem?_map, List.getElem?_range hi, slot]
  · rw [decide_eq_false (by omega), Bool.false_and, Bool.false_and]

/-- The loop: the values off the masked words. -/
theorem turns_spec (tmp : List U32) (turns : Nat) (hpw : p ∣ 32) (hmask : ∀ m ≤ p, IsMask p m (mask m)) (hr : 0 < r)
    (hrb : r ≤ b) (hb : b ≤ p) (hgh : h * b = g * r) (hbody : BodyReads mask b r g h body)
    (htmp : ∀ i < g * turns, slot tmp i &&& mask r = slot tmp i) :
    let values := (List.range turns).flatMap fun k => body fun i => slot tmp (g * k + i)
    values.length = turns * h ∧ ∀ m < turns * h, ReadsFrom p b r tmp (m * b) 0 (slot values m) := by
  have hturn : ∀ k < turns, _ := fun k hk =>
    body_spec tmp hpw hmask hr hrb hb hgh hbody (k := k) (by
      intro i hi
      have hmul := Nat.mul_le_mul_left g (Nat.succ_le_of_lt hk)
      rw [Nat.mul_succ] at hmul
      exact htmp _ (by omega))
  refine ⟨?_, ?_⟩
  · exact length_flatMap_range fun k hk => (hturn k hk).1
  · intro m hm
    have hh : 0 < h := Nat.pos_of_ne_zero (by
      rintro rfl
      exact absurd hm (by simp))
    have hk : m / h < turns := (Nat.div_lt_iff_lt_mul hh).2 hm
    have hread := (hturn (m / h) hk).2 (m % h) (Nat.mod_lt m hh)
    rw [Nat.div_add_mod'] at hread
    have hslot := slot_flatMap_range (fun k hk => (hturn k hk).1) hk (Nat.mod_lt m hh)
    rw [Nat.div_add_mod'] at hslot
    rwa [hslot]

end Unrolled

/-! ## The decoder of a width -/

/-- `f` unpacks the words of a block of width `b`, and reads those only. -/
structure Decodes (p b : Nat) (expand : List U32 → List U32)
    (f : SliceInput → List U32 → List U32 → Result (List U32 × List U32 × SliceInput)) : Prop where
  reads : ∀ inp tmp ints, tmp.length = blockSize → ints.length = blockSize →
    4 * (8 * b) ≤ inp.rest.length → ∃ tmp' ds,
      f inp tmp ints = .ok (tmp', expand ds, inp.advance (4 * (8 * b))) ∧
        tmp'.length = blockSize ∧ ds.length = blockSize ∧ Unpacks p b (wordsAt inp (8 * b)) ds
  short : ∀ inp tmp ints, tmp.length = blockSize → ints.length = blockSize →
    inp.rest.length < 4 * (8 * b) → f inp tmp ints = .err (.eof inp.pos)

theorem slot_append_left {l l' : List U32} {i : Nat} (hi : i < l.length) :
    slot (l ++ l') i = slot l i := by
  rw [slot, slot, List.getD_append _ _ _ _ hi]

theorem slot_append_right (l l' : List U32) (i : Nat) :
    slot (l ++ l') (l.length + i) = slot l' i := by
  rw [slot, slot, List.getD_append_right _ _ _ _ (by omega), Nat.add_sub_cancel_left]

theorem splice_full {l src : List U32} (h : src.length = l.length) : splice l 0 src = src := by
  rw [splice, Nat.zero_add, List.take_zero, List.nil_append, h, List.drop_length, List.append_nil]

theorem unpacks_of_slots {p b : Nat} {bMask : U32} {ws ds : List U32} (hmask : IsMask p b bMask)
    (hws : ws.length = 8 * b)
    (hslots : ∀ i < p / b * (8 * b),
      slot ds i = slot (shiftedValues ws (p / b) (p - b) b bMask) i)
    (hspill : ∀ m < 8 * (p % b), ReadsFrom p b (p % b) ws (m * b) 0 (slot ds (p / b * (8 * b) + m))) :
    Unpacks p b ws ds := by
  refine ⟨?_, hspill⟩
  intro j hj i hi q y hy
  have hlt : j * (8 * b) + i < p / b * (8 * b) := by
    have hmul := Nat.mul_le_mul_right (8 * b) (Nat.succ_le_of_lt hj)
    rw [Nat.succ_mul] at hmul
    omega
  rw [hslots _ hlt, ← hws]
  exact lane_shiftedValues hmask rfl hj (by omega) q hy

/-- The decoders that have a loop. -/
theorem decodes_unrolled {p b r g h turns : Nat} {mask : Nat → U32}
    {body : (Nat → U32) → List U32} {expand : List U32 → List U32} (hpw : p ∣ 32)
    (hmask : ∀ m ≤ p, IsMask p m (mask m)) (hbody : BodyReads mask b r g h body) (hr : 0 < r)
    (hb : b ≤ p) (hmod : p % b = r) (hrb : r < b) (hgh : h * b = g * r) (hg : g * turns = 8 * b)
    (hh : turns * h = 8 * r) {start : Nat} (hstart : p / b * (8 * b) = start)
    {bShift : Nat} (hshift : bShift = p - b) (hcount : 8 * b ≤ blockSize)
    (hsize : start + 8 * r ≤ blockSize) :
    Decodes p b expand fun inp tmp ints => thenExpandWith expand
      (decodeUnrolled (8 * b) bShift b (mask b) (mask r) turns g start body inp tmp ints) := by
  have hiters : (bShift - 1) / b + 1 = p / b := by
    have hdm := Nat.div_add_mod p b
    obtain ⟨k, hk⟩ : ∃ k, p / b = k + 1 := ⟨p / b - 1, by
      have := Nat.div_pos hb (by omega)
      omega⟩
    rw [hk, Nat.mul_succ, hmod] at hdm
    rw [hk, show bShift - 1 = b * k + (r - 1) by omega, Nat.mul_add_div (by omega),
      Nat.div_eq_of_lt (by omega), Nat.add_zero]
  refine ⟨?_, ?_⟩
  · intro inp tmp ints htmp hints hinp
    obtain ⟨ws, hws⟩ : ∃ ws, ws = wordsAt inp (8 * b) := ⟨_, rfl⟩
    have hlen : ws.length = 8 * b := hws ▸ wordsAt_length hinp
    have hshifted : (shiftedValues ws (p / b) bShift b (mask b)).length = start := by
      rw [length_shiftedValues, hlen, hstart]
    have hsplit := splitInts_eq ints tmp bShift b (mask b) 0 (mask r) hinp (by omega) (by
      rw [hiters, Nat.mul_comm, hstart]
      omega)
    rw [hiters, ← hws] at hsplit
    -- the masked words in the scratch buffer, and the values off them
    have hscratch : ∀ i < 8 * b, slot (splice tmp 0 (ws.map (· &&& mask r))) i =
        slot ws i &&& mask r := by
      intro i hi
      rw [slot_splice_inside (by rw [List.length_map]; omega) (by rw [List.length_map]; omega),
        slot_map _ (by omega)]
    obtain ⟨hvlen, hvalues⟩ := turns_spec (splice tmp 0 (ws.map (· &&& mask r))) turns hpw hmask hr
      (Nat.le_of_lt hrb) hb hgh hbody (by
        intro i hi
        rw [hscratch i (by omega), BitVec.and_assoc, BitVec.and_self])
    obtain ⟨values, hdef⟩ : ∃ values, values = (List.range turns).flatMap fun k =>
      body fun i => slot (splice tmp 0 (ws.map (· &&& mask r))) (g * k + i) := ⟨_, rfl⟩
    rw [← hdef] at hvlen hvalues
    have htlen : (splice tmp 0 (ws.map (· &&& mask r))).length = blockSize := by
      rw [splice_length (by rw [List.length_map]; omega), htmp]
    have hilen : (splice ints 0 (shiftedValues ws (p / b) bShift b (mask b))).length =
        blockSize := by
      rw [splice_length (by omega), hints]
    refine ⟨_, splice (splice ints 0 (shiftedValues ws (p / b) bShift b (mask b))) start values,
      ?_, htlen, ?_, ?_⟩
    · rw [thenExpandWith, decodeUnrolled, hsplit, ok_bind]
      simp only [← hdef]
      rw [guardOk_pos (by omega), ok_bind, ok_bind]
    · rw [splice_length (by omega), hilen]
    · rw [← hws]
      refine unpacks_of_slots (hmask b hb) hlen ?_ ?_
      · intro i hi
        rw [slot, List.getD_eq_getElem?_getD, getElem?_splice (by omega), if_neg (by omega),
          ← List.getD_eq_getElem?_getD]
        exact hshift ▸ slot_splice_inside (by omega) (by omega)
      · intro m hm
        rw [hmod] at hm ⊢
        rw [hstart, slot, List.getD_eq_getElem?_getD, getElem?_splice (by omega),
          if_pos (by omega), Nat.add_sub_cancel_left, ← List.getD_eq_getElem?_getD]
        have hend : m * b + b ≤ 8 * b * r := by
          have hmul := Nat.mul_le_mul_right b (Nat.succ_le_of_lt hm)
          rw [Nat.succ_mul] at hmul
          rwa [Nat.mul_assoc, Nat.mul_comm b r, ← Nat.mul_assoc]
        refine (hvalues m (by omega)).congr (n := 8 * b) hr (by omega) ?_ hend
        intro i hi q y hy
        rw [hscratch i hi, lane_and_mask (hmask r (by omega)) (by omega), decide_eq_true hy,
          Bool.true_and]
  · intro inp tmp ints htmp hints hinp
    rw [thenExpandWith, decodeUnrolled, splitInts_short _ _ hinp (by omega), err_bind,
      err_bind]

theorem shiftedValues_succ (ws : List U32) (n s d : Nat) (m : U32) :
    shiftedValues ws (n + 1) s d m =
      shiftedValues ws n s d m ++ ws.map fun cv : U32 => (cv >>> (s - n * d)) &&& m := by
  simp [shiftedValues, List.range_succ]

/-- The decoders of a width that divides the lanes. -/
theorem decodes_inPlace {b k mid : Nat} {bMask : U32} (hmask : IsMask 8 b bMask)
    (hp : 8 = (k + 1) * b + b) (hb : 0 < b) (hmid : mid = (k + 1) * (8 * b)) :
    Decodes 8 b expand8 fun inp tmp ints =>
      thenExpand expand8 tmp (decodeInPlace mid (8 * b) ((k + 1) * b) b bMask inp ints) := by
  have hdiv : 8 / b = k + 2 := by
    rw [hp, ← Nat.succ_mul, Nat.mul_div_cancel _ hb]
  have hrem : 8 % b = 0 := by
    rw [hp, ← Nat.succ_mul, Nat.mul_mod_left]
  have hiters : ((k + 1) * b - 1) / b + 1 = k + 1 := by
    rw [Nat.succ_mul, show k * b + b - 1 = b * k + (b - 1) by
      rw [Nat.mul_comm]
      omega, Nat.mul_add_div hb, Nat.div_eq_of_lt (by omega), Nat.add_zero]
  have hsize : mid + 8 * b = 64 := by
    rw [hmid, Nat.mul_left_comm]
    omega
  refine ⟨?_, ?_⟩
  · intro inp tmp ints htmp hints hinp
    obtain ⟨ws, hws⟩ : ∃ ws, ws = wordsAt inp (8 * b) := ⟨_, rfl⟩
    have hlen : ws.length = 8 * b := hws ▸ wordsAt_length hinp
    have htake : (ints.take mid).length = mid := by
      rw [List.length_take, hints, blockSize]
      omega
    have hdrop : (ints.drop mid).length = blockSize - mid := by rw [List.length_drop, hints]
    rw [blockSize] at hints hdrop
    have hfirst : (shiftedValues ws (k + 1) ((k + 1) * b) b bMask).length = mid := by
      rw [length_shiftedValues, hlen, hmid]
    have hsplit := splitInts_eq (ints.take mid) (ints.drop mid) ((k + 1) * b) b bMask 0 bMask hinp
      (by omega) (by rw [hiters, htake, hmid, Nat.mul_comm])
    rw [hiters, ← hws, splice_full (by rw [hfirst, htake])] at hsplit
    refine ⟨tmp, _, by rw [thenExpand, decodeInPlace, hsplit, ok_bind, ok_bind],
      htmp, ?_, ?_⟩
    · rw [List.length_append, splice_length (by rw [List.length_map]; omega), hfirst, hdrop,
        blockSize]
      omega
    · rw [← hws]
      refine unpacks_of_slots hmask hlen ?_ ?_
      · intro i hi
        have hall := shiftedValues_succ ws (k + 1) ((k + 1) * b) b bMask
        rw [Nat.sub_self, show (fun cv : U32 => (cv >>> 0) &&& bMask) = (· &&& bMask) from
          funext fun cv => by rw [BitVec.ushiftRight_zero]] at hall
        rw [hdiv, show 8 - b = (k + 1) * b by omega, hall]
        have hend : i < mid + 8 * b := by
          rw [hdiv, Nat.succ_mul (k + 1), ← hmid] at hi
          exact hi
        by_cases hlt : i < mid
        · rw [slot_append_left (by omega), slot_append_left (by omega)]
        · obtain ⟨j, rfl⟩ : ∃ j, i = (shiftedValues ws (k + 1) ((k + 1) * b) b bMask).length + j :=
            ⟨i - mid, by omega⟩
          rw [slot_append_right, slot_append_right, slot_splice_inside
            (by rw [List.length_map]; omega) (by rw [List.length_map]; omega)]
      · intro m hm
        rw [hrem] at hm
        exact absurd hm (by omega)
  · intro inp tmp ints htmp hints hinp
    rw [thenExpand, decodeInPlace, splitInts_short _ _ hinp (by
      rw [List.length_drop, hints, blockSize]
      omega), err_bind, err_bind]

/-- `decode8` and `decode16`. -/
theorem decodes_words {p : Nat} {expand : List U32 → List U32} (hp : 0 < p) (hp16 : p ≤ 16) :
    Decodes p p expand fun inp tmp ints =>
      thenExpand expand tmp (decodeWords (8 * p) inp ints) := by
  refine ⟨?_, ?_⟩
  · intro inp tmp ints htmp hints hinp
    have hlen := wordsAt_length hinp
    have hle : 0 + (wordsAt inp (8 * p)).length ≤ ints.length := by
      rw [hlen, hints, blockSize]
      omega
    refine ⟨tmp, splice ints 0 (wordsAt inp (8 * p)), ?_, htmp, ?_, ?_, ?_⟩
    · rw [thenExpand, decodeWords, readU32sLe_of_le hinp, ok_bind, ok_bind]
    · rw [splice_length hle, hints]
    · intro j hj i hi q y hy
      rw [Nat.div_self hp] at hj
      obtain rfl : j = 0 := by omega
      rw [Nat.zero_mul, Nat.zero_add, slot_splice_inside (by omega) (by omega),
        decide_eq_true hy, Bool.true_and]
      simp
    · intro m hm
      rw [Nat.mod_self] at hm
      exact absurd hm (by omega)
  · intro inp tmp ints _ _ hinp
    rw [thenExpand, decodeWords, readU32sLe_short hinp, err_bind, err_bind]

/-- `decode_slow`. -/
theorem decodes_slow {b : Nat} (hlo : 17 ≤ b) (hhi : b ≤ 32) :
    Decodes 32 b id (decodeSlow b) := by
  have hdiv : 32 / b = 1 := Nat.div_eq_of_lt_le (by omega) (by omega)
  have hmod : 32 % b = 32 - b := by
    have hdm := Nat.div_add_mod 32 b
    rw [hdiv] at hdm
    omega
  have hiters : (32 - b - 1) / 32 + 1 = 1 := by omega
  refine ⟨?_, ?_⟩
  · intro inp tmp ints htmp hints hinp
    rw [blockSize] at htmp hints
    obtain ⟨ws, hws⟩ : ∃ ws, ws = wordsAt inp (8 * b) := ⟨_, rfl⟩
    have hlen : ws.length = 8 * b := hws ▸ wordsAt_length hinp
    have htake : (ints.take (8 * b)).length = 8 * b := List.length_take_of_le (by omega)
    have hshifted : (shiftedValues ws 1 (32 - b) 32 (mask32 b)).length = 8 * b := by
      rw [length_shiftedValues, hlen, Nat.one_mul]
    have hsplit := splitInts_eq (ints.take (8 * b)) tmp (32 - b) 32 (mask32 b) 0
      (BitVec.allOnes 32) hinp (by omega) (by
        rw [hiters, htake]
        omega)
    rw [hiters, ← hws, splice_full (by rw [hshifted, htake])] at hsplit
    obtain ⟨scratch, hdef⟩ : ∃ scratch, scratch =
        splice tmp 0 (ws.map (· &&& BitVec.allOnes 32)) := ⟨_, rfl⟩
    have hslen : scratch.length = 256 := by
      rw [hdef, splice_length (by rw [List.length_map]; omega), htmp]
    have hscratch : ∀ i < 8 * b, slot scratch i = slot ws i &&& BitVec.allOnes 32 := by
      intro i hi
      rw [hdef, slot_splice_inside (by rw [List.length_map]; omega)
        (by rw [List.length_map]; omega), slot_map _ (by omega)]
    rw [← hdef] at hsplit
    -- all bits of the words are used up
    have hbits : (256 - 8 * b) * b = 8 * b * (32 - b) := by
      obtain ⟨c, rfl⟩ : ∃ c, b = 32 - c := ⟨32 - b, by omega⟩
      rw [show 256 - 8 * (32 - c) = 8 * c by omega, show 32 - (32 - c) = c by omega,
        Nat.mul_assoc, Nat.mul_assoc, Nat.mul_comm c]
    obtain ⟨vs, s, hvs, hcount, hvalues⟩ : ∃ vs s,
        nextValues mask32 b (32 - b) scratch (256 - 8 * b) (0, 32 - b) = .ok (vs, s) ∧
          vs.length = 256 - 8 * b ∧ ∀ m < 256 - 8 * b,
            ReadsFrom 32 b (32 - b) scratch (m * b) 0 (slot vs m) := by
      by_cases hfull : b = 32
      · subst hfull
        refine ⟨[], _, rfl, rfl, ?_⟩
        intro m hm
        exact absurd hm (by omega)
      · have hstart : readerAt (32 - b) 0 = (0, 32 - b) := by
          rw [readerAt, Nat.zero_div, Nat.zero_mod, Nat.sub_zero]
        have hroom : 0 + (256 - 8 * b) * b ≤ scratch.length * (32 - b) := by
          rw [Nat.zero_add, hbits, hslen]
          exact Nat.mul_le_mul_right _ (by omega)
        obtain ⟨vs, hvs, hcount, hvalues⟩ := nextValues_spec (Nat.dvd_refl 32)
          (fun m hm => isMask_mask32 hm) (by omega) (by omega) hhi (256 - 8 * b) 0 hroom
        rw [hstart] at hvs
        refine ⟨vs, _, hvs, hcount, ?_⟩
        intro m hm
        have h := hvalues m (by omega)
        rwa [Nat.zero_add] at h
    refine ⟨scratch, shiftedValues ws 1 (32 - b) 32 (mask32 b) ++ vs, ?_, by rw [hslen, blockSize],
      by rw [List.length_append, hshifted, hcount, blockSize]; omega, ?_⟩
    · simp only [decodeSlow, Nat.mul_comm b 8, hsplit, ok_bind, blockSize, hvs, id]
    · rw [← hws]
      refine unpacks_of_slots (isMask_mask32 hhi) hlen ?_ ?_
      · intro i hi
        rw [hdiv, Nat.one_mul] at hi
        rw [slot_append_left (by omega), hdiv]
        simp [shiftedValues]
      · intro m hm
        rw [hmod] at hm
        have hend : m * b + b ≤ 8 * b * (32 - b) := by
          rw [← hbits, ← Nat.succ_mul]
          exact Nat.mul_le_mul_right _ (by omega)
        have hslot := slot_append_right (shiftedValues ws 1 (32 - b) 32 (mask32 b)) vs m
        rw [hshifted] at hslot
        rw [hmod, hdiv, Nat.one_mul, hslot]
        refine (hvalues m (by omega)).congr (n := 8 * b) (by omega) (by omega) ?_ hend
        intro i hi q y _
        rw [hscratch i hi, BitVec.and_allOnes]
  · intro inp tmp ints htmp hints hinp
    simp only [decodeSlow, Nat.mul_comm b 8]
    rw [splitInts_short _ _ hinp (by rw [htmp, blockSize]; omega), err_bind]

/-- The size of the lanes that a width is packed in. -/
def lanesFor (b : Nat) : Nat := if b ≤ 8 then 8 else if b ≤ 16 then 16 else 32

/-- The values of the lanes. -/
def expandFor (b : Nat) : List U32 → List U32 :=
  if b ≤ 8 then expand8 else if b ≤ 16 then expand16 else id

theorem decode_eq_slow {b : Nat} (hlo : 17 ≤ b) (hhi : b ≤ 32) : decode b = decodeSlow b := by
  interval_cases b <;> rfl

theorem decode_decodes {b : Nat} (hlo : 1 ≤ b) (hhi : b ≤ 32) :
    Decodes (lanesFor b) b (expandFor b) (decode b) := by
  by_cases hslow : 17 ≤ b
  · rw [lanesFor, expandFor, if_neg (by omega), if_neg (by omega), if_neg (by omega),
      if_neg (by omega), decode_eq_slow hslow hhi]
    exact decodes_slow hslow hhi
  have hpw8 : 8 ∣ 32 := by decide
  have hpw16 : 16 ∣ 32 := by decide
  have hmask8 : ∀ m ≤ 8, IsMask 8 m (mask8 m) := fun m hm => isMask_mask8 hm
  have hmask16 : ∀ m ≤ 16, IsMask 16 m (mask16 m) := fun m hm => isMask_mask16 hm
  obtain hsmall : b ≤ 16 := by omega
  interval_cases b
  · exact decodes_inPlace (b := 1) (k := 6) (hmask8 1 (by decide)) rfl (by decide) rfl
  · exact decodes_inPlace (b := 2) (k := 2) (hmask8 2 (by decide)) rfl (by decide) rfl
  · exact decodes_unrolled hpw8 hmask8 body3_reads (by decide) (by decide) rfl (by decide) rfl rfl
      rfl rfl rfl (by decide) (by decide)
  · exact decodes_inPlace (b := 4) (k := 0) (hmask8 4 (by decide)) rfl (by decide) rfl
  · exact decodes_unrolled hpw8 hmask8 body5_reads (by decide) (by decide) rfl (by decide) rfl rfl
      rfl rfl rfl (by decide) (by decide)
  · exact decodes_unrolled hpw8 hmask8 body6_reads (by decide) (by decide) rfl (by decide) rfl rfl
      rfl rfl rfl (by decide) (by decide)
  · exact decodes_unrolled hpw8 hmask8 body7_reads (by decide) (by decide) rfl (by decide) rfl rfl
      rfl rfl rfl (by decide) (by decide)
  · exact decodes_words (by decide) (by decide)
  · exact decodes_unrolled hpw16 hmask16 body9_reads (by decide) (by decide) rfl (by decide) rfl
      rfl rfl rfl rfl (by decide) (by decide)
  · exact decodes_unrolled hpw16 hmask16 body10_reads (by decide) (by decide) rfl (by decide) rfl
      rfl rfl rfl rfl (by decide) (by decide)
  · exact decodes_unrolled hpw16 hmask16 body11_reads (by decide) (by decide) rfl (by decide) rfl
      rfl rfl rfl rfl (by decide) (by decide)
  · exact decodes_unrolled hpw16 hmask16 body12_reads (by decide) (by decide) rfl (by decide) rfl
      rfl rfl rfl rfl (by decide) (by decide)
  · exact decodes_unrolled hpw16 hmask16 body13_reads (by decide) (by decide) rfl (by decide) rfl
      rfl rfl rfl rfl (by decide) (by decide)
  · exact decodes_unrolled hpw16 hmask16 body14_reads (by decide) (by decide) rfl (by decide) rfl
      rfl rfl rfl rfl (by decide) (by decide)
  · exact decodes_unrolled hpw16 hmask16 body15_reads (by decide) (by decide) rfl (by decide) rfl
      rfl rfl rfl rfl (by decide) (by decide)
  · exact decodes_words (by decide) (by decide)

end LuceneRust.Codecs.ForUtil
