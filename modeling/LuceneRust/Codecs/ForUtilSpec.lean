import LuceneRust.Codecs.ForUtilEncode

/-!
# FOR and PFOR blocks

* `encode_decode`: a block of any width is read back as it was written.
* `pforSkip_iff`: skipping a PFOR block is decoding it without the values.
-/

namespace LuceneRust.Codecs.ForUtil

open RustSem LaneWord
open Store (Result SliceInput)

/-! ## Lanes -/

theorem getLsbD_of_toNat_lt {v : U32} {b i : Nat} (h : v.toNat < 2 ^ b) (hi : b ≤ i) :
    v.getLsbD i = false := by
  rw [BitVec.getLsbD, Nat.testBit_lt_two_pow (Nat.lt_of_lt_of_le h (Nat.pow_le_pow_right (by decide) hi))]

theorem eq_of_slots {l l' : List U32} (hlen : l.length = l'.length)
    (h : ∀ i < l.length, slot l i = slot l' i) : l = l' := by
  refine List.ext_getElem hlen ?_
  intro i hi hi'
  have hslot := h i hi
  rw [slot, slot, List.getD_eq_getElem _ _ hi, List.getD_eq_getElem _ _ hi'] at hslot
  exact hslot

theorem slot_mem {l : List U32} {i : Nat} (hi : i < l.length) : slot l i ∈ l := by
  rw [slot, List.getD_eq_getElem _ _ hi]
  exact List.getElem_mem hi

/-- The values of the lanes of the words, the highest lane first. -/
def expandLanes (p : Nat) (arr : List U32) : List U32 :=
  (List.range (32 / p)).flatMap fun j =>
    (arr.take (8 * p)).map fun l : U32 => (l >>> (p * (32 / p - 1 - j))) &&& mask32 p

/-- Lane by lane, the words `cs` are the values `vs`. -/
def Collapsed (p : Nat) (vs cs : List U32) : Prop :=
  ∀ i < 8 * p, ∀ q < 32 / p, ∀ y < p,
    lane p (slot cs i) q y = (slot vs ((32 / p - 1 - q) * (8 * p) + i)).getLsbD y

theorem expand8_eq (arr : List U32) : expand8 arr = expandLanes 8 arr := by
  simp [expand8, expandLanes, List.range_succ, mask32]

theorem expand16_eq (arr : List U32) : expand16 arr = expandLanes 16 arr := by
  simp [expand16, expandLanes, List.range_succ, mask32]

theorem expandLanes_32 {arr : List U32} (h : arr.length = blockSize) : expandLanes 32 arr = arr := by
  rw [blockSize] at h
  have hmask : ∀ l : U32, (l >>> (32 * (32 / 32 - 1 - 0))) &&& mask32 32 = l := fun l => by
    rw [mask32, if_neg (by decide), if_pos (by decide), BitVec.and_allOnes]
    exact BitVec.ushiftRight_zero l
  rw [expandLanes, show List.range (32 / 32) = [0] from rfl, List.flatMap_singleton,
    List.take_of_length_le (by omega), funext hmask]
  exact List.map_id arr

/-- A value that is moved up by whole lanes is in one of them. -/
theorem lane_put {p k q y : Nat} {v : U32} (hv : v.toNat < 2 ^ p) (hy : y < p)
    (hq : p * q + y < 32) : lane p (v <<< (p * k)) q y = (decide (q = k) && v.getLsbD y) := by
  rw [lane, BitVec.getLsbD_shiftLeft]
  rcases Nat.lt_trichotomy q k with hlt | rfl | hgt
  · have hmul := Nat.mul_le_mul_left p (Nat.succ_le_of_lt hlt)
    rw [Nat.mul_succ] at hmul
    simp [show p * q + y < p * k by omega, show q ≠ k by omega]
  · simp [hq]
  · have hmul := Nat.mul_le_mul_left p (Nat.succ_le_of_lt hgt)
    rw [Nat.mul_succ] at hmul
    rw [getLsbD_of_toNat_lt hv (show p ≤ p * q + y - p * k by omega)]
    simp [show q ≠ k by omega]

theorem collapsed_collapse8 {vs : List U32} (hvs : ∀ i, (slot vs i).toNat < 2 ^ 8) :
    Collapsed 8 vs (collapse8 vs) := by
  intro i hi q hq y hy
  have hcell : slot (collapse8 vs) i = (slot vs i <<< 24) ||| (slot vs (64 + i) <<< 16) |||
      (slot vs (128 + i) <<< 8) ||| slot vs (192 + i) := by
    rw [collapse8, slot_append_left (by simpa using hi)]
    simp [slot, List.getD_eq_getElem?_getD, List.getElem?_range, hi]
  have h0 := lane_put (k := 0) (hvs (192 + i)) hy (q := q) (by omega)
  have h1 := lane_put (k := 1) (hvs (128 + i)) hy (q := q) (by omega)
  have h2 := lane_put (k := 2) (hvs (64 + i)) hy (q := q) (by omega)
  have h3 := lane_put (k := 3) (hvs i) hy (q := q) (by omega)
  rw [Nat.mul_zero, BitVec.shiftLeft_zero] at h0
  rw [hcell, lane_or, lane_or, lane_or, h0, h1, h2, h3]
  have hcases : q = 0 ∨ q = 1 ∨ q = 2 ∨ q = 3 := by omega
  rcases hcases with rfl | rfl | rfl | rfl <;> simp

theorem collapsed_collapse16 {vs : List U32} (hvs : ∀ i, (slot vs i).toNat < 2 ^ 16) :
    Collapsed 16 vs (collapse16 vs) := by
  intro i hi q hq y hy
  have hcell : slot (collapse16 vs) i = (slot vs i <<< 16) ||| slot vs (128 + i) := by
    rw [collapse16, slot_append_left (by simpa using hi)]
    simp [slot, List.getD_eq_getElem?_getD, List.getElem?_range, hi]
  have h0 := lane_put (k := 0) (hvs (128 + i)) hy (q := q) (by omega)
  have h1 := lane_put (k := 1) (hvs i) hy (q := q) (by omega)
  rw [Nat.mul_zero, BitVec.shiftLeft_zero] at h0
  rw [hcell, lane_or, h0, h1]
  have hcases : q = 0 ∨ q = 1 := by omega
  rcases hcases with rfl | rfl <;> simp

theorem collapsed_32 (vs : List U32) : Collapsed 32 vs vs := by
  intro i _ q hq y _
  obtain rfl : q = 0 := by omega
  simp [lane]

/-- The lanes of the words have room for the width of the values. -/
theorem Collapsed.fits {p b : Nat} {vs cs : List U32} (hp : p = 8 ∨ p = 16 ∨ p = 32)
    (h : Collapsed p vs cs) (hvs : ∀ i, (slot vs i).toNat < 2 ^ b) {i : Nat} (hi : i < 8 * p) :
    FitsLanes p b (slot cs i) := by
  intro q y hb hy
  by_cases hq : q < 32 / p
  · rw [h i hi q hq y hy]
    exact getLsbD_of_toNat_lt (hvs _) hb
  · refine lane_of_ge ?_
    have hall : 32 ≤ p * q := by
      rcases hp with rfl | rfl | rfl <;> omega
    omega

/-- Expanding gives the collapsed values back. -/
theorem Collapsed.expand {p : Nat} {vs cs ds : List U32} (hp : p = 8 ∨ p = 16 ∨ p = 32)
    (h : Collapsed p vs cs) (hvs : ∀ i, (slot vs i).toNat < 2 ^ p) (hlen : vs.length = blockSize)
    (hds : ds.length = blockSize) (heq : ∀ i < 8 * p, slot ds i = slot cs i) :
    expandLanes p ds = vs := by
  have hp0 : 0 < p := by omega
  have hp32 : p ≤ 32 := by omega
  have hblock : 32 / p * (8 * p) = blockSize := by
    rcases hp with rfl | rfl | rfl <;> rfl
  have htake : ∀ f : U32 → U32, ((ds.take (8 * p)).map f).length = 8 * p := by
    intro f
    rw [List.length_map, List.length_take, hds, blockSize]
    omega
  have hexpand : (expandLanes p ds).length = blockSize := by
    rw [expandLanes, length_flatMap_range fun _ _ => htake _, hblock]
  refine eq_of_slots (by rw [hexpand, hlen]) ?_
  intro m hm
  rw [hexpand, ← hblock] at hm
  obtain ⟨j, i, rfl, hi⟩ : ∃ j i, m = j * (8 * p) + i ∧ i < 8 * p :=
    ⟨m / (8 * p), m % (8 * p), (Nat.div_add_mod' m _).symm, Nat.mod_lt m (by omega)⟩
  have hj : j < 32 / p := Nat.lt_of_mul_lt_mul_right (a := 8 * p) (by omega)
  rw [expandLanes, slot_flatMap_range (fun j _ => htake _) hj hi, slot_map _ (by
    rw [← htake id, List.map_id] at hi
    exact hi), slot_take hi, heq i hi]
  apply BitVec.eq_of_getLsbD_eq
  intro y hy
  rw [BitVec.getLsbD_and, BitVec.getLsbD_ushiftRight, getLsbD_mask32 hp32 hy]
  by_cases hyp : y < p
  · have hlane := h i hi (32 / p - 1 - j) (by omega) y hyp
    rw [lane, show 32 / p - 1 - (32 / p - 1 - j) = j by omega] at hlane
    rw [hlane, decide_eq_true hyp, Bool.and_true]
  · rw [decide_eq_false hyp, Bool.and_false, getLsbD_of_toNat_lt (hvs _) (by omega)]

/-! ## The round trip -/

theorem lanesFor_cases (b : Nat) : lanesFor b = 8 ∨ lanesFor b = 16 ∨ lanesFor b = 32 := by
  rw [lanesFor]
  split
  · simp
  · split <;> simp

theorem le_lanesFor {b : Nat} (hhi : b ≤ 32) : b ≤ lanesFor b := by
  rw [lanesFor]
  split
  · assumption
  · split <;> omega

/-- `ForUtil::encode` with the lanes of its width. -/
theorem encode_packs {b : Nat} (hlo : 1 ≤ b) (hhi : b ≤ 32) {values : List U32}
    (hlen : values.length = blockSize) (hvalues : ∀ i, (slot values i).toNat < 2 ^ b)
    (out : List U8) {tmp : List U32} (htmp : tmp.length = blockSize) :
    ∃ ws cs tmp', encode values b out tmp = .ok (out ++ ws.flatMap (toLeBytes 4), cs, tmp') ∧
      ws.length = 8 * b ∧ Packs (lanesFor b) b cs ws ∧ Collapsed (lanesFor b) values cs := by
  have hwide : ∀ {m : Nat}, b ≤ m → ∀ i, (slot values i).toNat < 2 ^ m := fun hm i =>
    Nat.lt_of_lt_of_le (hvalues i) (Nat.pow_le_pow_right (by decide) hm)
  obtain ⟨cs, hcs⟩ : ∃ cs, cs = (if lanesFor b = 8 then collapse8 values
    else if lanesFor b = 16 then collapse16 values else values) := ⟨_, rfl⟩
  have hp := lanesFor_cases b
  have hbp := le_lanesFor hhi
  have hcollapsed : Collapsed (lanesFor b) values cs := by
    rw [hcs]
    rcases hp with h | h | h
    · rw [h, if_pos rfl]
      exact collapsed_collapse8 (hwide (h ▸ hbp))
    · rw [h, if_neg (by decide), if_pos rfl]
      exact collapsed_collapse16 (hwide (h ▸ hbp))
    · rw [h, if_neg (by decide), if_neg (by decide)]
      exact collapsed_32 values
  have hclen : cs.length = blockSize := by
    rw [hcs]
    rw [blockSize] at hlen
    split
    · simp [collapse8, hlen, blockSize]
    · split
      · simp [collapse16, hlen, blockSize]
      · exact hlen
  obtain ⟨ws, tmp', hrun, hwlen, hpacks⟩ := encodeGeneric_packs hp hlo hbp hclen
    (fun i hi => hcollapsed.fits hp hvalues hi) out htmp
  refine ⟨ws, cs, tmp', ?_, hwlen, hpacks, hcollapsed⟩
  have hsize : (if b ≤ 8 then 8 else if b ≤ 16 then 16 else 32) = lanesFor b := rfl
  rw [encode, guardOk_pos ⟨hlo, hhi⟩, ok_bind]
  simp only [hsize, ← hcs, hrun, ok_bind]

/-- The words that were written are the words that are read. -/
theorem wordsAt_append {inp : SliceInput} {ws : List U32} {tail : List U8}
    (h : inp.rest = ws.flatMap (toLeBytes 4) ++ tail) : wordsAt inp ws.length = ws := by
  have hbytes : (ws.flatMap (toLeBytes 4)).length = 4 * ws.length := by
    simp [List.length_flatMap, Nat.mul_comm]
  rw [wordsAt, h, ← hbytes, List.take_left, chunks_flatMap (by decide) (toLeBytes_length 4),
    List.map_map]
  refine (List.map_congr_left ?_).trans (List.map_id ws)
  intro w _
  exact fromLeBytes_toLeBytes 4 w (by decide)

theorem expandFor_length {b : Nat} {ds : List U32} (h : ds.length = blockSize) :
    (expandFor b ds).length = blockSize := by
  rw [blockSize] at h ⊢
  rw [expandFor]
  split
  · simp [expand8, h]
  · split
    · simp [expand16, h]
    · exact h

theorem expandFor_eq {b : Nat} {ds : List U32} (h : ds.length = blockSize) :
    expandFor b ds = expandLanes (lanesFor b) ds := by
  rw [expandFor, lanesFor]
  split
  · exact expand8_eq ds
  · split
    · exact expand16_eq ds
    · exact (expandLanes_32 h).symm

/-- What is written of a block is a number of words, which are unpacked to its
values. -/
theorem encode_reads {b : Nat} (hlo : 1 ≤ b) (hhi : b ≤ 32) {values : List U32}
    (hlen : values.length = blockSize) (hvalues : ∀ v ∈ values, v.toNat < 2 ^ b)
    (out : List U8) {tmp : List U32} (htmp : tmp.length = blockSize) :
    ∃ bytes cs tmp', encode values b out tmp = .ok (out ++ bytes, cs, tmp') ∧
      bytes.length = 32 * b ∧
      ∀ scratch ints : List U32, scratch.length = blockSize → ints.length = blockSize →
        ∀ (inp : SliceInput) (tail : List U8), inp.rest = bytes ++ tail →
          ∃ scratch', decode b inp scratch ints = .ok (scratch', values, inp.advance bytes.length) := by
  have hslots : ∀ i, (slot values i).toNat < 2 ^ b := by
    intro i
    by_cases hi : i < values.length
    · exact hvalues _ (slot_mem hi)
    · rw [slot, List.getD_eq_default _ _ (by omega)]
      exact Nat.two_pow_pos b
  obtain ⟨ws, cs, tmp', hrun, hwlen, hpacks, hcollapsed⟩ :=
    encode_packs hlo hhi hlen hslots out htmp
  have hbytes : (ws.flatMap (toLeBytes 4)).length = 32 * b := by
    simp [List.length_flatMap, hwlen]
    omega
  refine ⟨ws.flatMap (toLeBytes 4), cs, tmp', hrun, hbytes, ?_⟩
  intro scratch ints hscratch hints inp tail hrest
  have hroom : 4 * (8 * b) ≤ inp.rest.length := by
    rw [hrest, List.length_append, hbytes]
    omega
  obtain ⟨scratch', ds, hdecode, -, hds, hunpacks⟩ :=
    (decode_decodes hlo hhi).reads inp scratch ints hscratch hints hroom
  rw [← hwlen, wordsAt_append hrest] at hunpacks
  have heq := slots_eq_of_packs hlo (le_lanesFor hhi) hpacks hunpacks
    fun i hi => hcollapsed.fits (lanesFor_cases b) hslots hi
  have hexpand := hcollapsed.expand (lanesFor_cases b) (fun i => Nat.lt_of_lt_of_le (hslots i)
    (Nat.pow_le_pow_right (by decide) (le_lanesFor hhi))) hlen hds heq
  refine ⟨scratch', ?_⟩
  rw [hdecode, expandFor_eq hds, hexpand, hbytes, show 4 * (8 * b) = 32 * b by omega]

/-- A block of any width is read back as it was written, whatever the scratch
buffers and the output array held. -/
theorem encode_decode {b : Nat} (hlo : 1 ≤ b) (hhi : b ≤ 32) {values : List U32}
    (hlen : values.length = blockSize) (hvalues : ∀ v ∈ values, v.toNat < 2 ^ b)
    (out : List U8) {tmp : List U32} (htmp : tmp.length = blockSize) :
    ∃ bytes cs tmp', encode values b out tmp = .ok (out ++ bytes, cs, tmp') ∧
      bytes.length = numBytes b ∧ numBytes b = 32 * b ∧
      ∀ (inp : SliceInput) (tail : List U8) (scratch ints : List U32),
        inp.rest = bytes ++ tail → scratch.length = blockSize → ints.length = blockSize →
        ∃ scratch' inp', decode b inp scratch ints = .ok (scratch', values, inp') ∧
          inp'.buf = inp.buf ∧ inp'.pos = inp.pos + numBytes b := by
  have hnum : numBytes b = 32 * b := by
    rw [numBytes, Nat.shiftLeft_eq, Nat.mul_comm]
  obtain ⟨bytes, cs, tmp', hrun, hbytes, hreads⟩ := encode_reads hlo hhi hlen hvalues out htmp
  refine ⟨bytes, cs, tmp', hrun, by rw [hbytes, hnum], hnum, ?_⟩
  intro inp tail scratch ints hrest hscratch hints
  obtain ⟨scratch', hdecode⟩ := hreads scratch ints hscratch hints inp tail hrest
  refine ⟨scratch', inp.advance bytes.length, hdecode, rfl, ?_⟩
  rw [SliceInput.pos_advance (by rw [hrest, List.length_append]; omega), hbytes, hnum]

theorem encode_decode_three :
    ∃ bytes cs tmp', encode (List.replicate blockSize 5#32) 3 [7#8] (List.replicate blockSize 9#32) =
        .ok ([7#8] ++ bytes, cs, tmp') ∧
      bytes.length = numBytes 3 ∧ numBytes 3 = 32 * 3 ∧
      ∀ (inp : SliceInput) (tail : List U8) (scratch ints : List U32),
        inp.rest = bytes ++ tail → scratch.length = blockSize → ints.length = blockSize →
        ∃ scratch' inp', decode 3 inp scratch ints =
            .ok (scratch', List.replicate blockSize 5#32, inp') ∧
          inp'.buf = inp.buf ∧ inp'.pos = inp.pos + numBytes 3 :=
  encode_decode (by decide) (by decide) (List.length_replicate ..) (by
    intro v hv
    rw [List.eq_of_mem_replicate hv]
    decide) [7#8] (List.length_replicate ..)

/-! ## PFOR -/

/-- The patches of a block take two bytes each. -/
theorem readExceptions_refines (bitsPerValue n : Nat) : ∀ (inp : SliceInput) (ints : List U32),
    ints.length = blockSize →
    Outcome.Refines (fun x inp' => x.2 = inp') (readExceptions bitsPerValue n inp ints)
      (inp.skip (n * 2)) := by
  induction n with
  | zero =>
    intro inp ints _
    rw [readExceptions, Nat.zero_mul, SliceInput.skip_of_le (Nat.zero_le _)]
    exact (SliceInput.advance_zero inp).symm
  | succ n ih =>
    intro inp ints hints
    have hbyte : ∀ {idx : U8} {bs : List U8}, inp.rest = idx :: bs → (inp.advance 1).rest = bs := by
      intro idx bs hrest
      rw [SliceInput.rest_advance, hrest, List.drop_one, List.tail_cons]
    rw [readExceptions]
    match hrest : inp.rest with
    | [] =>
      rw [SliceInput.readByte_nil hrest, SliceInput.skip_short (by rw [hrest, List.length_nil]; omega)]
      trivial
    | [idx] =>
      rw [SliceInput.readByte_cons hrest, ok_bind,
        SliceInput.skip_short (by rw [hrest, List.length_singleton]; omega)]
      simp only [SliceInput.readByte_nil (hbyte hrest)]
      trivial
    | idx :: patch :: bs =>
      have hidx : idx.toNat < ints.length := by
        rw [hints]
        exact idx.isLt
      have hlen : inp.rest.length = bs.length + 2 := by rw [hrest]; rfl
      have hlen' : (inp.advance 2).rest.length = bs.length := by
        rw [SliceInput.rest_advance, List.length_drop, hlen, Nat.add_sub_cancel]
      rw [SliceInput.readByte_cons hrest]
      simp only [SliceInput.readByte_cons (hbyte hrest), ok_bind, getElem?_slot hidx,
        expect_some, SliceInput.advance_advance]
      have hnext := ih (inp.advance 2) (ints.set idx.toNat (slot ints idx.toNat |||
        (patch.setWidth 32 <<< bitsPerValue))) (by rw [List.length_set, hints])
      by_cases hshort : inp.rest.length < (n + 1) * 2
      · rw [SliceInput.skip_short (by omega)] at hnext ⊢
        exact hnext.any_err
      · rw [SliceInput.skip_of_le (by omega), SliceInput.advance_advance] at hnext
        rw [SliceInput.skip_of_le (by omega), show (n + 1) * 2 = 2 + n * 2 by omega]
        exact hnext

/-- A block of a width takes the bytes that `num_bytes` counts. -/
theorem decode_refines {b : Nat} (hlo : 1 ≤ b) (hhi : b ≤ 32) (inp : SliceInput)
    {tmp ints : List U32} (htmp : tmp.length = blockSize) (hints : ints.length = blockSize) :
    Outcome.Refines (fun x inp' => x.2.1.length = blockSize ∧ x.2.2 = inp')
      (decode b inp tmp ints) (inp.skip (numBytes b)) := by
  have hnum : numBytes b = 4 * (8 * b) := by
    rw [numBytes, Nat.shiftLeft_eq]
    omega
  have hdecodes := decode_decodes hlo hhi
  by_cases hroom : 4 * (8 * b) ≤ inp.rest.length
  · obtain ⟨tmp', ds, hrun, -, hds, -⟩ := hdecodes.reads inp tmp ints htmp hints hroom
    rw [hrun, hnum, SliceInput.skip_of_le hroom]
    exact ⟨expandFor_length hds, rfl⟩
  · rw [hdecodes.short inp tmp ints htmp hints (by omega), SliceInput.skip_short (by omega)]
    trivial

theorem readByte_refl (inp : SliceInput) :
    Outcome.Refines (fun x y => x = y) inp.readByte inp.readByte := by
  rw [SliceInput.readByte]
  split
  · rfl
  · trivial

/-- A varint ends after five bytes at the latest, so that reading one does not
panic. -/
theorem readVint_refl (inp : SliceInput) :
    Outcome.Refines (fun x y => x = y) inp.readVint inp.readVint := by
  let μ : U8 × U32 × Nat × SliceInput → Nat := fun s => (36 - s.2.2.1) / 7
  have hpass : ∀ s t : U8 × U32 × Nat × SliceInput, s = t →
      Outcome.Refines (PassRel (fun s t => s = t) (fun r r' => r = r') μ (μ s))
        (Store.readVarintPass 32 28 s) (Store.readVarintPass 32 28 t) := by
    rintro ⟨b, v, shift, inp⟩ _ rfl
    rw [Store.readVarintPass]
    split
    · split
      · trivial
      · refine (readByte_refl inp).bind ?_
        rintro ⟨b', inp'⟩ _ - - rfl
        refine ⟨rfl, ?_⟩
        simp only [μ]
        omega
    · exact rfl
  rw [SliceInput.readVint, SliceInput.readInView]
  split
  · exact rfl
  · refine (readByte_refl inp).bind ?_
    rintro ⟨b, inp'⟩ _ - - rfl
    exact iterate_refines _ _ μ hpass 11 11 _ _ rfl (by simp [μ]) (by simp [μ])

/-- The patches come after the values in both branches. -/
theorem readExceptions_skip (token : U8) (tmp : List U32) {ints : List U32} (inp : SliceInput)
    (hlen : ints.length = blockSize) :
    Outcome.Refines (fun x inp' => x.2.2 = inp')
      (do
        let (ints, inp) ← readExceptions (token &&& 0x1F#8).toNat (token >>> 5).toNat inp ints
        (.ok (tmp, ints, inp) : Result (List U32 × List U32 × SliceInput)))
      (inp.skip ((token >>> 5).toNat <<< 1)) := by
  rw [Nat.shiftLeft_eq, Nat.pow_one]
  refine (readExceptions_refines _ _ inp ints hlen).bind_left ?_
  rintro ⟨ints', inp'⟩ _ rfl
  exact ⟨_, rfl, rfl⟩

/-- `pfor_skip` goes as `pfor_decode` does. -/
theorem pforDecode_refines (inp : SliceInput) {tmp ints : List U32} (htmp : tmp.length = blockSize)
    (hints : ints.length = blockSize) :
    Outcome.Refines (fun x inp' => x.2.2 = inp') (pforDecode inp tmp ints) (pforSkip inp) := by
  rw [pforDecode, pforSkip]
  refine (readByte_refl inp).bind ?_
  rintro ⟨token, inp₁⟩ _ - - rfl
  simp only
  have hbits : (token &&& 0x1F#8).toNat ≤ 31 := by
    rw [BitVec.toNat_and]
    exact Nat.and_le_right
  by_cases hzero : (token &&& 0x1F#8).toNat = 0
  · rw [if_pos hzero, if_pos hzero]
    refine (readVint_refl inp₁).bind ?_
    rintro ⟨v, inp₂⟩ _ - - rfl
    exact readExceptions_skip token tmp inp₂ (List.length_replicate ..)
  · rw [if_neg hzero, if_neg hzero]
    refine (decode_refines (by omega) (by omega) inp₁ htmp hints).bind ?_
    rintro ⟨tmp', ints', inp₂⟩ _ - - ⟨hlen, rfl⟩
    exact readExceptions_skip token tmp' inp₂ hlen

/-- Skipping a block succeeds where decoding it does, and both end in the same
place. -/
theorem pforSkip_iff (inp : SliceInput) {tmp ints : List U32} (htmp : tmp.length = blockSize)
    (hints : ints.length = blockSize) (inp' : SliceInput) :
    pforSkip inp = .ok inp' ↔
      ∃ tmp' ints', pforDecode inp tmp ints = .ok (tmp', ints', inp') := by
  have href := pforDecode_refines inp htmp hints
  constructor
  · intro h
    rw [h] at href
    obtain ⟨⟨tmp', ints', inp''⟩, hrun, rfl⟩ := href.ok_right
    exact ⟨tmp', ints', hrun⟩
  · rintro ⟨tmp', ints', h⟩
    rw [h] at href
    obtain ⟨inp'', hrun, rfl⟩ := href.ok_left
    exact hrun

/-- A block of equal values with one patch. -/
theorem pforSkip_iff_constant :
    pforSkip (SliceInput.new [0x20#8, 5#8, 3#8, 1#8, 9#8]) =
        .ok ((SliceInput.new [0x20#8, 5#8, 3#8, 1#8, 9#8]).advance 4) ↔
      ∃ tmp' ints', pforDecode (SliceInput.new [0x20#8, 5#8, 3#8, 1#8, 9#8])
          (List.replicate blockSize 0#32) (List.replicate blockSize 0#32) =
        .ok (tmp', ints', (SliceInput.new [0x20#8, 5#8, 3#8, 1#8, 9#8]).advance 4) :=
  pforSkip_iff _ (List.length_replicate ..) (List.length_replicate ..) _

end LuceneRust.Codecs.ForUtil
