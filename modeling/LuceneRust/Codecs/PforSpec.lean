import LuceneRust.Codecs.ForUtilSpec
import LuceneRust.Store.RoundTrip

/-!
# PFOR blocks, encoded and decoded

A block is written with the smallest width that leaves at most seven values
with bits above it.  Those are the patches, each of which fits a byte since the
width is at most eight below the widest value.

* `patchedBits_spec`: the width and the number of patches that the search finds.
* `takePatches_eq`: the patches and the values that are packed.
* `readExceptions_patches`: the patches put the values back together.
* `pforEncode_pforDecode`: the round trip.
-/

namespace LuceneRust.Codecs.ForUtil

open RustSem
open Store (Result SliceInput Reads writeByte writeVint vintBytes writeVint_eq)

/-! ## The width -/

theorem bitsRequired_le_iff {v : U32} {w : Nat} (hw : 1 ≤ w) :
    bitsRequired v ≤ w ↔ v.toNat < 2 ^ w := by
  rw [bitsRequired, Nat.max_le, and_iff_left hw]
  constructor
  · intro h
    exact BitVec.toNat_lt_two_pow_sub_clz.trans_le (Nat.pow_le_pow_right (by decide) h)
  · intro h
    by_cases hz : v = 0#32
    · subst hz
      exact (show 32 - (0#32).clz.toNat = 0 by decide).trans_le (Nat.zero_le w)
    · have hle := BitVec.two_pow_sub_clz_le_toNat_of_ne_zero (by decide) hz
      have hlt := (Nat.pow_lt_pow_iff_right (by decide)).1 (hle.trans_lt h)
      omega

theorem one_le_bitsRequired (v : U32) : 1 ≤ bitsRequired v := Nat.le_max_right _ _

theorem bitsRequired_le (v : U32) : bitsRequired v ≤ 32 :=
  (bitsRequired_le_iff (by decide)).2 v.isLt

/-- How many of the values need more than `w` bits. -/
def countAbove (ints : List U32) (w : Nat) : Nat := ints.countP fun v => decide (w < bitsRequired v)

theorem countBits_foldl (l : List U32) : ∀ s : List Nat × Nat,
    let t := l.foldl (fun s v =>
      (s.1.modify (bitsRequired v) (· + 1), max s.2 (bitsRequired v))) s
    (∀ w, t.1[w]? = s.1[w]?.map (· + l.countP fun v => bitsRequired v == w)) ∧
      s.2 ≤ t.2 ∧ ∀ v ∈ l, bitsRequired v ≤ t.2 := by
  induction l with
  | nil =>
    intro s
    exact ⟨fun w => by simp, Nat.le_refl _, nofun⟩
  | cons v l ih =>
    intro s
    obtain ⟨hcount, hle, hmem⟩ := ih
      (s.1.modify (bitsRequired v) (· + 1), max s.2 (bitsRequired v))
    refine ⟨fun w => ?_, (Nat.le_max_left _ _).trans hle, ?_⟩
    · rw [List.foldl_cons, hcount w, List.getElem?_modify, List.countP_cons]
      cases s.1[w]? with
      | none => simp
      | some c =>
        by_cases heq : bitsRequired v = w
        · subst heq
          simp only [if_true, Option.map_eq_map, Option.map_some, beq_self_eq_true, Option.some_inj]
          omega
        · simp [heq]
    · intro u hu
      rcases List.mem_cons.1 hu with rfl | hu
      · exact (Nat.le_max_right _ _).trans hle
      · exact hmem u hu

theorem countBits_histogram (ints : List U32) {w : Nat} (hw : w ≤ 32) :
    (countBits ints).1[w]? = some (ints.countP fun v => bitsRequired v == w) := by
  rw [countBits, (countBits_foldl ints _).1 w, List.getElem?_replicate, if_pos (by omega)]
  simp

theorem bitsRequired_le_max {ints : List U32} {v : U32} (hv : v ∈ ints) :
    bitsRequired v ≤ (countBits ints).2 := (countBits_foldl ints _).2.2 v hv

/-- The greatest width is that of one of the values. -/
theorem countBits_max_le {ints : List U32} {n : Nat} (h : ∀ v ∈ ints, bitsRequired v ≤ n) :
    (countBits ints).2 ≤ n := by
  have hfold (l : List U32) (hl : ∀ v ∈ l, bitsRequired v ≤ n) : ∀ s : List Nat × Nat, s.2 ≤ n →
      (l.foldl (fun s v =>
        (s.1.modify (bitsRequired v) (· + 1), max s.2 (bitsRequired v))) s).2 ≤ n := by
    induction l with
    | nil =>
      intro s hs
      exact hs
    | cons v l ih =>
      rw [List.forall_mem_cons] at hl
      intro s hs
      exact ih hl.2 _ (Nat.max_le.2 ⟨hs, hl.1⟩)
  exact hfold ints h _ (Nat.zero_le _)

theorem countAbove_succ (ints : List U32) (w : Nat) :
    countAbove ints w = countAbove ints (w + 1) + ints.countP fun v => bitsRequired v == w + 1 := by
  rw [countAbove, countAbove]
  induction ints with
  | nil => rfl
  | cons v ints ih =>
    rw [List.countP_cons, List.countP_cons, List.countP_cons, ih]
    rcases Nat.lt_trichotomy (bitsRequired v) (w + 1) with hlt | heq | hgt
    · simp [show ¬w < bitsRequired v by omega, show ¬w + 1 < bitsRequired v by omega,
        show bitsRequired v ≠ w + 1 by omega]
    · simp [heq]
      omega
    · simp [show w < bitsRequired v by omega, hgt, show bitsRequired v ≠ w + 1 by omega]
      omega

theorem countAbove_zero (ints : List U32) : countAbove ints 0 = ints.length :=
  List.countP_eq_length.2 fun v _ => decide_eq_true (one_le_bitsRequired v)

theorem countAbove_max (ints : List U32) : countAbove ints (countBits ints).2 = 0 :=
  List.countP_eq_zero.2 fun v hv => by
    rw [decide_eq_true_eq, Nat.not_lt]
    exact bitsRequired_le_max hv

/-- The search ends with a width that is not zero, that leaves at most seven
patches, and that is at most eight bits below the widest value. -/
theorem patchedBits_spec {ints : List U32} (hlen : ints.length = blockSize) :
    ∃ bits, patchedBits ints = .ok (bits, countAbove ints bits) ∧ 1 ≤ bits ∧
      bits ≤ (countBits ints).2 ∧ (countBits ints).2 ≤ bits + 8 ∧
      countAbove ints bits ≤ maxExceptions := by
  have hmax32 : (countBits ints).2 ≤ 32 := countBits_max_le fun v _ => bitsRequired_le v
  have hmax1 : 1 ≤ (countBits ints).2 := by
    obtain ⟨v, hv⟩ := List.exists_mem_of_length_pos (l := ints) (by rw [hlen]; decide)
    exact (one_le_bitsRequired v).trans (bitsRequired_le_max hv)
  let Found : Nat × Nat → Prop := fun r => r.2 = countAbove ints r.1 ∧ 1 ≤ r.1 ∧
    r.1 ≤ (countBits ints).2 ∧ (countBits ints).2 ≤ r.1 + 8 ∧ r.2 ≤ maxExceptions
  suffices h : ∃ r, patchedBits ints = .ok r ∧ Found r by
    obtain ⟨⟨bits, exceptions⟩, hrun, hfound⟩ := h
    have hcount : exceptions = countAbove ints bits := hfound.1
    subst hcount
    exact ⟨bits, hrun, hfound.2⟩
  refine iterate_ok (widthPass (countBits ints).1 ((countBits ints).2 - 8))
    (fun s => (countBits ints).2 - 8 ≤ s.1 ∧ s.1 ≤ (countBits ints).2 ∧
      s.2.1 = countAbove ints s.1 ∧ Found (s.2.2.1, s.2.2.2))
    (fun s => s.1) Found ?_ _ _ ?_ (Nat.lt_succ_of_le hmax32)
  · rintro ⟨b, cumulative, bits, exceptions⟩ ⟨hmin, hmax, hcount, hfound⟩
    dsimp only at hmin hmax hcount hfound
    subst hcount
    rw [widthPass]
    dsimp only
    split
    · exact .inr ⟨_, rfl, hfound⟩
    next hfew =>
    rw [countBits_histogram ints (by omega), expect_some, ok_bind]
    have hfound' : b ≠ 0 → Found (b, countAbove ints b) :=
      fun hb => ⟨rfl, by omega, hmax, by omega, Nat.not_lt.1 hfew⟩
    split
    next hstop =>
      -- all the values are above the width 0
      refine .inr ⟨_, rfl, hfound' fun hb => hfew ?_⟩
      rw [hb, countAbove_zero, hlen]
      decide
    next hgo =>
      obtain ⟨k, rfl⟩ : ∃ k, b = k + 1 := ⟨b - 1, by omega⟩
      rw [sub_of_le (by omega), ok_bind]
      refine .inl ⟨_, rfl, ⟨?_, ?_, ?_, hfound' (by omega)⟩, ?_⟩
      · dsimp only
        omega
      · dsimp only
        omega
      · exact (countAbove_succ ints k).symm
      · dsimp only
        omega
  · exact ⟨Nat.sub_le _ _, Nat.le_refl _, (countAbove_max ints).symm,
      (countAbove_max ints).symm, hmax1, Nat.le_refl _, Nat.le_add_right _ _, Nat.zero_le _⟩

/-! ## Patches -/

section

variable {bits : Nat}

theorem toNat_mask32 (hbits : bits < 32) : (mask32 bits).toNat = 2 ^ bits - 1 := by
  have hlt : 2 ^ bits < 2 ^ 32 := Nat.pow_lt_pow_right (by decide) hbits
  rw [mask32]
  split
  next h => rw [h]; rfl
  next h =>
    have hpos : 1 ≤ 2 ^ bits := Nat.one_le_two_pow
    rw [if_neg (by omega), BitVec.toNat_sub, BitVec.toNat_shiftLeft,
      BitVec.toNat_ofNat, Nat.mod_eq_of_lt (by decide : 1 < 2 ^ 32), Nat.one_shiftLeft,
      Nat.mod_eq_of_lt hlt]
    omega

/-- A patch is a value that needs more than the width. -/
theorem mask32_lt_iff (hlo : 1 ≤ bits) (hbits : bits < 32) (v : U32) :
    mask32 bits < v ↔ bits < bitsRequired v := by
  have hpos : 1 ≤ 2 ^ bits := Nat.one_le_two_pow
  rw [BitVec.lt_def, toNat_mask32 hbits, ← Nat.not_le, ← Nat.not_le, bitsRequired_le_iff hlo]
  omega

theorem toNat_and_mask32 (hbits : bits < 32) (v : U32) :
    (v &&& mask32 bits).toNat = v.toNat % 2 ^ bits := by
  rw [BitVec.toNat_and, toNat_mask32 hbits, Nat.and_two_pow_sub_one_eq_mod]

theorem and_mask32_of_le (hbits : bits < 32) {v : U32} (h : ¬mask32 bits < v) :
    v &&& mask32 bits = v := by
  rw [BitVec.lt_def, toNat_mask32 hbits] at h
  refine BitVec.eq_of_toNat_eq ?_
  have hpos : 1 ≤ 2 ^ bits := Nat.one_le_two_pow
  rw [toNat_and_mask32 hbits, Nat.mod_eq_of_lt (by omega)]

/-- The bits below the width and those above it. -/
theorem or_above (hbits : bits < 32) (v : U32) :
    (v &&& mask32 bits) ||| ((v >>> bits) <<< bits) = v := by
  refine BitVec.eq_of_getLsbD_eq fun i hi => ?_
  rw [BitVec.getLsbD_or, BitVec.getLsbD_and, getLsbD_mask32 hbits.le hi,
    BitVec.getLsbD_shiftLeft, BitVec.getLsbD_ushiftRight]
  by_cases h : i < bits
  · simp [h]
  · simp [h, hi, show bits + (i - bits) = i by omega]

/-- The patches of the values from index `i` on. -/
def patchesFrom (bits : Nat) : Nat → List U32 → List (U8 × U8)
  | _, [] => []
  | i, v :: values =>
    if mask32 bits < v then
      (BitVec.ofNat 8 i, (v >>> bits).setWidth 8) :: patchesFrom bits (i + 1) values
    else patchesFrom bits (i + 1) values

theorem length_patchesFrom (hlo : 1 ≤ bits) (hbits : bits < 32) (values : List U32) :
    ∀ i, (patchesFrom bits i values).length = countAbove values bits := by
  induction values with
  | nil =>
    intro i
    rfl
  | cons v values ih =>
    intro i
    rw [patchesFrom, countAbove, List.countP_cons, ← countAbove]
    by_cases h : mask32 bits < v
    · rw [if_pos h, List.length_cons, ih, if_pos (decide_eq_true ((mask32_lt_iff hlo hbits v).1 h))]
    · have hle : ¬bits < bitsRequired v := fun hlt => h ((mask32_lt_iff hlo hbits v).2 hlt)
      simp [h, hle, ih]

/-- The loop takes the patches, and leaves the bits below the width. -/
theorem takePatches_eq (hbits : bits < 32) (values : List U32) :
    ∀ (i : Nat) (patches : List (U8 × U8)),
      patches.length + (patchesFrom bits i values).length ≤ maxExceptions →
      takePatches bits i values patches =
        .ok (patches ++ patchesFrom bits i values, values.map (· &&& mask32 bits)) := by
  induction values with
  | nil =>
    intro i patches _
    rw [takePatches, patchesFrom, List.append_nil]
    rfl
  | cons v values ih =>
    intro i patches hfew
    rw [takePatches, patchesFrom, List.map_cons]
    rw [patchesFrom] at hfew
    split
    next h =>
      rw [if_pos h, List.length_cons] at hfew
      rw [guardOk_pos (by omega), ok_bind,
        ih (i + 1) _ (by rw [List.length_append, List.length_singleton]; omega), ok_bind,
        List.append_assoc]
      rfl
    next h =>
      rw [if_neg h] at hfew
      rw [ih (i + 1) _ hfew, ok_bind, and_mask32_of_le hbits h]

/-- One exception that is read. -/
def patchInto (bitsPerValue : Nat) (ints : List U32) (p : U8 × U8) : List U32 :=
  ints.set p.1.toNat (slot ints p.1.toNat ||| (p.2.setWidth 32 <<< bitsPerValue))

/-- The bytes of patches. -/
def patchBytes (patches : List (U8 × U8)) : List U8 := patches.flatMap fun p => [p.1, p.2]

theorem readExceptions_patches (bitsPerValue : Nat) (patches : List (U8 × U8)) :
    ∀ {ints : List U32} (_ : ints.length = blockSize),
      Reads (fun inp => (readExceptions bitsPerValue patches.length inp ints))
        (patchBytes patches) (patches.foldl (patchInto bitsPerValue) ints) := by
  induction patches with
  | nil =>
    intro ints _ inp tail _
    change Outcome.ok (ints, inp) = _
    exact congrArg (fun inp => Outcome.ok (ints, inp)) (SliceInput.advance_zero inp).symm
  | cons p patches ih =>
    intro ints hints inp tail hrest
    have hidx : p.1.toNat < ints.length := by
      rw [hints]
      exact p.1.isLt
    have hrest' : inp.rest = p.1 :: p.2 :: (patchBytes patches ++ tail) := hrest
    have hnext : (inp.advance 1).rest = p.2 :: (patchBytes patches ++ tail) := by
      rw [SliceInput.rest_advance, hrest', List.drop_one, List.tail_cons]
    have hthen : (inp.advance 2).rest = patchBytes patches ++ tail := by
      rw [SliceInput.rest_advance, hrest', List.drop_succ_cons, List.drop_one, List.tail_cons]
    change readExceptions bitsPerValue (patches.length + 1) inp ints = _
    rw [readExceptions, SliceInput.readByte_cons hrest']
    simp only [SliceInput.readByte_cons hnext, ok_bind, getElem?_slot hidx,
      expect_some, SliceInput.advance_advance]
    refine (@ih (patchInto bitsPerValue ints p) (by rw [patchInto, List.length_set, hints])
      (inp.advance 2) tail hthen).trans ?_
    rw [SliceInput.advance_advance]
    exact congrArg (fun n => Outcome.ok (_, inp.advance n))
      (by rw [patchBytes, patchBytes, List.flatMap_cons, List.length_append]; rfl)

/-- The patches put the values back together.  `shift` is how the patch of a
value is stored. -/
theorem foldl_patchInto {bitsPerValue : Nat} {shift : U8 → U8} (hbits : bits < 32)
    (values : List U32)
    (hshift : ∀ v ∈ values, (shift ((v >>> bits).setWidth 8)).setWidth 32 <<< bitsPerValue =
      (v >>> bits) <<< bits) :
    ∀ pre : List U32, pre.length + values.length ≤ blockSize →
      ((patchesFrom bits pre.length values).map fun p => (p.1, shift p.2)).foldl
          (patchInto bitsPerValue) (pre ++ values.map (· &&& mask32 bits)) = pre ++ values := by
  induction values with
  | nil =>
    intro pre _
    rfl
  | cons v values ih =>
    rw [List.forall_mem_cons] at hshift
    intro pre hlen
    have hnext := ih hshift.2 (pre ++ [v])
    rw [List.length_append, List.length_singleton, List.append_assoc, List.append_assoc] at hnext
    rw [List.length_cons] at hlen
    rw [patchesFrom, List.map_cons]
    split
    next h =>
      rw [List.map_cons, List.foldl_cons, patchInto]
      have hidx : (BitVec.ofNat 8 pre.length).toNat = pre.length := by
        rw [BitVec.toNat_ofNat, Nat.mod_eq_of_lt (by rw [blockSize] at hlen; omega)]
      have hslot := slot_append_right pre ((v &&& mask32 bits) :: values.map (· &&& mask32 bits)) 0
      rw [Nat.add_zero] at hslot
      dsimp only
      rw [hidx, hslot, hshift.1, List.set_append_right _ _ (Nat.le_refl _), Nat.sub_self,
        List.set_cons_zero, show slot (_ :: _) 0 = v &&& mask32 bits from rfl, or_above hbits]
      exact hnext (by omega)
    next h =>
      rw [and_mask32_of_le hbits h]
      exact hnext (by omega)

/-! ## The bytes of a patch -/

theorem toNat_above_lt {maxBits : Nat} {v : U32} (hv : v.toNat < 2 ^ maxBits)
    (hmax : maxBits ≤ bits + 8) : (v >>> bits).toNat < 2 ^ 8 := by
  rw [BitVec.toNat_ushiftRight, Nat.shiftRight_eq_div_pow,
    Nat.div_lt_iff_lt_mul (Nat.two_pow_pos bits), ← Nat.pow_add, Nat.add_comm]
  exact hv.trans_le (Nat.pow_le_pow_right (by decide) hmax)

theorem toNat_above_shiftLeft_le (v : U32) : ((v >>> bits) <<< bits).toNat ≤ v.toNat := by
  rw [BitVec.toNat_shiftLeft, BitVec.toNat_ushiftRight, Nat.shiftRight_eq_div_pow,
    Nat.shiftLeft_eq]
  exact (Nat.mod_le _ _).trans (Nat.div_mul_le_self _ _)

/-- The patch of a packed block is the bits above the width. -/
theorem patch_shift {v : U32} (h : (v >>> bits).toNat < 2 ^ 8) :
    ((v >>> bits).setWidth 8).setWidth 32 <<< bits = (v >>> bits) <<< bits := by
  refine congrArg (fun w : U32 => w <<< bits) (BitVec.eq_of_toNat_eq ?_)
  rw [BitVec.toNat_setWidth, BitVec.toNat_setWidth, Nat.mod_eq_of_lt h,
    Nat.mod_eq_of_lt (h.trans (by decide))]

/-- The patch of the all-equal form has been shifted, in a byte that loses
none of its bits. -/
theorem patch_preShift {v : U32} (h : v.toNat < 2 ^ 8) :
    (((v >>> bits).setWidth 8 : U8) <<< bits).setWidth 32 <<< 0 = (v >>> bits) <<< bits := by
  rw [BitVec.shiftLeft_zero]
  refine BitVec.eq_of_getLsbD_eq fun i hi => ?_
  rw [BitVec.getLsbD_setWidth, BitVec.getLsbD_shiftLeft, BitVec.getLsbD_setWidth,
    BitVec.getLsbD_shiftLeft, BitVec.getLsbD_ushiftRight]
  by_cases hbits : i < bits
  · simp [hbits]
  · rw [show bits + (i - bits) = i by omega]
    by_cases hbyte : i < 8
    · simp [hi, hbyte, show i - bits < 8 by omega]
    · have htop : v.getLsbD i = false :=
        Nat.testBit_eq_false_of_lt (h.trans_le (Nat.pow_le_pow_right (by decide) (by omega)))
      simp [htop]

theorem writePatches_eq (patches : List (U8 × U8)) :
    ∀ out, writePatches patches out = out ++ patchBytes patches := by
  induction patches with
  | nil =>
    intro out
    exact (List.append_nil out).symm
  | cons p patches ih =>
    intro out
    rw [writePatches, List.foldl_cons, ← writePatches, ih, writeByte, writeByte, patchBytes,
      patchBytes, List.flatMap_cons, List.append_assoc, List.append_assoc]
    rfl

attribute [local simp] writeShiftedPatches

theorem writeShiftedPatches_eq (patches : List (U8 × U8)) (h : patches ≠ [] → bits < 8) :
    ∀ out, writeShiftedPatches bits patches out =
      .ok (out ++ patchBytes (patches.map fun p : U8 × U8 => (p.1, p.2 <<< bits))) := by
  induction patches with
  | nil =>
    intro out
    rw [writeShiftedPatches, List.map_nil, patchBytes, List.flatMap_nil, List.append_nil]
  | cons p patches ih =>
    intro out
    have hbits : bits < 8 := h (List.cons_ne_nil _ _)
    rw [writeShiftedPatches, guardOk_pos hbits, ok_bind, ih fun _ => hbits,
      writeByte, writeByte, patchBytes, patchBytes, List.map_cons, List.flatMap_cons, List.append_assoc,
      List.append_assoc]
    rfl

/-- The token of a block says the width and the number of patches. -/
theorem token_fields {exceptions : Nat} (hbits : bits ≤ 31) (hfew : exceptions ≤ maxExceptions) :
    (BitVec.ofNat 8 ((exceptions <<< 5) ||| bits) &&& 0x1F#8).toNat = bits ∧
      (BitVec.ofNat 8 ((exceptions <<< 5) ||| bits) >>> 5).toNat = exceptions := by
  have h : ∀ e : Fin 8, ∀ b : Fin 32,
      (BitVec.ofNat 8 ((e.val <<< 5) ||| b.val) &&& 0x1F#8).toNat = b.val ∧
        (BitVec.ofNat 8 ((e.val <<< 5) ||| b.val) >>> 5).toNat = e.val := by decide +kernel
  exact h ⟨exceptions, Nat.lt_succ_of_le hfew⟩ ⟨bits, Nat.lt_succ_of_le hbits⟩

end

/-! ## A block -/

/-- What the encoder makes of a block: its width, its patches and the values
that are packed. -/
structure Patched (ints : List U32) (bits : Nat) (patches : List (U8 × U8)) (values : List U32) :
    Prop where
  width : patchedBits ints = .ok (bits, patches.length)
  taken : (if 0 < patches.length then takePatches bits 0 ints [] else .ok ([], ints)) =
    .ok (patches, values)
  one_le : 1 ≤ bits
  le : bits ≤ 31
  few : patches.length ≤ maxExceptions
  fits : ∀ v ∈ ints, (v >>> bits).toNat < 2 ^ 8

/-- The condition of the all-equal form. -/
def EqualForm (ints values : List U32) : Prop := allEqual values ∧ (countBits ints).2 ≤ 8

instance (ints values : List U32) : Decidable (EqualForm ints values) :=
  inferInstanceAs (Decidable (_ ∧ _))

theorem exists_patched {ints : List U32} (hlen : ints.length = blockSize)
    (hfits : ∀ v ∈ ints, v.toNat < 2 ^ 31) :
    ∃ bits, Patched ints bits (patchesFrom bits 0 ints) (ints.map (· &&& mask32 bits)) := by
  obtain ⟨bits, hwidth, hone, hle, hmax, hfew⟩ := patchedBits_spec hlen
  have hmax31 : (countBits ints).2 ≤ 31 :=
    countBits_max_le fun v hv => (bitsRequired_le_iff (by decide)).2 (hfits v hv)
  have hbits : bits < 32 := by omega
  have hpatches := length_patchesFrom hone hbits ints 0
  refine ⟨bits, ?_, ?_, hone, by omega, by rw [hpatches]; exact hfew, ?_⟩
  · rw [hwidth, hpatches]
  · split
    next h => exact takePatches_eq hbits ints 0 [] (by simpa [hpatches] using hfew)
    next h =>
      have hnone : countAbove ints bits = 0 := by omega
      have hmap : ints.map (· &&& mask32 bits) = ints := by
        refine (List.map_congr_left fun v hv => ?_).trans (List.map_id ints)
        rw [countAbove, List.countP_eq_zero] at hnone
        refine and_mask32_of_le hbits fun hlt => hnone v hv ?_
        exact decide_eq_true ((mask32_lt_iff hone hbits v).1 hlt)
      rw [hmap, List.length_eq_zero_iff.1 (hpatches.trans hnone)]
  · intro v hv
    exact toNat_above_lt ((bitsRequired_le_iff (by omega)).1 (bitsRequired_le_max hv)) hmax

/-- The two forms of a block. -/
theorem Patched.pforEncode_eq {ints values : List U32} {bits : Nat} {patches : List (U8 × U8)}
    (h : Patched ints bits patches values) (bmi2 : Bool) (out : List U8) (tmp : List U32) :
    pforEncode bmi2 ints out tmp =
      (if EqualForm ints values then do
        let out ← writeShiftedPatches bits patches (writeVint bmi2
          (writeByte out (BitVec.ofNat 8 (patches.length <<< 5))) (slot values 0))
        .ok (out, values, tmp)
      else do
        let (out, values, tmp) ← encode values bits
          (writeByte out (BitVec.ofNat 8 ((patches.length <<< 5) ||| bits))) tmp
        .ok (writePatches patches out, values, tmp)) := by
  have htaken := h.taken
  rw [pforEncode, h.width, ok_bind]
  dsimp only
  split at htaken
  next hsome => rw [if_pos hsome, htaken, ok_bind]; rfl
  next hnone => rw [if_neg hnone, htaken, ok_bind]; rfl

theorem allEqual_eq {values : List U32} (hlen : values.length = blockSize) (h : allEqual values) :
    List.replicate blockSize (slot values 0) = values := by
  refine (List.eq_replicate_iff.2 ⟨hlen, fun v hv => ?_⟩).symm
  rw [allEqual, List.all_eq_true] at h
  exact eq_of_beq (h v hv)

/-- The patches of a block are read after its values. -/
theorem pforDecode_patches {token : U8} {patches : List (U8 × U8)} {body tail : List U8}
    {inp : SliceInput} {scratch scratch' dest values ints : List U32}
    (hrest : inp.rest = token :: (body ++ patchBytes patches) ++ tail)
    (hcount : (token >>> 5).toNat = patches.length) (hvalues : values.length = blockSize)
    (hpatches : patches.foldl (patchInto (token &&& 0x1F#8).toNat) values = ints)
    (hbody : if (token &&& 0x1F#8).toNat = 0 then
        scratch' = scratch ∧ ∃ v, List.replicate blockSize v = values ∧
          (inp.advance 1).readVint = .ok (v, (inp.advance 1).advance body.length)
      else decode (token &&& 0x1F#8).toNat (inp.advance 1) scratch dest =
        .ok (scratch', values, (inp.advance 1).advance body.length)) :
    pforDecode inp scratch dest =
      .ok (scratch', ints, inp.advance (token :: (body ++ patchBytes patches)).length) := by
  rw [List.cons_append, List.append_assoc] at hrest
  have hnext : (inp.advance 1).rest = body ++ (patchBytes patches ++ tail) := by
    rw [SliceInput.rest_advance, hrest, List.drop_one, List.tail_cons]
  have hread := readExceptions_patches (token &&& 0x1F#8).toNat patches hvalues _ tail
    (SliceInput.rest_advance_append hnext)
  rw [hpatches] at hread
  have hend : ((inp.advance 1).advance body.length).advance (patchBytes patches).length =
      inp.advance (token :: (body ++ patchBytes patches)).length := by
    rw [SliceInput.advance_advance, SliceInput.advance_advance, List.length_cons,
      List.length_append]
    exact congrArg inp.advance (by omega)
  rw [hend] at hread
  rw [pforDecode, SliceInput.readByte_cons hrest, ok_bind]
  dsimp only at hread ⊢
  split at hbody
  next hzero =>
    obtain ⟨rfl, v, rfl, hvint⟩ := hbody
    rw [if_pos hzero, hvint, ok_bind, ok_bind, hcount, hread, ok_bind]
  next hwidth => rw [if_neg hwidth, hbody, ok_bind, hcount, hread, ok_bind]

/-- A block is read back as it was given, whatever the scratch buffers and the
destination held, and no byte after it is read.  The token has the width 0 in
the all-equal form only. -/
theorem pforEncode_pforDecode (bmi2 : Bool) {ints : List U32} (hlen : ints.length = blockSize)
    (hfits : ∀ v ∈ ints, v.toNat < 2 ^ 31) (out : List U8) {tmp : List U32}
    (htmp : tmp.length = blockSize) :
    ∃ bits patches values token body cs tmp',
      Patched ints bits patches values ∧
      pforEncode bmi2 ints out tmp = .ok (out ++ token :: body, cs, tmp') ∧
      (token &&& 0x1F#8).toNat = (if EqualForm ints values then 0 else bits) ∧
      (token >>> 5).toNat = patches.length ∧
      (EqualForm ints values → ∀ v ∈ ints, ((v >>> bits) <<< bits).toNat < 2 ^ 8) ∧
      ∀ (inp : SliceInput) (tail : List U8) (scratch dest : List U32),
        inp.rest = token :: body ++ tail → scratch.length = blockSize → dest.length = blockSize →
        ∃ scratch' inp', pforDecode inp scratch dest = .ok (scratch', ints, inp') ∧
          inp'.buf = inp.buf ∧ inp'.pos = inp.pos + (token :: body).length := by
  obtain ⟨bits, hpatched⟩ := exists_patched hlen hfits
  generalize hvalues : ints.map (· &&& mask32 bits) = values at hpatched
  generalize hpatches : patchesFrom bits 0 ints = patches at hpatched
  have hbits : bits < 32 := Nat.lt_succ_of_le hpatched.le
  have hvlen : values.length = blockSize := by
    rw [← hvalues, List.length_map, hlen]
  have hsmall : EqualForm ints values → ∀ v ∈ ints, v.toNat < 2 ^ 8 := fun hequal v hv =>
    (bitsRequired_le_iff (by decide)).1 ((bitsRequired_le_max hv).trans hequal.2)
  -- what is read of a block, and where reading it ends
  suffices h : ∃ token body cs tmp',
      pforEncode bmi2 ints out tmp = .ok (out ++ token :: body, cs, tmp') ∧
      (token &&& 0x1F#8).toNat = (if EqualForm ints values then 0 else bits) ∧
      (token >>> 5).toNat = patches.length ∧
      ∀ scratch dest : List U32, scratch.length = blockSize → dest.length = blockSize →
        ∀ (inp : SliceInput) (tail : List U8), inp.rest = token :: body ++ tail →
        ∃ scratch', pforDecode inp scratch dest =
          .ok (scratch', ints, inp.advance (token :: body).length) by
    obtain ⟨token, body, cs, tmp', hrun, htoken, hcount, hdecode⟩ := h
    refine ⟨bits, patches, values, token, body, cs, tmp', hpatched, hrun, htoken, hcount,
      fun hequal v hv => (toNat_above_shiftLeft_le v).trans_lt (hsmall hequal v hv), ?_⟩
    intro inp tail scratch dest hrest hscratch hdest
    obtain ⟨scratch', hread⟩ := hdecode scratch dest hscratch hdest inp tail hrest
    exact ⟨scratch', _, hread, rfl,
      SliceInput.pos_advance (by rw [hrest, List.length_append]; omega)⟩
  by_cases hequal : EqualForm ints values
  · obtain ⟨hzero, hcount⟩ := @token_fields 0 patches.length (Nat.zero_le _) hpatched.few
    rw [Nat.or_zero] at hzero hcount
    refine ⟨_, vintBytes (slot values 0) ++
      patchBytes (patches.map fun p : U8 × U8 => (p.1, p.2 <<< bits)), values, tmp, ?_,
      by rw [hzero, if_pos hequal], hcount, ?_⟩
    · -- a patch needs a bit of the lowest byte
      have hshift : patches ≠ [] → bits < 8 := by
        intro hne
        have hpos := List.length_pos_of_ne_nil hne
        rw [← hpatches, length_patchesFrom hpatched.one_le hbits, countAbove,
          List.countP_pos_iff] at hpos
        obtain ⟨v, hv, habove⟩ := hpos
        exact (of_decide_eq_true habove).trans_le ((bitsRequired_le_max hv).trans hequal.2)
      rw [hpatched.pforEncode_eq, if_pos hequal, writeVint_eq, writeShiftedPatches_eq patches hshift,
        ok_bind, writeByte, List.append_assoc, List.append_assoc]
      rfl
    · intro scratch dest hscratch hdest inp tail hrest
      refine ⟨scratch, pforDecode_patches hrest (by rw [hcount, List.length_map]) hvlen ?_ ?_⟩
      · rw [hzero, ← hvalues, ← hpatches]
        exact @foldl_patchInto bits 0 (fun patch => patch <<< bits) hbits ints
          (fun v hv => patch_preShift (hsmall hequal v hv)) [] (by simp [hlen])
      · rw [if_pos hzero]
        refine ⟨rfl, _, allEqual_eq hvlen hequal.1, ?_⟩
        have hnext := SliceInput.rest_advance inp 1
        rw [hrest, List.cons_append, List.drop_one, List.tail_cons, List.append_assoc] at hnext
        exact Store.reads_readVint (slot values 0) (inp.advance 1) _ hnext
  · obtain ⟨hwidth, hcount⟩ := token_fields hpatched.le hpatched.few
    have hlow : ∀ v ∈ values, v.toNat < 2 ^ bits := by
      intro w hw
      rw [← hvalues] at hw
      obtain ⟨v, -, rfl⟩ := List.mem_map.1 hw
      rw [toNat_and_mask32 hbits]
      exact Nat.mod_lt _ (Nat.two_pow_pos bits)
    obtain ⟨body, cs, tmp', hrun, -, hreads⟩ := encode_reads hpatched.one_le (by omega) hvlen
      hlow (writeByte out (BitVec.ofNat 8 ((patches.length <<< 5) ||| bits))) htmp
    refine ⟨_, body ++ patchBytes patches, cs, tmp', ?_, by rw [hwidth, if_neg hequal], hcount, ?_⟩
    · rw [hpatched.pforEncode_eq, if_neg hequal, hrun, ok_bind]
      dsimp only
      rw [writePatches_eq, writeByte, List.append_assoc, List.append_assoc]
      rfl
    · intro scratch dest hscratch hdest inp tail hrest
      have hnext : (inp.advance 1).rest = body ++ (patchBytes patches ++ tail) := by
        rw [SliceInput.rest_advance, hrest, List.cons_append, List.drop_one, List.tail_cons,
          List.append_assoc]
      obtain ⟨scratch', hdecode⟩ := hreads scratch dest hscratch hdest _ _ hnext
      refine ⟨scratch', pforDecode_patches hrest hcount hvlen ?_ ?_⟩
      · rw [hwidth, ← hvalues, ← hpatches]
        have hfold := @foldl_patchInto bits bits id hbits ints
          (fun v hv => patch_shift (hpatched.fits v hv)) [] (by simp [hlen])
        have hid : (patchesFrom bits 0 ints).map (fun p : U8 × U8 => (p.1, id p.2)) =
            patchesFrom bits 0 ints := List.map_id _
        rwa [List.length_nil, hid] at hfold
      · rw [hwidth, if_neg (Nat.one_le_iff_ne_zero.1 hpatched.one_le)]
        exact hdecode

/-- A block with one patch. -/
theorem pforEncode_pforDecode_patch :
    ∃ bits patches values token body cs tmp',
      Patched (1000#32 :: List.replicate 255 5#32) bits patches values ∧
      pforEncode false (1000#32 :: List.replicate 255 5#32) [7#8] (List.replicate blockSize 9#32) =
        .ok ([7#8] ++ token :: body, cs, tmp') ∧
      (token &&& 0x1F#8).toNat =
        (if EqualForm (1000#32 :: List.replicate 255 5#32) values then 0 else bits) ∧
      (token >>> 5).toNat = patches.length ∧
      (EqualForm (1000#32 :: List.replicate 255 5#32) values →
        ∀ v ∈ 1000#32 :: List.replicate 255 5#32, ((v >>> bits) <<< bits).toNat < 2 ^ 8) ∧
      ∀ (inp : SliceInput) (tail : List U8) (scratch dest : List U32),
        inp.rest = token :: body ++ tail → scratch.length = blockSize → dest.length = blockSize →
        ∃ scratch' inp', pforDecode inp scratch dest =
            .ok (scratch', 1000#32 :: List.replicate 255 5#32, inp') ∧
          inp'.buf = inp.buf ∧ inp'.pos = inp.pos + (token :: body).length :=
  pforEncode_pforDecode false (by rw [List.length_cons, List.length_replicate]; rfl) (by
    rw [List.forall_mem_cons]
    refine ⟨by decide, fun v hv => ?_⟩
    rw [List.eq_of_mem_replicate hv]
    decide) [7#8] (List.length_replicate ..)

end LuceneRust.Codecs.ForUtil
