import LuceneRust.Util.FixedBitSet

/-!
# What a `FixedBitSet` holds

`Holds s v` says that the set `s` is the plain vector `v`: it has as many
bits, bit `p` of its words is bit `p` of `v`, and the words have no other bit.
Every operation of the set does to the vector what its name says, apart from
`xor` and `or_mask`, which may set bits that their contract excludes.
-/

namespace LuceneRust.Util

open RustSem WordTape
open Packed (Call)

namespace FixedBitSet

/-- The set holds the plain vector `v`, and its ghost bits are clear. -/
structure Holds (s : FixedBitSet) (v : List Bool) : Prop where
  len : s.numBits = v.length
  bit : ∀ p, lsbAt s.words p = v.getD p false

variable {s t other : FixedBitSet} {v w : List Bool}

theorem Holds.word_lt (h : s.Holds v) {i : Nat} (hi : i < v.length) :
    i / 64 < s.words.length := by
  rw [s.room]
  apply lt_bits2words
  rw [h.len]
  exact hi

/-- The set shows the plain vector `v`, whatever its ghost bits are. -/
structure Shows (s : FixedBitSet) (v : List Bool) : Prop where
  len : s.numBits = v.length
  bit : ∀ p < v.length, lsbAt s.words p = v.getD p false

theorem Holds.shows (h : s.Holds v) : s.Shows v := ⟨h.len, fun p _ => h.bit p⟩

theorem Shows.word_lt (h : s.Shows v) {i : Nat} (hi : i < v.length) :
    i / 64 < s.words.length := by
  rw [s.room]
  apply lt_bits2words
  rw [h.len]
  exact hi

theorem Holds.bit_ge (h : s.Holds v) {p : Nat} (hp : v.length ≤ p) :
    lsbAt s.words p = false := by
  rw [h.bit, List.getD_eq_getElem?_getD, List.getElem?_eq_none hp]
  rfl

theorem getD_mapIdx (f : Nat → Bool → Bool) (v : List Bool) (p : Nat) :
    (v.mapIdx f).getD p false =
      if p < v.length then f p (v.getD p false) else false := by
  rw [List.getD_eq_getElem?_getD, List.getElem?_mapIdx]
  by_cases hp : p < v.length
  · rw [if_pos hp, List.getD_eq_getElem?_getD, List.getElem?_eq_getElem hp]
    rfl
  · rw [if_neg hp, List.getElem?_eq_none (by omega)]
    rfl

theorem getD_modify (f : Bool → Bool) (v : List Bool) {i : Nat}
    (hi : i < v.length) (p : Nat) :
    (v.modify i f).getD p false =
      if p = i then f (v.getD p false) else v.getD p false := by
  rw [List.getD_eq_getElem?_getD, List.getElem?_modify]
  by_cases hp : p = i
  · subst hp
    simp [hi]
  · rw [if_neg hp]
    simp [Ne.symm hp]

/-- A set of the same length whose bits are those of `s`, changed one by
one. -/
theorem Holds.mapIdx (h : s.Holds v) (hlen : t.numBits = s.numBits)
    {f : Nat → Bool → Bool}
    (hin : ∀ p < v.length, lsbAt t.words p = f p (lsbAt s.words p))
    (hout : ∀ p, v.length ≤ p → lsbAt t.words p = false) :
    t.Holds (v.mapIdx f) where
  len := by rw [hlen, h.len, List.length_mapIdx]
  bit := by
    intro p
    rw [getD_mapIdx]
    split
    · rename_i hp
      rw [hin p hp, h.bit]
    · rename_i hp
      exact hout p (by omega)

/-! ## Constructors -/

theorem and_fromBit_eq_zero {word : U64} {k : Nat} :
    (word &&& fromBit k) = 0#64 ↔ ∀ j, k ≤ j → j < 64 → word.getLsbD j = false := by
  constructor
  · intro h j hkj hj
    have hbit := congrArg (fun x : U64 => x.getLsbD j) h
    simpa [BitVec.getLsbD_and, getLsbD_fromBit hj, hkj] using hbit
  · intro h
    apply BitVec.eq_of_getLsbD_eq
    intro j hj
    rw [BitVec.getLsbD_and, getLsbD_fromBit hj]
    by_cases hkj : k ≤ j
    · simp [h j hkj hj]
    · simp [hkj]

/-- The ghost bits are clear: no bit at or past the length is set. -/
theorem ghostBitsClear_iff {words : List U64} {numBits : Nat}
    (hroom : words.length = bits2words numBits) :
    ghostBitsClear words numBits = true ↔
      ∀ p, numBits ≤ p → lsbAt words p = false := by
  unfold ghostBitsClear
  simp only [Bool.or_eq_true, beq_iff_eq, and_fromBit_eq_zero]
  have hlt := bits2words_lt numBits
  have hle := le_bits2words numBits
  constructor
  · intro h p hp
    by_cases hin : 64 * words.length ≤ p
    · exact lsbAt_of_ge hin
    · rcases h with h | h
      · omega
      · have hdiv : p / 64 = bits2words numBits - 1 := by omega
        rw [lsbAt, hdiv]
        exact h _ (by omega) (Nat.mod_lt p (by decide))
  · intro h
    by_cases hmod : numBits % 64 = 0
    · exact .inl hmod
    · refine .inr fun j hj hj64 => ?_
      rw [← lsbAt_word _ _ hj64]
      exact h _ (by omega)

/-- The plain vector of the first `n` bits of some words. -/
def plainOfWords (words : List U64) (n : Nat) : List Bool :=
  (List.range n).map (lsbAt words)

theorem getD_map_range (f : Nat → Bool) (n p : Nat) :
    ((List.range n).map f).getD p false = if p < n then f p else false := by
  rw [List.getD_eq_getElem?_getD, List.getElem?_map]
  by_cases hp : p < n
  · rw [if_pos hp, List.getElem?_range hp]
    rfl
  · rw [if_neg hp, List.getElem?_eq_none (by simpa using hp)]
    rfl

theorem fromWords_holds {words : List U64} {numBits : Nat}
    (h : fromWords words numBits = .ok s) :
    s.Holds (plainOfWords words numBits) := by
  unfold fromWords at h
  split at h
  · rename_i hroom
    obtain ⟨u, hg, h⟩ := Outcome.bind_eq_ok.1 h
    have hghost := (ghostBitsClear_iff hroom).1 (guardOk_eq_ok hg)
    cases h
    refine ⟨by simp [plainOfWords], ?_⟩
    intro p
    rw [plainOfWords, getD_map_range]
    split
    · rfl
    · exact hghost p (by omega)
  · cases h

theorem getD_replicate_false (n p : Nat) :
    (List.replicate n false).getD p false = false := by
  rw [List.getD_eq_getElem?_getD, List.getElem?_replicate]
  split <;> rfl

theorem new_holds {numBits : Nat} (h : new numBits = .ok s) :
    s.Holds (List.replicate numBits false) := by
  unfold new at h
  split at h
  · cases h
    refine ⟨by simp, ?_⟩
    intro p
    rw [lsbAt_zero, getD_replicate_false]
  · cases h

/-- The word that `copy_of` puts together. -/
theorem copyWord_getLsbD (len : Nat) (get : Nat → Bool) (i : Nat) {k : Nat}
    (hk : k < 64) : (copyWord len get i).getLsbD k =
      (decide (64 * i + k < len) && get (64 * i + k)) := by
  have hfold : ∀ n, ((List.range n).foldl
      (fun (acc : U64) b => acc ||| (BitVec.ofBool (get (64 * i + b))).setWidth 64 <<< b)
      0#64).getLsbD k = (decide (k < n) && get (64 * i + k)) := by
    intro n
    induction n with
    | zero => simp
    | succ n ih =>
      rw [List.range_succ, List.foldl_concat, BitVec.getLsbD_or, ih,
        BitVec.getLsbD_shiftLeft, BitVec.getLsbD_setWidth]
      rcases Nat.lt_trichotomy k n with h | h | h
      · simp [h, show k < n + 1 by omega]
      · subst h
        simp [hk]
      · have hz : (BitVec.ofBool (get (64 * i + n))).getLsbD (k - n) = false :=
          BitVec.getLsbD_of_ge _ _ (by omega)
        simp [hz, show ¬ k < n by omega, show ¬ k < n + 1 by omega]
  rw [copyWord, hfold]
  have hiff : k < min (len - 64 * i) 64 ↔ 64 * i + k < len := by omega
  simp [hiff]

theorem copyOf_holds {len : Nat} {get : Nat → Bool} (h : copyOf len get = .ok s) :
    s.Holds ((List.range len).map get) := by
  unfold copyOf at h
  split at h
  · cases h
    refine ⟨by simp, ?_⟩
    intro p
    rw [getD_map_range]
    by_cases hp : p / 64 < bits2words len
    · have hk : p % 64 < 64 := Nat.mod_lt p (by decide)
      rw [lsbAt, List.getD_eq_getElem?_getD, List.getElem?_map,
        List.getElem?_range hp, Option.map_some, Option.getD_some,
        copyWord_getLsbD len get _ hk, Nat.div_add_mod]
      split <;> simp_all
    · have hlen := le_bits2words len
      rw [lsbAt_of_ge (by simp; omega), if_neg (by omega)]
  · cases h

/-! ## Single bits -/

theorem modifyWord_ok {i : Nat} (hi : i < s.words.length) (f : U64 → U64) :
    ∃ t, s.modifyWord i f = .ok t ∧ t.numBits = s.numBits ∧
      t.words = s.words.modify i f := by
  rw [modifyWord, if_pos hi]
  exact ⟨_, rfl, rfl, rfl⟩

theorem word_bit_eq {p i : Nat} :
    (decide (p / 64 = i / 64) && (oneBit (i % 64)).getLsbD (p % 64)) =
      decide (p = i) := by
  rw [getLsbD_oneBit (Nat.mod_lt p (by decide))]
  have : p = i ↔ p / 64 = i / 64 ∧ p % 64 = i % 64 := by omega
  simp [this]

/-- An operation on one bit. -/
theorem modifyBit_holds (h : s.Holds v) {i : Nat} (hi : i < v.length)
    {f : U64 → U64 → U64} {φ : Bool → Bool → Bool} (hf : Bitwise f φ)
    (hφ : ∀ x, φ x false = x) :
    ∃ t, s.modifyWord (i / 64) (fun w => f w (oneBit (i % 64))) = .ok t ∧
      t.Holds (v.modify i fun b => φ b true) := by
  obtain ⟨t, ht, hnum, hwords⟩ := modifyWord_ok (h.word_lt hi)
    fun w => f w (oneBit (i % 64))
  refine ⟨t, ht, by rw [hnum, h.len, List.length_modify], ?_⟩
  intro p
  rw [hwords, lsbAt_modify_mask (h.word_lt hi) hf hφ, word_bit_eq, h.bit,
    getD_modify _ _ hi]
  by_cases hp : p = i
  · simp [hp]
  · simp [hp, hφ]

theorem set_holds (h : s.Holds v) {i : Nat} (hi : i < v.length) :
    ∃ t, s.set i = .ok t ∧ t.Holds (v.modify i fun _ => true) := by
  obtain ⟨t, ht, hold⟩ := modifyBit_holds h hi bitwise_or (by simp)
  refine ⟨t, ?_, by simpa using hold⟩
  rw [set, guardOk_pos (by rw [h.len]; exact hi), ok_bind]
  exact ht

theorem clear_holds (h : s.Holds v) {i : Nat} (hi : i < v.length) :
    ∃ t, s.clear i = .ok t ∧ t.Holds (v.modify i fun _ => false) := by
  obtain ⟨t, ht, hold⟩ := modifyBit_holds h hi bitwise_andNot (by simp)
  refine ⟨t, ?_, by simpa using hold⟩
  rw [clear, guardOk_pos (by rw [h.len]; exact hi), ok_bind]
  exact ht

theorem flip_holds (h : s.Holds v) {i : Nat} (hi : i < v.length) :
    ∃ t, s.flip i = .ok t ∧ t.Holds (v.modify i not) := by
  obtain ⟨t, ht, hold⟩ := modifyBit_holds h hi bitwise_xor (by simp)
  refine ⟨t, ?_, by simpa using hold⟩
  rw [flip, guardOk_pos (by rw [h.len]; exact hi), ok_bind]
  exact ht

theorem and_oneBit_ne_zero (word : U64) {k : Nat} (hk : k < 64) :
    ((word &&& oneBit k) != 0#64) = word.getLsbD k := by
  have hand : word &&& oneBit k = if word.getLsbD k then oneBit k else 0#64 := by
    apply BitVec.eq_of_getLsbD_eq
    intro j hj
    rw [BitVec.getLsbD_and, getLsbD_oneBit hj]
    by_cases hjk : j = k
    · subst hjk
      cases hb : word.getLsbD j <;> simp [getLsbD_oneBit hj]
    · cases hb : word.getLsbD k <;> simp [getLsbD_oneBit hj, hjk]
  have hne : oneBit k ≠ 0#64 := by
    intro h0
    have := getLsbD_oneBit (k := k) hk
    simp [h0] at this
  rw [hand]
  cases hb : word.getLsbD k <;> simp [hne]

theorem Holds.word (h : s.Holds v) {i : Nat} (hi : i < v.length) :
    ∃ x, s.words[i / 64]? = some x ∧ x.getLsbD (i % 64) = v.getD i false := by
  have hlt := h.word_lt hi
  refine ⟨s.words[i / 64], List.getElem?_eq_getElem hlt, ?_⟩
  rw [← h.bit, lsbAt, List.getD_eq_getElem?_getD, List.getElem?_eq_getElem hlt]
  rfl

theorem get_holds (h : s.Holds v) {i : Nat} (hi : i < v.length) :
    s.get i = .ok (v.getD i false) := by
  obtain ⟨x, hx, hbit⟩ := h.word hi
  have hshift : (((x >>> (i % 64)) &&& 1#64) != 0#64) = x.getLsbD (i % 64) := by
    have := and_oneBit_ne_zero (x >>> (i % 64)) (k := 0) (by decide)
    rw [show oneBit 0 = 1#64 from rfl, BitVec.getLsbD_ushiftRight] at this
    exact this
  rw [get, guardOk_pos (by rw [h.len]; exact hi), ok_bind, hx,
    expect_some, ok_bind, hshift, hbit]

theorem getAndSet_holds (h : s.Holds v) {i : Nat} (hi : i < v.length) :
    ∃ t, s.getAndSet i = .ok (t, v.getD i false) ∧
      t.Holds (v.modify i fun _ => true) := by
  obtain ⟨t, ht, hold⟩ := modifyBit_holds h hi bitwise_or (by simp)
  obtain ⟨x, hx, hbit⟩ := h.word hi
  refine ⟨t, ?_, by simpa using hold⟩
  rw [getAndSet, guardOk_pos (by rw [h.len]; exact hi), ok_bind]
  dsimp only
  rw [hx, expect_some, ok_bind, ht, ok_bind,
    and_oneBit_ne_zero x (Nat.mod_lt i (by decide)), hbit]

theorem getAndClear_holds (h : s.Holds v) {i : Nat} (hi : i < v.length) :
    ∃ t, s.getAndClear i = .ok (t, v.getD i false) ∧
      t.Holds (v.modify i fun _ => false) := by
  obtain ⟨t, ht, hold⟩ := modifyBit_holds h hi bitwise_andNot (by simp)
  obtain ⟨x, hx, hbit⟩ := h.word hi
  refine ⟨t, ?_, by simpa using hold⟩
  rw [getAndClear, guardOk_pos (by rw [h.len]; exact hi),
    ok_bind]
  dsimp only
  rw [hx, expect_some, ok_bind, ht, ok_bind,
    and_oneBit_ne_zero x (Nat.mod_lt i (by decide)), hbit]

theorem clearAll_holds (h : s.Holds v) :
    s.clearAll.Holds (v.mapIdx fun _ _ => false) :=
  h.mapIdx (t := s.clearAll) rfl (fun p _ => lsbAt_zero p _)
    (fun p _ => lsbAt_zero p _)

/-! ## Ranges -/

/-- A word operation that changes the bits of a mask by `φ`. -/
def Masked (edge : U64 → U64 → U64) (φ : Bool → Bool) : Prop :=
  ∀ w m : U64, ∀ k < 64, (edge w m).getLsbD k =
    if m.getLsbD k then φ (w.getLsbD k) else w.getLsbD k

theorem modifyMasked_ok {edge : U64 → U64 → U64} {φ : Bool → Bool}
    (hedge : Masked edge φ) {i : Nat} (hi : i < s.words.length) (m : U64) :
    ∃ t, s.modifyWord i (fun w => edge w m) = .ok t ∧ t.numBits = s.numBits ∧
      t.words.length = s.words.length ∧
      ∀ p, lsbAt t.words p = if p / 64 = i ∧ m.getLsbD (p % 64) then
        φ (lsbAt s.words p) else lsbAt s.words p := by
  obtain ⟨t, ht, hnum, hwords⟩ := modifyWord_ok hi fun w => edge w m
  refine ⟨t, ht, hnum, by rw [hwords, List.length_modify], ?_⟩
  intro p
  rw [hwords, lsbAt_modify hi]
  by_cases hp : p / 64 = i
  · subst hp
    rw [if_pos rfl, hedge _ _ _ (Nat.mod_lt p (by decide))]
    simp only [true_and]
    rfl
  · simp [hp]

theorem modifyWords_ok (lo hi : Nat) (h : lo ≤ hi) (hhi : hi ≤ s.words.length)
    {f : U64 → U64} {φ : Bool → Bool}
    (hf : ∀ w : U64, ∀ k < 64, (f w).getLsbD k = φ (w.getLsbD k)) :
    ∃ t, s.modifyWords lo hi f = .ok t ∧ t.numBits = s.numBits ∧
      t.words.length = s.words.length ∧
      ∀ p, lsbAt t.words p = if lo ≤ p / 64 ∧ p / 64 < hi then
        φ (lsbAt s.words p) else lsbAt s.words p := by
  rw [modifyWords, dif_pos ⟨h, hhi⟩]
  refine ⟨_, rfl, rfl, ?_, ?_⟩
  · dsimp only
    simp only [List.length_append, List.length_take, List.length_map,
      List.length_drop]
    omega
  · intro p
    dsimp only
    rw [lsbAt_mapRange h hhi]
    split
    · rw [hf _ _ (Nat.mod_lt p (by decide))]
      rfl
    · rfl

/-- What the masks of a range are. -/
theorem rangeMasks_getLsbD (lo hi : Nat) {k : Nat} (hk : k < 64) :
    (rangeMasks lo hi).1.getLsbD k = decide (lo % 64 ≤ k) ∧
      (rangeMasks lo hi).2.getLsbD k = decide ((64 - hi % 64) % 64 + k < 64) :=
  ⟨getLsbD_fromBit hk, getLsbD_allOnes_ushiftRight⟩

/-- The range operations change the bits of the range by `φ`. -/
theorem overRange_holds (h : s.Holds v) {lo hi : Nat}
    (hhi : lo < hi → hi ≤ v.length)
    {both : U64 → U64 → U64 → U64} {edge : U64 → U64 → U64}
    {whole : U64 → U64} {φ : Bool → Bool}
    (hboth : ∀ w a b, both w a b = edge w (a &&& b)) (hedge : Masked edge φ)
    (hwhole : ∀ w : U64, ∀ k < 64, (whole w).getLsbD k = φ (w.getLsbD k)) :
    ∃ t, s.overRange lo hi both edge whole = .ok t ∧
      t.Holds (v.mapIdx fun p b => if lo ≤ p ∧ p < hi then φ b else b) := by
  by_cases hle : hi ≤ lo
  · rw [overRange, if_pos hle]
    refine ⟨s, rfl, h.mapIdx rfl ?_ (fun p hp => h.bit_ge hp)⟩
    intro p _
    rw [if_neg (by omega)]
  have hend : hi ≤ v.length := hhi (by omega)
  have hsw : lo / 64 < s.words.length := h.word_lt (by omega)
  have hew : (hi - 1) / 64 < s.words.length := h.word_lt (by omega)
  rw [overRange, if_neg hle, guardOk_pos (by rw [h.len]; exact hend),
    ok_bind]
  dsimp only
  by_cases hsame : lo / 64 = (hi - 1) / 64
  · rw [if_pos hsame]
    simp only [hboth]
    obtain ⟨t, ht, hnum, _, hbit⟩ := modifyMasked_ok hedge hsw
      ((rangeMasks lo hi).1 &&& (rangeMasks lo hi).2)
    have hbit' : ∀ p, lsbAt t.words p =
        if lo ≤ p ∧ p < hi then φ (lsbAt s.words p) else lsbAt s.words p := by
      intro p
      obtain ⟨hm1, hm2⟩ := rangeMasks_getLsbD lo hi (Nat.mod_lt p (by decide : 0 < 64))
      rw [hbit, BitVec.getLsbD_and, hm1, hm2]
      congr 1
      simp only [Bool.and_eq_true, decide_eq_true_eq, eq_iff_iff]
      omega
    refine ⟨t, ht, h.mapIdx hnum (fun p _ => hbit' p) ?_⟩
    intro p hp
    rw [hbit', if_neg (by omega), h.bit_ge hp]
  · rw [if_neg hsame]
    obtain ⟨t₁, ht₁, hnum₁, hlen₁, hbit₁⟩ := modifyMasked_ok hedge hsw
      (rangeMasks lo hi).1
    obtain ⟨t₂, ht₂, hnum₂, hlen₂, hbit₂⟩ := modifyWords_ok (s := t₁)
      (lo / 64 + 1) ((hi - 1) / 64) (by omega) (by omega) hwhole
    obtain ⟨t₃, ht₃, hnum₃, _, hbit₃⟩ := modifyMasked_ok (s := t₂) hedge
      (i := (hi - 1) / 64) (by omega) (rangeMasks lo hi).2
    have hbit' : ∀ p, lsbAt t₃.words p =
        if lo ≤ p ∧ p < hi then φ (lsbAt s.words p) else lsbAt s.words p := by
      intro p
      obtain ⟨hm1, hm2⟩ := rangeMasks_getLsbD lo hi (Nat.mod_lt p (by decide : 0 < 64))
      rw [hbit₃, hbit₂, hbit₁, hm1, hm2]
      simp only [decide_eq_true_eq]
      -- the three steps change disjoint sets of words
      rcases Nat.lt_trichotomy (p / 64) (lo / 64) with hp | hp | hp
      · rw [if_neg (by omega), if_neg (by omega), if_neg (by omega),
          if_neg (by omega)]
      · rw [if_neg (by omega), if_neg (by omega)]
        congr 1
        simp only [eq_iff_iff]
        omega
      · rw [if_neg (c := p / 64 = lo / 64 ∧ lo % 64 ≤ p % 64) (by omega)]
        by_cases hp' : p / 64 < (hi - 1) / 64
        · rw [if_neg (by omega), if_pos (by omega), if_pos (by omega)]
        · rw [if_neg (c := lo / 64 + 1 ≤ p / 64 ∧ p / 64 < (hi - 1) / 64) (by omega)]
          congr 1
          simp only [eq_iff_iff]
          omega
    refine ⟨t₃, ?_, h.mapIdx (by rw [hnum₃, hnum₂, hnum₁]) (fun p _ => hbit' p) ?_⟩
    · rw [ht₁, ok_bind, ht₂, ok_bind, ht₃]
    · intro p hp
      rw [hbit', if_neg (by omega), h.bit_ge hp]

theorem flipRange_holds (h : s.Holds v) {lo hi : Nat}
    (hhi : lo < hi → hi ≤ v.length) :
    ∃ t, s.flipRange lo hi = .ok t ∧
      t.Holds (v.mapIdx fun p b => if lo ≤ p ∧ p < hi then !b else b) := by
  refine overRange_holds h hhi (fun w a b => rfl) ?_ ?_
  · intro w m k _
    rw [BitVec.getLsbD_xor]
    cases m.getLsbD k <;> simp
  · intro w k hk
    rw [BitVec.getLsbD_not]
    simp [hk]

theorem setRange_holds (h : s.Holds v) {lo hi : Nat}
    (hhi : lo < hi → hi ≤ v.length) :
    ∃ t, s.setRange lo hi = .ok t ∧
      t.Holds (v.mapIdx fun p b => if lo ≤ p ∧ p < hi then true else b) := by
  refine overRange_holds (φ := fun _ => true) h hhi (fun w a b => rfl) ?_ ?_
  · intro w m k _
    rw [BitVec.getLsbD_or]
    cases m.getLsbD k <;> simp
  · intro w k hk
    rw [BitVec.getLsbD_allOnes]
    simp [hk]

theorem clearRange_holds (h : s.Holds v) {lo hi : Nat}
    (hhi : lo < hi → hi ≤ v.length) :
    ∃ t, s.clearRange lo hi = .ok t ∧
      t.Holds (v.mapIdx fun p b => if lo ≤ p ∧ p < hi then false else b) := by
  refine overRange_holds (φ := fun _ => false) h hhi ?_ ?_ ?_
  · intro w a b
    rw [BitVec.not_and]
  · intro w m k hk
    rw [BitVec.getLsbD_and, BitVec.getLsbD_not]
    cases m.getLsbD k <;> simp [hk]
  · intro w k _
    simp

/-! ## Two sets -/

theorem or_holds (h : s.Holds v) (ho : other.Holds w) (hlen : w.length ≤ v.length) :
    ∃ t, s.or other = .ok t ∧
      t.Holds (v.mapIdx fun p b => b || w.getD p false) := by
  rw [or, guardOk_pos (by rw [h.len, ho.len]; exact hlen), ok_bind]
  refine ⟨_, rfl, h.mapIdx ?_ ?_ ?_⟩
  · rfl
  · intro p hp
    have := h.word_lt hp
    dsimp only
    rw [lsbAt_zipPrefix bitwise_or (by simp), if_pos (by omega), ho.bit]
  · intro p hp
    dsimp only
    rw [lsbAt_zipPrefix bitwise_or (by simp), h.bit_ge hp, ho.bit_ge (by omega)]
    simp

theorem and_holds (h : s.Holds v) (ho : other.Holds w) :
    (s.and other).Holds (v.mapIdx fun p b => b && w.getD p false) := by
  have hbit : ∀ p, lsbAt (s.and other).words p =
      (lsbAt s.words p && lsbAt other.words p) := by
    intro p
    have hn : (s.words.take (min s.words.length other.words.length)).length =
        min s.words.length other.words.length := by
      rw [List.length_take]
      omega
    have hhead := lsbAt_zipPrefix_ite bitwise_and
      (s.words.take (min s.words.length other.words.length)) other.words p
    rw [hn] at hhead
    have happ := lsbAt_take_append
      (zipPrefix (· &&& ·) (s.words.take (min s.words.length other.words.length))
        other.words)
      (List.replicate (s.words.length - min s.words.length other.words.length) 0#64)
      p (n := min s.words.length other.words.length)
      (by rw [zipPrefix_length, hn])
    rw [List.take_of_length_le (by rw [zipPrefix_length, hn])] at happ
    rw [and]
    dsimp only
    rw [happ, lsbAt_zero, hhead]
    split
    · rw [if_pos (by omega)]
      congr 1
      rw [lsbAt, lsbAt, List.getD_eq_getElem?_getD, List.getElem?_take_of_lt (by omega),
        List.getD_eq_getElem?_getD]
    · by_cases hs : s.words.length ≤ other.words.length
      · rw [lsbAt_of_ge (w := s.words) (by omega)]
        simp
      · rw [lsbAt_of_ge (w := other.words) (by omega)]
        simp
  refine h.mapIdx ?_ ?_ ?_
  · rfl
  · intro p _
    rw [hbit, ho.bit]
  · intro p hp
    rw [hbit, h.bit_ge hp]
    simp

theorem andNot_holds (h : s.Holds v) (ho : other.Holds w) :
    (s.andNot other).Holds (v.mapIdx fun p b => b && !w.getD p false) := by
  refine h.mapIdx ?_ ?_ ?_
  · rfl
  · intro p hp
    have := h.word_lt hp
    rw [andNot]
    dsimp only
    rw [lsbAt_zipPrefix bitwise_andNot (by simp), if_pos (by omega), ho.bit]
  · intro p hp
    rw [andNot]
    dsimp only
    rw [lsbAt_zipPrefix bitwise_andNot (by simp), h.bit_ge hp]
    simp

/-- `xor` keeps the ghost bits clear exactly when the operand has no bit past
the end: its assertion is on the words. -/
theorem xor_holds_iff (h : s.Holds v) (ho : other.Holds w)
    (hlen : other.words.length ≤ s.words.length) :
    ∃ t, s.xor other = .ok t ∧
      (t.Holds (v.mapIdx fun p b => b ^^ w.getD p false) ↔
        ∀ p, v.length ≤ p → w.getD p false = false) := by
  rw [xor, guardOk_pos hlen, ok_bind]
  refine ⟨_, rfl, ?_⟩
  have hbit : ∀ p, lsbAt (zipPrefix (· ^^^ ·) s.words other.words) p =
      (lsbAt s.words p ^^ w.getD p false) := by
    intro p
    rw [lsbAt_zipPrefix bitwise_xor (by simp), ho.bit]
    split
    · rfl
    · rw [lsbAt_of_ge (w := s.words) (by omega), ← ho.bit,
        lsbAt_of_ge (w := other.words) (by omega)]
      rfl
  constructor
  · intro ht p hp
    have := ht.bit_ge (p := p) (by rw [List.length_mapIdx]; exact hp)
    dsimp only at this
    rw [hbit, h.bit_ge hp] at this
    simpa using this
  · intro hw
    refine h.mapIdx ?_ ?_ ?_
    · rfl
    · intro p _
      exact hbit p
    · intro p hp
      dsimp only
      rw [hbit, h.bit_ge hp, hw p hp]
      rfl

/-! ## Words at an offset -/

theorem mergeWords_ok (lo : Nat) {f : U64 → U64 → U64} {φ : Bool → Bool → Bool}
    (hf : Bitwise f φ) (bs : List U64) (h : lo + bs.length ≤ s.words.length) :
    ∃ t, s.mergeWords lo f bs = .ok t ∧ t.numBits = s.numBits ∧
      t.words.length = s.words.length ∧
      ∀ p, lsbAt t.words p = if 64 * lo ≤ p ∧ p < 64 * (lo + bs.length) then
        φ (lsbAt s.words p) (lsbAt bs (p - 64 * lo)) else lsbAt s.words p := by
  rw [mergeWords, dif_pos h]
  refine ⟨_, rfl, rfl, ?_, ?_⟩
  · dsimp only
    rw [List.length_append, zipPrefix_length, List.length_take, List.length_drop]
    omega
  · intro p
    dsimp only
    rw [lsbAt_take_append _ _ _ (by omega : lo ≤ s.words.length)]
    by_cases hp : p < 64 * lo
    · rw [if_pos hp, if_neg (by omega)]
    · rw [if_neg hp, lsbAt_zipPrefix_ite hf, lsbAt_drop, List.length_drop,
        show 64 * lo + (p - 64 * lo) = p by omega]
      by_cases hin : p < 64 * (lo + bs.length)
      · rw [if_pos (by omega), if_pos (by omega)]
      · rw [if_neg (by omega), if_neg (by omega)]

/-- The words of a merge: all but the last as they are. -/
theorem lsbAt_concat (words : List U64) (last : U64) {n q : Nat}
    (hn : n < words.length) (hq : q < 64 * (n + 1)) :
    lsbAt (words.take n ++ [last]) q =
      if q < 64 * n then lsbAt words q else last.getLsbD (q % 64) := by
  rw [lsbAt_take_append _ _ _ (by omega : n ≤ words.length)]
  split
  · rfl
  · rw [show q - 64 * n = 64 * 0 + q % 64 by omega,
      lsbAt_word _ 0 (Nat.mod_lt q (by decide))]
    rfl

/-- The merge of some words drops what falls past the end. -/
theorem mergeWordsAt_holds (h : s.Holds v) (off : Nat) (words : List U64)
    {op : U64 → U64 → U64} {φ : Bool → Bool → Bool} (hop : Bitwise op φ)
    (hφ : ∀ x, φ x false = x) :
    ∃ t b, s.mergeWordsAt off words op = .ok (t, b) ∧
      t.Holds (v.mapIdx fun p b =>
        φ b (decide (64 * off ≤ p) && lsbAt words (p - 64 * off))) := by
  have hroom := s.room
  have hlen := h.len
  have hlt := bits2words_lt s.numBits
  have hle := le_bits2words s.numBits
  rw [mergeWordsAt]
  dsimp only
  by_cases hfit : min (bits2words s.numBits - off) words.length = 0
  · rw [if_pos hfit]
    refine ⟨s, _, rfl, h.mapIdx rfl ?_ (fun p hp => h.bit_ge hp)⟩
    intro p hp
    by_cases hoff : 64 * off ≤ p
    · rw [lsbAt_of_ge (w := words) (by omega)]
      simp [hφ]
    · simp [hoff, hφ]
  rw [if_neg hfit]
  obtain ⟨n, hn⟩ : ∃ n, min (bits2words s.numBits - off) words.length = n + 1 :=
    ⟨_, (Nat.succ_pred hfit).symm⟩
  have hnlen : n < words.length := by omega
  rw [hn, Nat.add_sub_cancel, List.getElem?_eq_getElem hnlen, expect_some,
    ok_bind]
  have hlast : ∀ q, 64 * n ≤ q → q < 64 * (n + 1) →
      (words[n]).getLsbD (q % 64) = lsbAt words q := by
    intro q hq hq'
    rw [lsbAt, show q / 64 = n by omega, List.getD_eq_getElem?_getD,
      List.getElem?_eq_getElem hnlen]
    rfl
  by_cases hcut : off + (n + 1) = bits2words s.numBits ∧ s.numBits % 64 ≠ 0
  · rw [if_pos hcut]
    obtain ⟨t, ht, hnum, _, hbit⟩ := mergeWords_ok (s := s) off hop
      (words.take n ++ [words[n] &&& (oneBit (s.numBits % 64) - 1#64)])
      (by simp; omega)
    refine ⟨t, _, by rw [ht, ok_bind], h.mapIdx hnum ?_ ?_⟩
    · intro p hp
      rw [hbit]
      by_cases hoff : 64 * off ≤ p
      · rw [if_pos (by simp; omega), lsbAt_concat words _ hnlen (by omega)]
        split
        · simp [hoff]
        · rw [BitVec.getLsbD_and, hlast _ (by omega) (by omega),
            getLsbD_oneBit_sub (by omega)]
          simp [hoff, show (p - 64 * off) % 64 < s.numBits % 64 by omega]
      · rw [if_neg (by omega)]
        simp [hoff, hφ]
    · intro p hp
      rw [hbit, h.bit_ge hp]
      split
      · rename_i hin
        simp only [List.length_append, List.length_take, List.length_cons,
          List.length_nil] at hin
        rw [lsbAt_concat words _ hnlen (by omega), if_neg (by omega),
          BitVec.getLsbD_and,
          getLsbD_oneBit_sub (by omega)]
        simp [show ¬ (p - 64 * off) % 64 < s.numBits % 64 by omega, hφ]
      · rfl
  · rw [if_neg hcut]
    obtain ⟨t, ht, hnum, _, hbit⟩ := mergeWords_ok (s := s) off hop
      (words.take n ++ [words[n]]) (by simp; omega)
    refine ⟨t, _, by rw [ht, ok_bind], h.mapIdx hnum ?_ ?_⟩
    · intro p hp
      rw [hbit]
      by_cases hoff : 64 * off ≤ p
      · by_cases hin : p < 64 * (off + (n + 1))
        · rw [if_pos (by simp; omega), lsbAt_concat words _ hnlen (by omega)]
          split
          · simp [hoff]
          · rw [hlast _ (by omega) (by omega)]
            simp [hoff]
        · -- the words given end here
          rw [if_neg (by simp; omega), lsbAt_of_ge (w := words) (by omega)]
          simp [hφ]
      · rw [if_neg (by omega)]
        simp [hoff, hφ]
    · intro p hp
      rw [hbit, if_neg (by simp; omega), h.bit_ge hp]

/-- `or_mask` sets what its contract says exactly when every mask bit past
`maskLen` that it does not drop is set already. -/
def MaskFits (v : List Bool) (start : Nat) (mask : U64) (maskLen : Nat) : Prop :=
  ∀ j < 64, maskLen ≤ j → mask.getLsbD j = true →
    (start % 64 + j < 64 ∨ 64 < start % 64 + maskLen) →
    v.getD (start + j) false = true

instance (v : List Bool) (start : Nat) (mask : U64) (maskLen : Nat) :
    Decidable (MaskFits v start mask maskLen) :=
  inferInstanceAs (Decidable (∀ j < 64, _))

/-- The bits of `or_mask`. -/
theorem orMask_bits {start maskLen : Nat} {mask : U64}
    (hrun : s.orMask start mask maskLen = .ok t) :
    start + maskLen ≤ s.numBits ∧ t.numBits = s.numBits ∧
      ∀ p, lsbAt t.words p = (lsbAt s.words p ||
        (decide (start ≤ p ∧ (p / 64 = start / 64 ∨
          p / 64 = start / 64 + 1 ∧ 64 < start % 64 + maskLen)) &&
          mask.getLsbD (p - start))) := by
  rw [orMask] at hrun
  obtain ⟨u, hu, hrun⟩ := Outcome.bind_eq_ok.1 hrun
  have hlen := guardOk_eq_ok hu
  dsimp only at hrun
  obtain ⟨s₁, hs₁, hrun⟩ := Outcome.bind_eq_ok.1 hrun
  have hw : start / 64 < s.words.length := by
    by_contra hge
    rw [modifyWord, if_neg hge] at hs₁
    cases hs₁
  obtain ⟨t₁, ht₁, hnum₁, hwords₁⟩ := modifyWord_ok hw (· ||| mask <<< (start % 64))
  obtain rfl : t₁ = s₁ := by
    rw [ht₁] at hs₁
    cases hs₁
    rfl
  have hbit₁ : ∀ p, lsbAt t₁.words p = (lsbAt s.words p ||
      (decide (p / 64 = start / 64) && (mask <<< (start % 64)).getLsbD (p % 64))) := by
    intro p
    rw [hwords₁, lsbAt_modify_mask hw bitwise_or (by simp)]
  have hshl : ∀ p, p / 64 = start / 64 →
      (mask <<< (start % 64)).getLsbD (p % 64) =
        (decide (start ≤ p) && mask.getLsbD (p - start)) := by
    intro p hp
    rw [BitVec.getLsbD_shiftLeft]
    by_cases hlt : p % 64 < start % 64
    · simp [hlt, show ¬ start ≤ p by omega]
    · rw [show p % 64 - start % 64 = p - start by omega]
      simp [hlt, show start ≤ p by omega, Nat.mod_lt]
  split at hrun
  · rename_i hlong
    obtain ⟨u', hu', hrun⟩ := Outcome.bind_eq_ok.1 hrun
    have hoff := guardOk_eq_ok hu'
    have hw' : start / 64 + 1 < t₁.words.length := by
      by_contra hge
      rw [modifyWord, if_neg hge] at hrun
      cases hrun
    obtain ⟨t₂, ht₂, hnum₂, hwords₂⟩ := modifyWord_ok hw'
      (· ||| mask >>> (64 - start % 64))
    obtain rfl : t₂ = t := by
      rw [ht₂] at hrun
      cases hrun
      rfl
    refine ⟨hlen, by rw [hnum₂, hnum₁], ?_⟩
    intro p
    rw [hwords₂, lsbAt_modify_mask hw' bitwise_or (by simp), hbit₁]
    by_cases h0 : p / 64 = start / 64
    · rw [hshl p h0]
      simp [h0]
    · by_cases h1 : p / 64 = start / 64 + 1
      · rw [BitVec.getLsbD_ushiftRight,
          show 64 - start % 64 + p % 64 = p - start by omega]
        simp [h1, hlong, show start ≤ p by omega]
      · simp [h0, h1]
  · rename_i hshort
    cases hrun
    refine ⟨hlen, hnum₁, ?_⟩
    intro p
    rw [hbit₁]
    by_cases h0 : p / 64 = start / 64
    · rw [hshl p h0]
      simp [h0]
    · simp [h0, hshort]

theorem orMask_holds_iff (h : s.Holds v) {start maskLen : Nat} {mask : U64}
    (hrun : s.orMask start mask maskLen = .ok t) :
    t.Holds (v.mapIdx fun p b => b || (decide (start ≤ p ∧ p < start + maskLen) &&
        mask.getLsbD (p - start))) ↔ MaskFits v start mask maskLen := by
  obtain ⟨hlen, hnum, hbit⟩ := orMask_bits hrun
  rw [h.len] at hlen
  constructor
  · intro ht j hj hjlen hmask hin
    have hb := ht.bit (start + j)
    rw [hbit, getD_mapIdx, Nat.add_sub_cancel_left, hmask, h.bit] at hb
    have hcond : start ≤ start + j ∧ ((start + j) / 64 = start / 64 ∨
        (start + j) / 64 = start / 64 + 1 ∧ 64 < start % 64 + maskLen) := by omega
    split at hb
    · simpa [hcond, show ¬ start + j < start + maskLen by omega] using hb.symm
    · simp [hcond] at hb
  · intro hfits
    have hstep : ∀ p, lsbAt t.words p = (lsbAt s.words p ||
        (decide (start ≤ p ∧ p < start + maskLen) && mask.getLsbD (p - start))) := by
      intro p
      rw [hbit]
      by_cases hin : start ≤ p ∧ p < start + maskLen
      · by_cases hfar : 64 ≤ p - start
        · rw [BitVec.getLsbD_of_ge mask _ hfar]
          simp
        · rw [show (decide (start ≤ p ∧ (p / 64 = start / 64 ∨
            p / 64 = start / 64 + 1 ∧ 64 < start % 64 + maskLen))) = true by
              simp only [decide_eq_true_eq]
              omega]
          simp [hin]
      · simp only [hin, decide_false, Bool.false_and, Bool.or_false]
        by_cases hm : start ≤ p ∧ (p / 64 = start / 64 ∨
            p / 64 = start / 64 + 1 ∧ 64 < start % 64 + maskLen)
        · -- a bit of the mask past its length: it was set before
          cases hb : mask.getLsbD (p - start) with
          | false => simp
          | true =>
            have hj : p - start < 64 := by
              by_contra hge
              rw [BitVec.getLsbD_of_ge mask _ (by omega)] at hb
              cases hb
            have := hfits (p - start) hj (by omega) hb (by omega)
            rw [show start + (p - start) = p by omega, ← h.bit] at this
            simp [this]
        · simp [hm]
    refine h.mapIdx hnum (fun p _ => hstep p) ?_
    intro p hp
    rw [hstep, h.bit_ge hp]
    simp
    omega

end FixedBitSet

end LuceneRust.Util
