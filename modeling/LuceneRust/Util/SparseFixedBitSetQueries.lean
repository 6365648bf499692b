import LuceneRust.Util.SparseFixedBitSetOps
import Mathlib.Order.Interval.Finset.Nat
import Mathlib.Data.Nat.Count

/-!
# The queries of a `SparseFixedBitSet`

What the queries answer for a set that holds `P`.

* `get_holds`, `word_holds` and `cardinality_holds`.
* `nextSetBitInRange_firstAt` and `nextClearBitInRange_firstAt` are the scans
  upwards: `firstAt_words` skips zero words.
* `prevSetBit_lastBelow` is the scan downwards, with `LastBelow` in the place
  of `FirstAt`.
-/

namespace LuceneRust.Util

open RustSem WordTape Compressed
open Packed (Call divCeil)

namespace SparseFixedBitSet

variable {s : SparseFixedBitSet} {P Q : Nat → Bool} {k j : Nat}

/-! ## One word -/

/-- `word`. -/
theorem word_holds (h : s.Holds P) {w : Nat} (hw : w < divCeil s.length 64) :
    s.word w = .ok (wordOf P w) := by
  have hlt : 64 * w < s.length := by
    rw [divCeil] at hw
    split at hw <;> omega
  have hk : w / 64 < blockCount s.length := by
    have := div_lt_blockCount hlt
    rwa [show 64 * w / 4096 = w / 64 by omega] at this
  have hj : w % 64 < 64 := Nat.mod_lt w (by decide)
  have hword : 64 * (w / 64) + w % 64 = w := by omega
  rw [word, indexAt_ok hk, ok_bind]
  dsimp only
  split
  · rename_i h0
    rw [h.and_oneBit_eq_zero hk hj, hword] at h0
    rw [h0]
  · rename_i hne
    rw [h.and_oneBit_eq_zero hk hj] at hne
    obtain ⟨slots, _, hblock, hget⟩ := h.stored hk hj hne
    rw [hblock, ok_bind, h.ordOf_eq hk hj, hget, hword, expect_some]

/-- `get`. -/
theorem get_holds (h : s.Holds P) {i : Nat} (hi : i < s.length) : s.get i = .ok (P i) := by
  have hk := div_lt_blockCount hi
  have hj : i / 64 % 64 < 64 := Nat.mod_lt _ (by decide)
  have hb : i % 64 < 64 := Nat.mod_lt i (by decide)
  have hword : 64 * (i / 4096) + i / 64 % 64 = i / 64 := by omega
  have hbit : (wordOf P (i / 64)).getLsbD (i % 64) = P i := by
    rw [wordOf_getLsbD P _ hb, show 64 * (i / 64) + i % 64 = i by omega]
  rw [get, guardOk_pos hi, ok_bind, indexAt_ok hk, ok_bind]
  dsimp only
  split
  · rename_i h0
    rw [h.and_oneBit_eq_zero hk hj, hword] at h0
    rw [← hbit, h0]
    simp
  · rename_i hne
    rw [h.and_oneBit_eq_zero hk hj] at hne
    obtain ⟨slots, _, hblock, hget⟩ := h.stored hk hj hne
    rw [hblock, ok_bind, h.ordOf_eq hk hj, hget, expect_some,
      ok_bind, hword, and_oneBit_bne _ hb, hbit]

/-! ## Counting -/

theorem popcount_append (as bs : List U64) :
    popcount (as ++ bs) = popcount as + popcount bs := by
  rw [popcount, popcount, popcount, List.map_append, List.sum_append]

/-- Zeros do not count, stored or not. -/
theorem popcount_compress (ws : List U64) (n : Nat) :
    popcount (compress ws ++ List.replicate n 0#64) = popcount ws := by
  have hzero : countOnes 0#64 = 0 := rfl
  have hfilter : popcount (compress ws) = popcount ws := by
    induction ws with
    | nil => rfl
    | cons w ws ih =>
      rw [popcount, compress] at ih ⊢
      rw [List.filter_cons]
      by_cases hw : w = 0#64
      · simp [hw, popcount, hzero, ih]
      · simp [hw, popcount, ih]
  rw [popcount_append, hfilter]
  simp [popcount, hzero]

/-- The stored words of a block count its bits. -/
theorem popcount_block (h : s.Holds P) (hk : k < blockCount s.length) :
    popcount ((s.bits.getD k none).getD []) =
      (List.range 4096).countP fun p => P (4096 * k + p) := by
  have hblock := h.block k hk
  have hdense : popcount ((s.bits.getD k none).getD []) = popcount (denseBlock P k) := by
    by_cases hi : s.indices.getD k 0 = 0#64
    · have hnil : compress (denseBlock P k) = [] := by
        rw [← List.length_eq_zero_iff, ← hblock.idx.countOnes_eq_length, hi]
        rfl
      rw [hblock.none hi, ← popcount_compress (denseBlock P k) 0, hnil]
      rfl
    · obtain ⟨n, hn⟩ := hblock.some hi
      rw [hn, Option.getD_some, popcount_compress]
  rw [hdense, popcount_eq, denseBlock_length]
  apply List.countP_congr
  intro p hp
  have hp' : p < 64 * 64 := List.mem_range.1 hp
  rw [lsbAt, denseBlock_getD P k (by omega),
    wordOf_getLsbD P _ (Nat.mod_lt p (by decide)),
    show 64 * (64 * k + p / 64) + p % 64 = 4096 * k + p by omega]

theorem countP_range_add (P : Nat → Bool) (n m : Nat) :
    (List.range (n + m)).countP P =
      (List.range n).countP P + (List.range m).countP fun p => P (n + p) := by
  rw [List.range_add, List.countP_append, List.countP_map]
  rfl

/-- `cardinality`. -/
theorem cardinality_holds (h : s.Holds P) :
    s.cardinality = (List.range s.length).countP P := by
  have hblocks : ∀ n ≤ blockCount s.length,
      popcount ((s.bits.take n).flatMap fun b => b.getD []) =
        (List.range (4096 * n)).countP P := by
    intro n hn
    induction n with
    | zero => rfl
    | succ n ih =>
      have hlt : n < s.bits.length := by
        rw [s.bitsRoom]
        exact hn
      have hblock := popcount_block h (k := n) hn
      rw [List.getD_eq_getElem?_getD, List.getElem?_eq_getElem hlt,
        Option.getD_some] at hblock
      rw [List.take_add_one, List.getElem?_eq_getElem hlt, List.flatMap_append,
        popcount_append, ih (by omega), Nat.mul_succ, countP_range_add, ← hblock]
      simp
  have hall := hblocks _ (Nat.le_refl _)
  rw [← s.bitsRoom, List.take_length, s.bitsRoom] at hall
  have hle : s.length ≤ 4096 * blockCount s.length :=
    Packed.le_mul_divCeil s.length (by decide)
  rw [cardinality, hall,
    show 4096 * blockCount s.length = s.length + (4096 * blockCount s.length - s.length)
      by omega, countP_range_add]
  have hnone : (List.range (4096 * blockCount s.length - s.length)).countP
      (fun p => P (s.length + p)) = 0 := by
    rw [List.countP_eq_zero]
    intro p _ hp
    have := h.bound _ hp
    omega
  omega

/-! ## Scans upwards -/

/-- Zero words are skipped. -/
theorem firstAt_words {w w' i : Nat} (hi : 64 * w ≤ i)
    (hi' : i ≤ 64 * w')
    (hzero : ∀ v, w ≤ v → v < w' → wordOf P v = 0#64) (hne : wordOf P w' ≠ 0#64) :
    FirstAt P i (some (64 * w' + (wordOf P w').ctz.toNat)) := by
  refine (firstAt_word hne fun b hb => (wordOf_getLsbD P w' hb).symm).skip hi' ?_
  intro p hp hp'
  exact eq_false_of_wordOf (hzero (p / 64) (by omega) (by omega)) (by omega)

/-- A scan that starts at its upper bound. -/
theorem firstAt_bound {i ub : Nat} (h : ub ≤ i) :
    FirstAt (fun p => P p && decide (p < ub)) i none := by
  intro p hp
  have hge : ¬ p < ub := by omega
  simp [hge]

/-- The answer of a scan, below an upper bound. -/
theorem firstAt_below {i ub : Nat} {r : Option Nat} (h : FirstAt P i r)
    (hQ : ∀ p, i ≤ p → Q p = (P p && decide (p < ub))) :
    FirstAt Q i (r.bind (below ub)) := by
  cases r with
  | none =>
    intro p hp
    rw [hQ p hp, h p hp]
    rfl
  | some r =>
    obtain ⟨hir, hr, hb⟩ := h
    rw [Option.bind_some, below]
    split
    · rename_i hlt
      refine ⟨hir, ?_, ?_⟩
      · rw [hQ r hir, hr]
        simpa using hlt
      · intro p hp hpr
        rw [hQ p hp, hb p hp hpr]
        rfl
    · rename_i hge
      intro p hp
      rw [hQ p hp]
      by_cases hpr : p < r
      · rw [hb p hp hpr]
        rfl
      · rw [decide_eq_false (by omega), Bool.and_false]

/-- The bits of the dense words in an index word. -/
theorem Holds.indexBit (h : s.Holds P) (hk : k < blockCount s.length) (hj : j < 64) :
    (s.indices.getD k 0).getLsbD j = (wordOf P (64 * k + j) != 0#64) := by
  rw [(h.block k hk).idx.bit j hj, denseBlock_getD P k hj]

/-- `first_doc`. -/
theorem firstDoc_firstAt (h : s.Holds P) (n : Nat) :
    ∀ k, k + n ≤ blockCount s.length ∨ n = 0 →
      ∃ r, s.firstDoc (List.range' k n) = .ok r ∧
        FirstAt (fun p => P p && decide (p < 4096 * (k + n))) (4096 * k) r := by
  induction n with
  | zero =>
    intro k _
    exact ⟨none, rfl, firstAt_bound (by omega)⟩
  | succ n ih =>
    intro k hkn
    have hk : k < blockCount s.length := by omega
    rw [List.range'_succ, firstDoc, indexAt_ok hk, ok_bind]
    split
    · rename_i hne
      obtain ⟨hj, _, hbit, hbelow⟩ := firstAt_ctz hne
      generalize (s.indices.getD k 0).ctz.toNat = j at hj hbit hbelow ⊢
      rw [h.indexBit hk hj, bne_iff_ne] at hbit
      have hzero : ∀ l < j, wordOf P (64 * k + l) = 0#64 := by
        intro l hl
        have := hbelow l (Nat.zero_le l) hl
        rw [h.indexBit hk (by omega)] at this
        simpa using this
      obtain ⟨slots, _, hblock, hget⟩ := h.stored hk hj hbit
      have hrank : rank (denseBlock P k) j = 0 := by
        rw [rank_eq_of_zero (Nat.zero_le j) (by rw [denseBlock_length]; omega)]
        · rfl
        · intro l _ hl
          rw [denseBlock_getD P k (by omega)]
          exact hzero l hl
      rw [hrank] at hget
      have hctz := (firstAt_ctz hbit).1
      have hfirst : FirstAt P (4096 * k)
          (some (64 * (64 * k + j) + (wordOf P (64 * k + j)).ctz.toNat)) :=
        firstAt_words (w := 64 * k) (by omega) (by omega)
          (fun v hv hv' => by
            rw [show v = 64 * k + (v - 64 * k) by omega]
            exact hzero _ (by omega)) hbit
      refine ⟨_, ?_, firstAt_below hfirst fun p _ => rfl⟩
      rw [hblock, ok_bind, hget, expect_some, ok_bind,
        Option.bind_some, below, if_pos (by omega),
        show 64 * (64 * k + j) = 4096 * k + 64 * j by omega]
    · rename_i h0
      rw [ne_eq, not_not] at h0
      obtain ⟨r, hr, hfirst⟩ := ih (k + 1) (by omega)
      refine ⟨r, hr, (hfirst.congr fun p _ => ?_).skip (k := 4096 * (k + 1)) (by omega) ?_⟩
      · rw [show k + 1 + n = k + (n + 1) by omega]
      · intro p hp hp'
        have hbit := h.indexBit hk (j := p / 64 % 64) (Nat.mod_lt _ (by decide))
        rw [h0] at hbit
        have hw : wordOf P (64 * k + p / 64 % 64) = 0#64 := by simpa using hbit.symm
        have := eq_false_of_wordOf (p := p) hw (by omega)
        rw [this]
        rfl

/-- A stored word, read by its rank. -/
theorem Holds.read (h : s.Holds P) (hk : k < blockCount s.length) (hj : j < 64)
    (hne : wordOf P (64 * k + j) ≠ 0#64) {o : Nat} (ho : o = rank (denseBlock P k) j)
    {α : Type} (f : U64 → Call α) :
    (s.blockAt k >>= fun block => .expect block[o]? >>= f) =
      f (wordOf P (64 * k + j)) := by
  obtain ⟨slots, _, hblock, hget⟩ := h.stored hk hj hne
  rw [hblock, ok_bind, ho, hget, expect_some, ok_bind]

/-- The words of a block behind word `j`. -/
theorem nextSetWord_firstAt (h : s.Holds P) (hk : k < blockCount s.length) (hj : j < 64)
    {o ub : Nat} (ho : o = rank (denseBlock P k) (j + 1)) (hub : ub ≤ s.length) :
    ∃ r, s.nextSetWord k j (s.indices.getD k 0) o ub = .ok r ∧
      FirstAt (fun p => P p && decide (p < ub)) (64 * (64 * k + j + 1)) r := by
  have hbit : ∀ b, j + 1 + b < 64 →
      ((s.indices.getD k 0 >>> j) >>> 1).getLsbD b =
        (wordOf P (64 * k + (j + 1 + b)) != 0#64) := by
    intro b hb
    rw [BitVec.getLsbD_ushiftRight, BitVec.getLsbD_ushiftRight, ← Nat.add_assoc,
      h.indexBit hk hb]
  rw [nextSetWord]
  dsimp only
  split
  · rename_i h0
    -- the rest of the block is zero: the blocks behind it
    rw [h0] at hbit
    have hrest : ∀ p, 64 * (64 * k + j + 1) ≤ p → p < 4096 * (k + 1) → P p = false := by
      intro p hp hp'
      have hb := hbit (p / 64 % 64 - (j + 1)) (by omega)
      rw [show 64 * k + (j + 1 + (p / 64 % 64 - (j + 1))) = p / 64 by omega] at hb
      have hw : wordOf P (p / 64) = 0#64 := by simpa using hb.symm
      exact eq_false_of_wordOf hw (by omega)
    have hblocks : blockCount ub ≤ blockCount s.length := by
      simp only [blockCount, divCeil]
      split <;> split <;> omega
    have hupper : ∃ n, (if ub = s.length then s.indices.length else blockCount ub) = n ∧
        n ≤ blockCount s.length ∧ ub ≤ 4096 * n := by
      refine ⟨_, rfl, ?_, ?_⟩
      · rw [s.indicesRoom]
        split <;> omega
      · rw [s.indicesRoom]
        split
        · rename_i heq
          rw [heq]
          exact Packed.le_mul_divCeil s.length (by decide)
        · exact Packed.le_mul_divCeil ub (by decide)
    obtain ⟨n, hn, hns, hnub⟩ := hupper
    obtain ⟨r, hr, hfirst⟩ := firstDoc_firstAt h (n - (k + 1)) (k + 1) (by omega)
    rw [hn, hr]
    refine ⟨_, rfl, (firstAt_below hfirst (fun p _ => ?_)).skip (by omega) ?_⟩
    · rw [Bool.and_assoc, ← Bool.decide_and]
      congr 1
      rw [decide_eq_decide]
      omega
    · intro p hp hp'
      rw [hrest p hp hp']
      rfl
  · rename_i hne
    obtain ⟨hb, _, hset, hbelow⟩ := firstAt_ctz hne
    generalize ((s.indices.getD k 0 >>> j) >>> 1).ctz.toNat = b at hb hset hbelow ⊢
    have hlt : j + 1 + b < 64 := by
      by_contra hge
      rw [BitVec.getLsbD_ushiftRight, BitVec.getLsbD_ushiftRight,
        BitVec.getLsbD_of_ge _ _ (by omega)] at hset
      exact absurd hset (by simp)
    rw [hbit b hlt, bne_iff_ne] at hset
    have hzero : ∀ l, j + 1 ≤ l → l < j + 1 + b → wordOf P (64 * k + l) = 0#64 := by
      intro l hl hl'
      have := hbelow (l - (j + 1)) (Nat.zero_le _) (by omega)
      rw [hbit _ (by omega), show j + 1 + (l - (j + 1)) = l by omega] at this
      simpa using this
    have hrank : o = rank (denseBlock P k) (j + 1 + b) := by
      rw [ho]
      refine (rank_eq_of_zero (by omega) (by rw [denseBlock_length]; omega) ?_).symm
      intro l hl hl'
      rw [denseBlock_getD P k (by omega)]
      exact hzero l hl hl'
    have hfirst : FirstAt P (64 * (64 * k + j + 1)) (some (64 * (64 * k + (j + 1 + b)) +
        (wordOf P (64 * k + (j + 1 + b))).ctz.toNat)) :=
      firstAt_words (w := 64 * k + j + 1) (by omega) (by omega)
        (fun v hv hv' => by
          rw [show v = 64 * k + (v - 64 * k) by omega]
          exact hzero _ (by omega) (by omega)) hset
    refine ⟨_, ?_, firstAt_below hfirst fun p _ => rfl⟩
    rw [h.read hk hlt hset hrank, Option.bind_some,
      show 4096 * k + 64 * (j + (1 + b)) = 64 * (64 * k + (j + 1 + b)) by omega]

/-- `next_set_bit_in_range`. -/
theorem nextSetBitInRange_firstAt (h : s.Holds P) (start : Nat) {ub : Nat}
    (hub : ub ≤ s.length) :
    ∃ r, s.nextSetBitInRange start ub = .ok r ∧
      FirstAt (fun p => P p && decide (p < ub)) start r := by
  rw [nextSetBitInRange]
  split
  · rename_i hge
    exact ⟨none, rfl, firstAt_bound (by omega)⟩
  rename_i hlt
  have hk := div_lt_blockCount (show start < s.length by omega)
  have hj : start / 64 % 64 < 64 := Nat.mod_lt _ (by decide)
  have hword : 64 * (start / 4096) + start / 64 % 64 = start / 64 := by omega
  have hlen : start / 64 % 64 < (denseBlock P (start / 4096)).length := by
    rw [denseBlock_length]
    exact hj
  have hsucc := rank_succ hlen
  rw [denseBlock_getD P _ hj, hword] at hsucc
  -- the words behind the word of `start`, when that word has no bit left
  have hbehind : (∀ p, start ≤ p → p < 64 * (start / 64 + 1) → P p = false) → ∀ o,
      o = rank (denseBlock P (start / 4096)) (start / 64 % 64 + 1) →
      ∃ r, s.nextSetWord (start / 4096) (start / 64 % 64)
          (s.indices.getD (start / 4096) 0) o ub = .ok r ∧
        FirstAt (fun p => P p && decide (p < ub)) start r := by
    intro hzero o ho
    obtain ⟨r, hr, hfirst⟩ := nextSetWord_firstAt h hk hj ho hub
    rw [hword] at hfirst
    refine ⟨r, hr, hfirst.skip (by omega) ?_⟩
    intro p hp hp'
    rw [hzero p hp hp']
    rfl
  dsimp only
  rw [indexAt_ok hk, ok_bind, h.ordOf_eq hk hj]
  split
  · rename_i hset
    rw [ne_eq, h.and_oneBit_eq_zero hk hj] at hset
    rw [h.read hk hj hset rfl, hword]
    rw [hword] at hset
    have hbit : ∀ b, start % 64 + b < 64 →
        (wordOf P (start / 64) >>> (start % 64)).getLsbD b = P (start + b) := by
      intro b hb
      rw [BitVec.getLsbD_ushiftRight, wordOf_getLsbD P _ hb,
        show 64 * (start / 64) + (start % 64 + b) = start + b by omega]
    split
    · rename_i hne
      obtain ⟨hb, _, hb1, hbelow⟩ := firstAt_ctz hne
      generalize (wordOf P (start / 64) >>> (start % 64)).ctz.toNat = b at hb hb1 hbelow ⊢
      have hlt64 : start % 64 + b < 64 := by
        by_contra hge
        rw [BitVec.getLsbD_ushiftRight, BitVec.getLsbD_of_ge _ _ (by omega)] at hb1
        exact absurd hb1 (by simp)
      have hfirst : FirstAt P start (some (start + b)) := by
        refine ⟨by omega, by rw [← hbit b hlt64, hb1], ?_⟩
        intro p hp hp'
        rw [show p = start + (p - start) by omega, ← hbit _ (by omega)]
        exact hbelow _ (Nat.zero_le _) (by omega)
      exact ⟨_, rfl, firstAt_below hfirst fun p _ => rfl⟩
    · rename_i h0
      rw [ne_eq, not_not] at h0
      refine hbehind ?_ _ ?_
      · intro p hp hp'
        rw [show p = start + (p - start) by omega, ← hbit _ (by omega), h0]
        simp
      · rw [hsucc, if_neg hset]
  · rename_i hset
    rw [ne_eq, not_not, h.and_oneBit_eq_zero hk hj, hword] at hset
    refine hbehind ?_ _ ?_
    · intro p hp hp'
      exact eq_false_of_wordOf hset (by omega)
    · rw [hsucc, if_pos hset, Nat.add_zero]

/-- The loop of `next_clear_bit_in_range`. -/
theorem nextClearWord_firstAt (h : s.Holds P) {ub : Nat} (hub : ub ≤ s.length) (n : Nat) :
    ∀ w lo, lo < 64 → ub ≤ 64 * (w + n) → (n = 0 ∨ 64 * (w + n) < ub + 64) →
      ∃ r, s.nextClearWord ub lo (List.range' w n) = .ok r ∧
        FirstAt (fun p => !P p && decide (p < ub)) (64 * w + lo) r := by
  induction n with
  | zero =>
    intro w lo _ hle _
    exact ⟨none, rfl, firstAt_bound (by omega)⟩
  | succ n ih =>
    intro w lo hlo hle hlast
    have hk : w / 64 < blockCount s.length := by
      have := div_lt_blockCount (show 64 * w < s.length by omega)
      rwa [show 64 * w / 4096 = w / 64 by omega] at this
    have hj : w % 64 < 64 := Nat.mod_lt w (by decide)
    have hword : 64 * (w / 64) + w % 64 = w := by omega
    rw [List.range'_succ, nextClearWord, indexAt_ok hk, ok_bind]
    dsimp only
    split
    · rename_i h0
      rw [h.and_oneBit_eq_zero hk hj, hword, wordOf_eq_zero_iff] at h0
      have hfirst : FirstAt (fun p => !P p) (64 * w + lo) (some (64 * w + lo)) := by
        refine ⟨Nat.le_refl _, by simp [h0 lo hlo], ?_⟩
        intro p hp hp'
        omega
      exact ⟨_, rfl, firstAt_below hfirst fun p _ => rfl⟩
    · rename_i hne
      rw [h.and_oneBit_eq_zero hk hj] at hne
      rw [h.read hk hj hne (h.ordOf_eq hk hj), hword]
      have hbit : ∀ b < 64, (~~~wordOf P w &&& fromBit lo).getLsbD b =
          (!P (64 * w + b) && decide (lo ≤ b)) := by
        intro b hb
        rw [BitVec.getLsbD_and, BitVec.getLsbD_not, wordOf_getLsbD P w hb,
          getLsbD_fromBit hb, decide_eq_true hb, Bool.true_and]
      split
      · rename_i h0
        obtain ⟨r, hr, hfirst⟩ := ih (w + 1) 0 (by decide) (by omega) (by omega)
        refine ⟨r, hr, hfirst.skip (by omega) ?_⟩
        intro p hp hp'
        have hb := hbit (p % 64) (Nat.mod_lt p (by decide))
        rw [h0, show 64 * w + p % 64 = p by omega, decide_eq_true (by omega),
          Bool.and_true] at hb
        simp [← hb]
      · rename_i hne0
        obtain ⟨hb, _, hset, hbelow⟩ := firstAt_ctz hne0
        generalize (~~~wordOf P w &&& fromBit lo).ctz.toNat = b at hb hset hbelow ⊢
        rw [hbit b hb, Bool.and_eq_true, decide_eq_true_eq] at hset
        have hfirst : FirstAt (fun p => !P p) (64 * w + lo) (some (64 * w + b)) := by
          refine ⟨by omega, hset.1, ?_⟩
          intro p hp hp'
          have := hbelow (p - 64 * w) (Nat.zero_le _) (by omega)
          rwa [hbit _ (by omega), decide_eq_true (by omega), Bool.and_true,
            show 64 * w + (p - 64 * w) = p by omega] at this
        exact ⟨_, rfl, firstAt_below hfirst fun p _ => rfl⟩

/-- `next_clear_bit_in_range`. -/
theorem nextClearBitInRange_firstAt (h : s.Holds P) (start ub : Nat) :
    ∃ r, s.nextClearBitInRange start ub = .ok r ∧
      FirstAt (fun p => !P p && decide (p < min ub s.length)) start r := by
  rw [nextClearBitInRange]
  dsimp only
  generalize hm : min ub s.length = m
  split
  · rename_i hge
    exact ⟨none, rfl, firstAt_bound (by omega)⟩
  · rename_i hlt
    have hmle : m ≤ s.length := by omega
    obtain ⟨r, hr, hfirst⟩ := nextClearWord_firstAt h hmle
      ((m - 1) / 64 + 1 - start / 64) (start / 64) (start % 64)
      (Nat.mod_lt _ (by decide)) (by omega) (by omega)
    refine ⟨r, hr, ?_⟩
    rwa [show 64 * (start / 64) + start % 64 = start by omega] at hfirst

/-! ## Scans downwards -/

/-- Zero words are skipped. -/
theorem lastBelow_words {w w' : Nat} (hlt : w' < w)
    (hzero : ∀ v, w' < v → v < w → wordOf P v = 0#64) (hne : wordOf P w' ≠ 0#64) :
    LastBelow P (64 * w) (some (64 * w' + topBit (wordOf P w'))) := by
  obtain ⟨hb, hbit, habove⟩ := topBit_spec hne
  refine ⟨by omega, by rw [← wordOf_getLsbD P w' hb, hbit], ?_⟩
  intro p hp hp'
  by_cases hpw : p / 64 = w'
  · have := habove (p % 64) (by omega)
    rwa [wordOf_getLsbD P w' (Nat.mod_lt p (by decide)),
      show 64 * w' + p % 64 = p by omega] at this
  · exact eq_false_of_wordOf (hzero (p / 64) (by omega) (by omega)) (by omega)

/-- The last word of a block before its word `m`, by the index bits below. -/
theorem lastWord_lastBelow (h : s.Holds P) (hk : k < blockCount s.length) {x : U64}
    {m : Nat} (hm : m ≤ 64)
    (hx : ∀ b < 64, x.getLsbD b = ((s.indices.getD k 0).getLsbD b && decide (b < m)))
    (hones : countOnes x = rank (denseBlock P k) m) (hne : x ≠ 0#64) :
    ∃ r, (s.blockAt k >>= fun block => .expect block[countOnes x - 1]? >>= fun w =>
        .ok (some (4096 * k + 64 * topBit x + topBit w)) : Call (Option Nat)) = .ok r ∧
      LastBelow P (64 * (64 * k + m)) r := by
  obtain ⟨hlt, hw, hzero, hrank⟩ := (h.block k hk).idx.topBit hm hx hne
  have hj : topBit x < 64 := by omega
  rw [denseBlock_getD P k hj] at hw
  refine ⟨_, h.read hk hj hw (by omega) _, ?_⟩
  rw [show 4096 * k + 64 * topBit x = 64 * (64 * k + topBit x) by omega]
  refine lastBelow_words (by omega) (fun v hv hv' => ?_) hw
  have := hzero (v - 64 * k) (by omega) (by omega)
  rwa [denseBlock_getD P k (by omega), show 64 * k + (v - 64 * k) = v by omega] at this

/-- `last_doc`. -/
theorem lastDoc_lastBelow (h : s.Holds P) :
    ∀ k ≤ blockCount s.length, ∃ r, s.lastDoc k = .ok r ∧ LastBelow P (4096 * k) r := by
  intro k
  induction k with
  | zero => exact fun _ => ⟨none, rfl, fun p hp => absurd hp (Nat.not_lt_zero p)⟩
  | succ k ih =>
    intro hk
    rw [lastDoc, indexAt_ok hk, ok_bind]
    split
    · rename_i hne
      have hones : countOnes (s.indices.getD k 0) = rank (denseBlock P k) 64 := by
        rw [(h.block k hk).idx.countOnes_eq_length, rank,
          List.take_of_length_le (by rw [denseBlock_length])]
      have hlast := lastWord_lastBelow h hk (Nat.le_refl 64) (fun b hb => by simp [hb])
        hones hne
      rwa [show 64 * (64 * k + 64) = 4096 * (k + 1) by omega] at hlast
    · rename_i h0
      rw [ne_eq, not_not] at h0
      obtain ⟨r, hr, hlast⟩ := ih (by omega)
      refine ⟨r, hr, hlast.skip (by omega) fun p hp hp' => ?_⟩
      have hbit := h.indexBit hk (j := p / 64 % 64) (Nat.mod_lt _ (by decide))
      rw [h0, show 64 * k + p / 64 % 64 = p / 64 by omega] at hbit
      have hw : wordOf P (p / 64) = 0#64 := by simpa using hbit.symm
      exact eq_false_of_wordOf hw (by omega)

/-- The words before word `j`. -/
theorem prevSetWord_lastBelow (h : s.Holds P) (hk : k < blockCount s.length)
    (hj : j < 64) :
    ∃ r, s.prevSetWord k (s.indices.getD k 0 &&& (oneBit j - 1#64)) = .ok r ∧
      LastBelow P (64 * (64 * k + j)) r := by
  have hbits : ∀ b < 64, (s.indices.getD k 0 &&& (oneBit j - 1#64)).getLsbD b =
      ((s.indices.getD k 0).getLsbD b && decide (b < j)) := by
    intro b _
    rw [BitVec.getLsbD_and, getLsbD_oneBit_sub hj]
  have hones := (h.block k hk).idx.countOnes_and hj
  rw [prevSetWord]
  split
  · rename_i h0
    obtain ⟨r, hr, hlast⟩ := lastDoc_lastBelow h k (by omega)
    refine ⟨r, hr, hlast.skip (by omega) fun p hp hp' => ?_⟩
    have hbit := hbits (p / 64 % 64) (Nat.mod_lt _ (by decide))
    rw [h0, decide_eq_true (by omega), Bool.and_true,
      h.indexBit hk (Nat.mod_lt _ (by decide)),
      show 64 * k + p / 64 % 64 = p / 64 by omega] at hbit
    have hw : wordOf P (p / 64) = 0#64 := by simpa using hbit.symm
    exact eq_false_of_wordOf hw (by omega)
  · rename_i hne
    have hpos : 1 ≤ countOnes (s.indices.getD k 0 &&& (oneBit j - 1#64)) := by
      have := ((h.block k hk).idx.topBit (by omega) hbits hne).2.2.2
      omega
    obtain ⟨r, hr, hlast⟩ := lastWord_lastBelow h hk (by omega) hbits hones hne
    refine ⟨r, ?_, hlast⟩
    rw [← hr]
    congr 1
    funext block
    rw [sub_of_le hpos, ok_bind]

/-- `prev_set_bit`. -/
theorem prevSetBit_lastBelow (h : s.Holds P) {i : Nat} (hi : i < s.length) :
    ∃ r, s.prevSetBit i = .ok r ∧ LastBelow P (i + 1) r := by
  have hk := div_lt_blockCount hi
  have hj : i / 64 % 64 < 64 := Nat.mod_lt _ (by decide)
  have hword : 64 * (i / 4096) + i / 64 % 64 = i / 64 := by omega
  obtain ⟨r, hr, hlast⟩ := prevSetWord_lastBelow h hk hj
  rw [hword] at hlast
  have hones := (h.block _ hk).idx.countOnes_and hj
  have hmask : ∀ b < 64, (if i % 64 = 63 then BitVec.allOnes 64
      else oneBit (i % 64 + 1) - 1#64).getLsbD b = decide (b ≤ i % 64) := by
    intro b hb
    split
    · rw [BitVec.getLsbD_allOnes, decide_eq_true hb, decide_eq_true (by omega)]
    · rw [getLsbD_oneBit_sub (by omega), decide_eq_decide]
      omega
  rw [prevSetBit, guardOk_pos hi, ok_bind]
  dsimp only
  rw [indexAt_ok hk, ok_bind]
  split
  · rename_i hset
    rw [ne_eq, h.and_oneBit_eq_zero hk hj] at hset
    rw [h.read hk hj hset hones, hword]
    generalize (if i % 64 = 63 then BitVec.allOnes 64
      else oneBit (i % 64 + 1) - 1#64) = mask at hmask ⊢
    have hbit : ∀ b < 64, (wordOf P (i / 64) &&& mask).getLsbD b =
        (P (64 * (i / 64) + b) && decide (b ≤ i % 64)) := by
      intro b hb
      rw [BitVec.getLsbD_and, wordOf_getLsbD P _ hb, hmask b hb]
    split
    · rename_i hne
      obtain ⟨hb, hb1, habove⟩ := topBit_spec hne
      generalize topBit (wordOf P (i / 64) &&& mask) = b at hb hb1 habove ⊢
      rw [hbit b hb, Bool.and_eq_true, decide_eq_true_eq] at hb1
      refine ⟨_, rfl, ?_⟩
      rw [show 4096 * (i / 4096) + 64 * (i / 64 % 64) = 64 * (i / 64) by omega]
      refine ⟨by omega, hb1.1, fun p hp hp' => ?_⟩
      have := habove (p % 64) (by omega)
      rwa [hbit _ (Nat.mod_lt p (by decide)), decide_eq_true (by omega), Bool.and_true,
        show 64 * (i / 64) + p % 64 = p by omega] at this
    · rename_i h0
      rw [ne_eq, not_not] at h0
      refine ⟨r, hr, hlast.skip (by omega) fun p hp hp' => ?_⟩
      have := hbit (p % 64) (Nat.mod_lt p (by decide))
      rw [h0, decide_eq_true (by omega), Bool.and_true,
        show 64 * (i / 64) + p % 64 = p by omega] at this
      simpa using this.symm
  · rename_i hset
    rw [ne_eq, not_not, h.and_oneBit_eq_zero hk hj, hword] at hset
    refine ⟨r, hr, hlast.skip (by omega) fun p hp hp' => ?_⟩
    exact eq_false_of_wordOf hset (by omega)

end SparseFixedBitSet

end LuceneRust.Util
