import LuceneRust.Util.SparseFixedBitSetSpec

/-!
# The operations of a `SparseFixedBitSet`

Every operation that changes the set, from the two changes of one word.

* `Yields.bind` and `foldlM_yields` chain calls.
* `setWithinBlock_yields`, `setRange_yields`, `clearWithinBlock_yields` and
  `clearRange_yields` are the ranges.
* `orBlock_yields` walks the index bits of an operand: `getLsbD_clearLowest`
  is one step of the walk.
-/

namespace LuceneRust.Util

open RustSem WordTape Compressed
open Packed (Call divCeil)

namespace SparseFixedBitSet

variable {s t other : SparseFixedBitSet} {P Q R W : Nat → Bool} {k j lo hi : Nat}

/-! ## Chains of calls -/

theorem Yields.congr {x : Call SparseFixedBitSet} (h : Yields s x P)
    (hPQ : ∀ p, P p = Q p) : Yields s x Q := by
  obtain ⟨t, ht, hlen, hold⟩ := h
  exact ⟨t, ht, hlen, hold.congr hPQ⟩

theorem Holds.yields (h : s.Holds P) : Yields s (.ok s) P := ⟨s, rfl, rfl, h⟩

theorem Yields.bind {x : Call SparseFixedBitSet}
    {f : SparseFixedBitSet → Call SparseFixedBitSet} (h : Yields s x P)
    (hf : ∀ t, t.length = s.length → t.Holds P → Yields t (f t) Q) :
    Yields s (x >>= f) Q := by
  obtain ⟨t, rfl, hlen, hold⟩ := h
  obtain ⟨u, hu, hulen, huhold⟩ := hf t hlen hold
  exact ⟨u, hu, hulen.trans hlen, huhold⟩

/-- A loop, with what the set holds after the elements that were visited. -/
theorem foldlM_yields {f : SparseFixedBitSet → Nat → Call SparseFixedBitSet}
    (S : List Nat → Nat → Bool) (l : List Nat) (h : s.Holds (S []))
    (hf : ∀ seen i t, i ∈ l → t.length = s.length → t.Holds (S seen) →
      Yields t (f t i) (S (seen ++ [i]))) : Yields s (l.foldlM f s) (S l) := by
  refine foldlM_visited (fun seen t => t.length = s.length ∧ t.Holds (S seen)) l ?_ s
    ⟨rfl, h⟩
  rintro seen i t ⟨rest, hl⟩ ⟨hlen, hold⟩
  obtain ⟨u, hu, hulen, huhold⟩ := hf seen i t (by simp [hl]) hlen hold
  exact ⟨u, hu, hulen.trans hlen, huhold⟩

/-! ## Ranges -/

/-- The indices `lo..hi` set. -/
def orSpan (P : Nat → Bool) (lo hi p : Nat) : Bool :=
  P p || decide (lo ≤ p ∧ p < hi)

/-- The indices `lo..hi` cleared. -/
def andNotSpan (P : Nat → Bool) (lo hi p : Nat) : Bool :=
  P p && !decide (lo ≤ p ∧ p < hi)

theorem mask_getLsbD {b : Nat} (hle : lo ≤ hi) (hhi : hi < 64) (hb : b < 64) :
    (mask lo hi).getLsbD b = decide (lo ≤ b ∧ b ≤ hi) := by
  have hspan : ∀ c < 64, (if 64 ≤ hi - lo + 1 then BitVec.allOnes 64
      else oneBit (hi - lo + 1) - 1#64).getLsbD c = decide (c < hi - lo + 1) := by
    intro c hc
    split
    · rw [BitVec.getLsbD_allOnes, decide_eq_true hc, decide_eq_true (by omega)]
    · exact getLsbD_oneBit_sub (by omega) c
  rw [mask]
  rw [BitVec.getLsbD_shiftLeft, Nat.mod_eq_of_lt (by omega : lo < 64)]
  by_cases hlb : b < lo
  · simp [hlb, show ¬ lo ≤ b by omega]
  · rw [hspan _ (by omega)]
    simp only [hb, hlb, decide_true, decide_false, Bool.not_false, Bool.true_and,
      decide_eq_decide]
    omega

/-- A range of one block, set. -/
theorem setWithinBlock_yields (h : s.Holds P) (hk : k < blockCount s.length)
    (hle : lo ≤ hi) (hhi : hi < 4096) (hlen : 4096 * k + hi < s.length) :
    Yields s (s.setWithinBlock k lo hi)
      (orSpan P (4096 * k + lo) (4096 * k + hi + 1)) := by
  rw [setWithinBlock]
  split
  · rename_i hsame
    refine (orLong_yields h hk (by omega) ?_).congr fun p => ?_
    · intro b hb hbit
      rw [mask_getLsbD (by omega) (by omega) hb, decide_eq_true_eq] at hbit
      omega
    · rw [orBits, orSpan, mask_getLsbD (by omega) (by omega) (by omega), Bool.eq_iff_iff]
      simp only [Bool.or_eq_true, Bool.and_eq_true, decide_eq_true_eq]
      refine or_congr Iff.rfl ?_
      omega
  · rename_i hdiff
    -- the last word, the words between, the first word
    refine (orLong_yields h hk (by omega) ?_).bind fun t ht hold => ?_
    · intro b hb hbit
      rw [mask_getLsbD (by omega) (by omega) hb, decide_eq_true_eq] at hbit
      omega
    refine (foldlM_yields
      (fun seen p => orBits P (64 * k + hi / 64) (mask 0 (hi % 64)) p ||
        seen.any fun i => decide (p / 64 = 64 * k + i)) _
      (hold.congr fun p => by simp) ?_).bind fun u hu hold => ?_
    · intro seen i u hi' hu hold
      rw [List.mem_range'_1] at hi'
      refine (orLong_yields hold (by rw [hu, ht]; exact hk) (by omega) ?_).congr
        fun p => ?_
      · intro b hb _
        rw [hu, ht]
        omega
      · rw [orBits, List.any_append, BitVec.getLsbD_allOnes,
          decide_eq_true (Nat.mod_lt p (by decide)), Bool.and_true, Bool.or_assoc]
        simp
    refine (orLong_yields hold (by rw [hu, ht]; exact hk) (by omega) ?_).congr
      fun p => ?_
    · intro b hb hbit
      rw [mask_getLsbD (by omega) (by omega) hb, decide_eq_true_eq] at hbit
      rw [hu, ht]
      omega
    · rw [orBits, orBits, orSpan, mask_getLsbD (by omega) (by omega) (by omega),
        mask_getLsbD (by omega) (by omega) (by omega), Bool.eq_iff_iff]
      simp only [Bool.or_eq_true, Bool.and_eq_true, decide_eq_true_eq, List.any_eq_true,
        List.mem_range'_1, or_assoc]
      refine or_congr Iff.rfl ?_
      constructor
      · rintro (h | ⟨i, hi', h⟩ | h) <;> omega
      · intro h
        by_cases hfirst : p / 64 = 64 * k + lo / 64
        · exact .inr (.inr ⟨hfirst, by omega⟩)
        · by_cases hlast : p / 64 = 64 * k + hi / 64
          · exact .inl ⟨hlast, by omega⟩
          · exact .inr (.inl ⟨p / 64 - 64 * k, by omega, by omega⟩)

/-- A range of one block, cleared. -/
theorem clearWithinBlock_yields (h : s.Holds P) (hk : k < blockCount s.length)
    (hle : lo ≤ hi) (hhi : hi < 4096) :
    Yields s (s.clearWithinBlock k lo hi)
      (andNotSpan P (4096 * k + lo) (4096 * k + hi + 1)) := by
  have hnot : ∀ {w lo hi : Nat} {P : Nat → Bool} (p : Nat), lo ≤ hi → hi < 64 →
      andBits P w (~~~mask lo hi) p =
        (P p && !decide (p / 64 = w ∧ lo ≤ p % 64 ∧ p % 64 ≤ hi)) := by
    intro w lo hi P p hle hhi
    have hp : p % 64 < 64 := Nat.mod_lt p (by decide)
    rw [andBits, BitVec.getLsbD_not, mask_getLsbD hle hhi hp, decide_eq_true hp,
      Bool.true_and, ← Bool.not_and, Bool.decide_and (p / 64 = w)]
  rw [clearWithinBlock]
  split
  · rename_i hsame
    refine (and_yields h hk (by omega) _).congr fun p => ?_
    rw [hnot p (by omega) (by omega), andNotSpan]
    congr 2
    rw [decide_eq_decide]
    omega
  · rename_i hdiff
    refine (and_yields h hk (by omega) _).bind fun t ht hold => ?_
    refine (foldlM_yields
      (fun seen p => andBits P (64 * k + hi / 64) (~~~mask 0 (hi % 64)) p &&
        !seen.any fun i => decide (p / 64 = 64 * k + i)) _
      (hold.congr fun p => by simp) ?_).bind fun u hu hold => ?_
    · intro seen i u hi' hu hold
      rw [List.mem_reverse, List.mem_range'_1] at hi'
      refine (and_yields hold (by rw [hu, ht]; exact hk) (by omega) _).congr fun p => ?_
      rw [andBits, List.any_append, Bool.not_or, Bool.and_assoc]
      simp
    refine (and_yields hold (by rw [hu, ht]; exact hk) (by omega) _).congr fun p => ?_
    rw [hnot p (by omega) (by omega), hnot p (by omega) (by omega), andNotSpan,
      Bool.and_assoc, Bool.and_assoc]
    congr 1
    rw [← Bool.not_or, ← Bool.not_or]
    congr 1
    rw [Bool.eq_iff_iff]
    simp only [Bool.or_eq_true, decide_eq_true_eq, List.any_eq_true, List.mem_reverse,
      List.mem_range'_1]
    constructor
    · rintro (h | ⟨i, hi', h⟩ | h) <;> omega
    · intro h
      by_cases hfirst : p / 64 = 64 * k + lo / 64
      · exact .inr (.inr ⟨hfirst, by omega⟩)
      · by_cases hlast : p / 64 = 64 * k + hi / 64
        · exact .inl ⟨hlast, by omega⟩
        · exact .inr (.inl ⟨p / 64 - 64 * k, by omega, by omega⟩)

/-- `set_range`. -/
theorem setRange_yields (h : s.Holds P) (hlen : lo < hi → hi ≤ s.length) :
    Yields s (s.setRange lo hi) (orSpan P lo hi) := by
  rw [setRange]
  split
  · rename_i hle
    exact h.yields.congr fun p => by simp [orSpan, show ¬ (lo ≤ p ∧ p < hi) by omega]
  rename_i hlt
  have hhi := hlen (by omega)
  have hfirst := div_lt_blockCount (show lo < s.length by omega)
  have hlast := div_lt_blockCount (show hi - 1 < s.length by omega)
  rw [guardOk_pos ⟨by omega, hhi⟩, ok_bind]
  dsimp only
  split
  · rename_i hsame
    refine (setWithinBlock_yields h hfirst (by omega) (by omega) (by omega)).congr
      fun p => ?_
    rw [orSpan, orSpan, show 4096 * (lo / 4096) + lo % 4096 = lo by omega,
      show 4096 * (lo / 4096) + (hi - 1) % 4096 + 1 = hi by omega]
  · rename_i hdiff
    refine (setWithinBlock_yields h hfirst (by omega) (by omega) (by omega)).bind
      fun t ht hold => ?_
    refine (foldlM_yields
      (fun seen p => orSpan P (4096 * (lo / 4096) + lo % 4096)
        (4096 * (lo / 4096) + 4095 + 1) p || seen.any fun i => decide (p / 4096 = i)) _
      (hold.congr fun p => by simp) ?_).bind fun u hu hold => ?_
    · intro seen i u hi' hu hold
      rw [List.mem_range'_1] at hi'
      refine (setWithinBlock_yields hold ?_ (by omega) (by omega) ?_).congr fun p => ?_
      · rw [hu, ht]
        omega
      · rw [hu, ht]
        omega
      · rw [orSpan, List.any_append, Bool.or_assoc]
        congr 2
        rw [List.any_cons, List.any_nil, Bool.or_false, decide_eq_decide]
        omega
    refine (setWithinBlock_yields hold ?_ (by omega) (by omega) ?_).congr fun p => ?_
    · rw [hu, ht]
      exact hlast
    · rw [hu, ht]
      omega
    · rw [orSpan, orSpan, orSpan, Bool.or_assoc, Bool.or_assoc, Bool.eq_iff_iff]
      simp only [Bool.or_eq_true, decide_eq_true_eq, List.any_eq_true, List.mem_range'_1]
      refine or_congr Iff.rfl ?_
      constructor
      · rintro (h | ⟨i, hi', h⟩ | h) <;> omega
      · intro h
        by_cases hf : p / 4096 = lo / 4096
        · exact .inl (by omega)
        · by_cases hl : p / 4096 = (hi - 1) / 4096
          · exact .inr (.inr (by omega))
          · exact .inr (.inl ⟨p / 4096, by omega, rfl⟩)

/-- A block of zeros. -/
theorem blockHolds_zero (hzero : ∀ p, p / 4096 = k → Q p = false) :
    BlockHolds 0#64 none (denseBlock Q k) := by
  refine ⟨⟨denseBlock_length Q k, fun j hj => ?_⟩, fun _ => rfl, fun h => absurd rfl h⟩
  rw [denseBlock_getD Q k hj, wordOf_eq_zero_iff.2 fun b hb => hzero _ (by omega)]
  simp

/-- A whole block of `clear_range`. -/
theorem dropBlock_yields (h : s.Holds P) (hk : k < blockCount s.length) :
    Yields s (s.dropBlock k) fun p => P p && !decide (p / 4096 = k) := by
  have hle : countOnes (s.indices.getD k 0) ≤ s.nonZeroLongCount := by
    have := popcount_set (show k < s.indices.length by rw [s.indicesRoom]; exact hk) 0#64
    rw [h.count]
    have : countOnes 0#64 = 0 := rfl
    omega
  rw [dropBlock, indexAt_ok hk, ok_bind, sub_of_le hle, ok_bind]
  refine ⟨_, rfl, rfl, putBlock_holds h hk (blockHolds_zero ?_) ?_ ?_ ?_⟩
  · intro p hp
    simp [hp]
  · intro p hp
    simp [hp]
  · intro p hp
    exact h.bound p (by simpa using And.left (by simpa using hp))
  · have : countOnes 0#64 = 0 := rfl
    omega

/-- `clear_range`. -/
theorem clearRange_yields (h : s.Holds P) (hlen : lo < hi → hi ≤ s.length) :
    Yields s (s.clearRange lo hi) (andNotSpan P lo hi) := by
  rw [clearRange]
  split
  · rename_i hle
    exact h.yields.congr fun p => by
      simp [andNotSpan, show ¬ (lo ≤ p ∧ p < hi) by omega]
  rename_i hlt
  have hhi := hlen (by omega)
  have hfirst := div_lt_blockCount (show lo < s.length by omega)
  have hlast := div_lt_blockCount (show hi - 1 < s.length by omega)
  rw [guardOk_pos hhi, ok_bind]
  dsimp only
  split
  · rename_i hsame
    refine (clearWithinBlock_yields h hfirst (by omega) (by omega)).congr fun p => ?_
    rw [andNotSpan, andNotSpan, show 4096 * (lo / 4096) + lo % 4096 = lo by omega,
      show 4096 * (lo / 4096) + (hi - 1) % 4096 + 1 = hi by omega]
  · rename_i hdiff
    refine (clearWithinBlock_yields h hfirst (by omega) (by omega)).bind
      fun t ht hold => ?_
    refine (foldlM_yields
      (fun seen p => andNotSpan P (4096 * (lo / 4096) + lo % 4096)
        (4096 * (lo / 4096) + 4095 + 1) p && !seen.any fun i => decide (p / 4096 = i)) _
      (hold.congr fun p => by simp) ?_).bind fun u hu hold => ?_
    · intro seen i u hi' hu hold
      rw [List.mem_range'_1] at hi'
      refine (dropBlock_yields hold ?_).congr fun p => ?_
      · rw [hu, ht]
        omega
      · rw [List.any_append, Bool.not_or, Bool.and_assoc]
        simp
    refine (clearWithinBlock_yields hold ?_ (by omega) (by omega)).congr fun p => ?_
    · rw [hu, ht]
      exact hlast
    · rw [andNotSpan, andNotSpan, andNotSpan, Bool.and_assoc, Bool.and_assoc]
      congr 1
      rw [← Bool.not_or, ← Bool.not_or]
      congr 1
      rw [Bool.eq_iff_iff]
      simp only [Bool.or_eq_true, decide_eq_true_eq, List.any_eq_true, List.mem_range'_1]
      constructor
      · rintro (h | ⟨i, hi', h⟩ | h) <;> omega
      · intro h
        by_cases hf : p / 4096 = lo / 4096
        · exact .inl (by omega)
        · by_cases hl : p / 4096 = (hi - 1) / 4096
          · exact .inr (.inr (by omega))
          · exact .inr (.inl ⟨p / 4096, by omega, rfl⟩)

/-! ## Single bits -/

/-- Setting a bit is a union with its word, and tells whether it was set. -/
theorem getAndSet_eq (h : s.Holds P) {i : Nat} (hi : i < s.length) :
    s.getAndSet i =
      (s.orLong (i / 4096) (i / 64 % 64) (oneBit (i % 64)) >>= fun t => .ok (t, P i)) := by
  have hk := div_lt_blockCount hi
  have hj : i / 64 % 64 < 64 := Nat.mod_lt _ (by decide)
  have hb : i % 64 < 64 := Nat.mod_lt _ (by decide)
  have hword : 64 * (i / 4096) + i / 64 % 64 = i / 64 := by omega
  have hne : oneBit (i % 64) ≠ 0#64 := by
    intro h0
    have := getLsbD_oneBit hb (k := i % 64)
    rw [h0] at this
    simp at this
  have hbit : P i = (wordOf P (i / 64)).getLsbD (i % 64) := by
    rw [wordOf_getLsbD P _ hb, show 64 * (i / 64) + i % 64 = i by omega]
  rw [getAndSet, orLong, guardOk_pos hi, ok_bind, if_neg hne,
    indexAt_ok hk, ok_bind, ok_bind]
  dsimp only
  split
  · rename_i hset
    rw [ne_eq, h.and_oneBit_eq_zero hk hj] at hset
    obtain ⟨slots, hslots, hblock, hget⟩ := h.stored hk hj hset
    rw [hblock, ok_bind, ok_bind, h.ordOf_eq hk hj, hget,
      expect_some, ok_bind, ok_bind, ok_bind, hword, hbit,
      and_oneBit_bne _ hb]
  · rename_i hset
    rw [ne_eq, not_not, h.and_oneBit_eq_zero hk hj, hword] at hset
    rw [hbit, hset]
    simp

theorem setBit_yields (h : s.Holds P) {i : Nat} (hi : i < s.length) :
    Yields s (s.orLong (i / 4096) (i / 64 % 64) (oneBit (i % 64)))
      fun p => P p || decide (p = i) := by
  have hword : 64 * (i / 4096) + i / 64 % 64 = i / 64 := by omega
  refine (orLong_yields h (div_lt_blockCount hi) (by omega) ?_).congr fun p => ?_
  · intro b hb hbit
    rw [getLsbD_oneBit hb, decide_eq_true_eq] at hbit
    omega
  · rw [orBits, getLsbD_oneBit (Nat.mod_lt p (by decide)), hword, ← Bool.decide_and]
    congr 1
    rw [decide_eq_decide]
    omega

/-- `get_and_set`. -/
theorem getAndSet_yields (h : s.Holds P) {i : Nat} (hi : i < s.length) :
    ∃ t, s.getAndSet i = .ok (t, P i) ∧ t.length = s.length ∧
      t.Holds fun p => P p || decide (p = i) := by
  obtain ⟨t, ht, hlen, hold⟩ := setBit_yields h hi
  exact ⟨t, by rw [getAndSet_eq h hi, ht, ok_bind], hlen, hold⟩

/-- `set`. -/
theorem set_yields (h : s.Holds P) {i : Nat} (hi : i < s.length) :
    Yields s (s.set i) fun p => P p || decide (p = i) := by
  obtain ⟨t, ht, hlen, hold⟩ := getAndSet_yields h hi
  exact ⟨t, by rw [set, ht]; rfl, hlen, hold⟩

/-- `clear`. -/
theorem clear_yields (h : s.Holds P) {i : Nat} (hi : i < s.length) :
    Yields s (s.clear i) fun p => P p && !decide (p = i) := by
  have hword : 64 * (i / 4096) + i / 64 % 64 = i / 64 := by omega
  rw [clear, guardOk_pos hi, ok_bind]
  refine (and_yields h (div_lt_blockCount hi) (by omega) _).congr fun p => ?_
  have hp : p % 64 < 64 := Nat.mod_lt p (by decide)
  rw [andBits, BitVec.getLsbD_not, getLsbD_oneBit hp, decide_eq_true hp, Bool.true_and,
    hword, ← Bool.not_and, ← Bool.decide_and]
  congr 2
  rw [decide_eq_decide]
  omega

/-- `or_iter`. -/
theorem orIter_yields (h : s.Holds P) {docs : List Nat} (hdocs : ∀ d ∈ docs, d < s.length) :
    Yields s (s.orIter docs) fun p => P p || decide (p ∈ docs) := by
  refine foldlM_yields (fun seen p => P p || decide (p ∈ seen)) docs
    (h.congr fun p => by simp) ?_
  intro seen d t hd ht hold
  refine (set_yields hold (by rw [ht]; exact hdocs d hd)).congr fun p => ?_
  rw [Bool.or_assoc]
  simp [List.mem_append]

/-! ## Everything at once -/

/-- A set without indices. -/
theorem holds_empty (hindices : s.indices = List.replicate (blockCount s.length) 0#64)
    (hbits : s.bits = List.replicate (blockCount s.length) none)
    (hcount : s.nonZeroLongCount = 0) : s.Holds fun _ => false := by
  refine ⟨fun p hp => absurd hp (by simp), fun k hk => ?_, ?_⟩
  · rw [hindices, hbits]
    simp only [List.getD_eq_getElem?_getD, List.getElem?_replicate, hk, if_true,
      Option.getD_some]
    exact blockHolds_zero fun _ _ => rfl
  · have : countOnes 0#64 = 0 := rfl
    simp [hcount, hindices, popcount, this]

/-- `clear_all`. -/
theorem clearAll_yields (s : SparseFixedBitSet) : Yields s (.ok s.clearAll) fun _ => false := by
  refine ⟨_, rfl, rfl, holds_empty ?_ ?_ rfl⟩
  · exact congrArg (List.replicate · 0#64) s.indicesRoom
  · exact congrArg (List.replicate · none) s.bitsRoom

/-- `new`. -/
theorem new_holds {length : Nat} (h : new length = .ok s) :
    s.length = length ∧ s.Holds fun _ => false := by
  rw [new] at h
  split at h
  · cases h
    exact ⟨rfl, holds_empty rfl rfl rfl⟩
  · cases h

/-! ## Unions -/

/-- The bits of one block of `W` that stand before its word `j`. -/
def orBlockBits (P W : Nat → Bool) (k j p : Nat) : Bool :=
  P p || (decide (p / 4096 = k ∧ p / 64 % 64 < j) && W p)

/-- The walk over the stored words of a block: the words before word `j` are
done, and the index has the bits from `j` on. -/
structure Walk (s : SparseFixedBitSet) (P W : Nat → Bool) (k : Nat) (index : U64)
    (j : Nat) (st : SparseFixedBitSet × U64 × Nat) : Prop where
  le : j ≤ 64
  left : ∀ b < 64, st.2.1.getLsbD b = (index.getLsbD b && decide (j ≤ b))
  ord : st.2.2 = rank (denseBlock W k) j
  length : st.1.length = s.length
  holds : st.1.Holds (orBlockBits P W k j)

/-- One pass of the walk. -/
theorem orPass_step (hk : k < blockCount s.length) {index : U64} {slots : List U64}
    (hidx : Indexes index (denseBlock W k))
    (hslots : ∀ j < 64, wordOf W (64 * k + j) ≠ 0#64 →
      slots[rank (denseBlock W k) j]? = some (wordOf W (64 * k + j)))
    (hroom : ∀ p, W p = true → p < s.length)
    {st : SparseFixedBitSet × U64 × Nat} (h : Walk s P W k index j st) :
    (∃ i st', j ≤ i ∧ orPass k slots st = .ok (.inl st') ∧
      Walk s P W k index (i + 1) st') ∨
      ∃ t, orPass k slots st = .ok (.inr t) ∧ t.length = s.length ∧
        t.Holds (orBlockBits P W k 64) := by
  obtain ⟨t, idx, o⟩ := st
  obtain ⟨hj, hleft, hord, hlen, hold⟩ := h
  dsimp only at hleft hord hlen hold
  rw [orPass]
  have hzero : ∀ l < 64, j ≤ l → idx.getLsbD l = false → wordOf W (64 * k + l) = 0#64 := by
    intro l hl hjl hbit
    rw [hleft l hl, decide_eq_true hjl, Bool.and_true, hidx.bit l hl,
      denseBlock_getD W k hl] at hbit
    simpa using hbit
  by_cases hidx0 : idx = 0#64
  · -- no index bit is left: the words from `j` on are zero
    right
    refine ⟨t, by rw [if_pos hidx0], hlen, hold.congr fun p => ?_⟩
    rw [orBlockBits, orBlockBits]
    congr 1
    by_cases hp : p / 4096 = k ∧ ¬ p / 64 % 64 < j
    · have hw := hzero (p / 64 % 64) (Nat.mod_lt _ (by decide)) (by omega)
        (by rw [hidx0]; simp)
      have := eq_false_of_wordOf (p := p) hw (by omega)
      simp [this]
    · congr 1
      rw [decide_eq_decide]
      omega
  · left
    obtain ⟨hi, _, hbit, hbelow⟩ := firstAt_ctz hidx0
    have hclear := getLsbD_clearLowest hidx0
    generalize idx.ctz.toNat = i at hi hbit hbelow hclear ⊢
    rw [hleft i hi, Bool.and_eq_true, decide_eq_true_eq] at hbit
    have hne : wordOf W (64 * k + i) ≠ 0#64 := by
      have := hbit.1
      rw [hidx.bit i hi, denseBlock_getD W k hi] at this
      simpa using this
    have hrank : rank (denseBlock W k) i = rank (denseBlock W k) j := by
      refine rank_eq_of_zero hbit.2 (by rw [denseBlock_length]; omega) fun l hjl hli => ?_
      rw [denseBlock_getD W k (by omega)]
      exact hzero l (by omega) hjl (hbelow l (Nat.zero_le l) hli)
    have hbits : ∀ b < 64, (wordOf W (64 * k + i)).getLsbD b = true →
        64 * (64 * k + i) + b < t.length := by
      intro b hb hbit
      rw [wordOf_getLsbD W _ hb] at hbit
      rw [hlen]
      exact hroom _ hbit
    obtain ⟨u, hu, hulen, huhold⟩ := orLong_yields hold (by rw [hlen]; exact hk) hi hbits
    refine ⟨i, (u, idx &&& (idx - 1#64), o + 1), hbit.2, ?_, ?_⟩
    · rw [if_neg hidx0, hord, ← hrank, hslots i hi hne, expect_some,
        ok_bind, hu, ok_bind]
    · refine ⟨by omega, ?_, ?_, hulen.trans hlen, huhold.congr fun p => ?_⟩
      · intro b hb
        rw [hclear, hleft b hb, Bool.and_assoc, ← Bool.decide_and]
        congr 1
        rw [decide_eq_decide]
        omega
      · rw [rank_succ (by rw [denseBlock_length]; exact hi), denseBlock_getD W k hi,
          if_neg hne, hrank, ← hord]
      · rw [orBits, orBlockBits, orBlockBits, Bool.or_assoc]
        congr 1
        by_cases hp : p / 64 = 64 * k + i
        · rw [wordOf_getLsbD W _ (Nat.mod_lt p (by decide)), ← hp,
            show 64 * (p / 64) + p % 64 = p by omega]
          simp [show p / 4096 = k by omega, show p / 64 % 64 < i + 1 by omega]
        · rw [decide_eq_false hp, Bool.false_and, Bool.or_false]
          by_cases hpk : p / 4096 = k
          · by_cases hpj : p / 64 % 64 < j
            · simp [hpk, hpj, show p / 64 % 64 < i + 1 by omega]
            · by_cases hpi : p / 64 % 64 < i
              · have hw := hzero (p / 64 % 64) (by omega) (by omega)
                  (hbelow _ (Nat.zero_le _) hpi)
                have := eq_false_of_wordOf (p := p) hw (by omega)
                simp [this]
              · simp [hpj, show ¬ p / 64 % 64 < i + 1 by omega]
          · simp [hpk]

/-- The walk ends: every pass moves on to a later word. -/
theorem orPass_run (hk : k < blockCount s.length) {index : U64} {slots : List U64}
    (hidx : Indexes index (denseBlock W k))
    (hslots : ∀ j < 64, wordOf W (64 * k + j) ≠ 0#64 →
      slots[rank (denseBlock W k) j]? = some (wordOf W (64 * k + j)))
    (hroom : ∀ p, W p = true → p < s.length) (fuel : Nat) :
    ∀ j st, Walk s P W k index j st → 64 - j < fuel →
      ∃ t, iterate (orPass k slots) fuel st = .ok t ∧ t.length = s.length ∧
        t.Holds (orBlockBits P W k 64) := by
  induction fuel with
  | zero => exact fun j st _ hlt => absurd hlt (Nat.not_lt_zero _)
  | succ fuel ih =>
    intro j st h hlt
    rcases orPass_step hk hidx hslots hroom h with ⟨i, st', hji, hst, h'⟩ | ⟨t, ht, hpost⟩
    · rw [iterate_continue hst]
      have := h'.le
      exact ih (i + 1) st' h' (by omega)
    · exact ⟨t, iterate_leave ht, hpost⟩

/-- One block of `or`. -/
theorem orBlock_yields (h : s.Holds P) (ho : other.Holds W)
    (hlen : other.length ≤ s.length) (hk : k < blockCount s.length)
    (hk' : k < blockCount other.length) :
    Yields s (s.orBlock other k) fun p => P p || (decide (p / 4096 = k) && W p) := by
  have hblock := ho.block k hk'
  rw [orBlock, indexAt_ok hk', ok_bind]
  split
  · rename_i h0
    refine h.yields.congr fun p => ?_
    by_cases hp : p / 4096 = k
    · have hw := hblock.idx.eq_zero_iff.1 h0 (p / 64 % 64) (Nat.mod_lt _ (by decide))
      rw [denseBlock_getD W k (Nat.mod_lt _ (by decide))] at hw
      have := eq_false_of_wordOf (p := p) hw (by omega)
      simp [this]
    · simp [hp]
  · rename_i hne
    obtain ⟨n, hn⟩ := hblock.some hne
    have hstored : ∀ j < 64, wordOf W (64 * k + j) ≠ 0#64 →
        (compress (denseBlock W k) ++ List.replicate n 0#64)[rank (denseBlock W k) j]? =
          some (wordOf W (64 * k + j)) := by
      intro j hj hw
      obtain ⟨slots, hslots, _, hget⟩ := ho.stored hk' hj hw
      rw [hn] at hslots
      cases hslots
      exact hget
    rw [blockAt_ok hk' hn, ok_bind]
    obtain ⟨t, ht, htlen, hthold⟩ := orPass_run (P := P) hk hblock.idx hstored
      (fun p hp => (ho.bound p hp).trans_le hlen) 65 0 (s, other.indices.getD k 0, 0)
      ⟨Nat.zero_le _, fun b _ => by simp, rfl, rfl, h.congr fun p => by simp [orBlockBits]⟩
      (by omega)
    refine ⟨t, ht, htlen, hthold.congr fun p => ?_⟩
    rw [orBlockBits]
    congr 2
    rw [decide_eq_decide]
    omega

/-- `or`. -/
theorem or_yields (h : s.Holds P) (ho : other.Holds W) (hlen : other.length ≤ s.length) :
    Yields s (s.or other) fun p => P p || W p := by
  have hroom := s.indicesRoom
  have hroom' := other.indicesRoom
  refine Yields.congr (P := fun p => P p ||
    ((List.range (min other.indices.length s.indices.length)).any
      fun i => decide (p / 4096 = i)) && W p) ?_ fun p => ?_
  · refine foldlM_yields (fun seen p => P p || (seen.any fun i => decide (p / 4096 = i)) && W p)
      _ (h.congr fun p => by simp) ?_
    intro seen i t hi ht hold
    rw [List.mem_range] at hi
    refine (orBlock_yields hold ho (by rw [ht]; exact hlen) (by rw [ht]; omega)
      (by omega)).congr fun p => ?_
    rw [List.any_append, Bool.or_assoc, ← Bool.and_or_distrib_right]
    simp
  · cases hW : W p with
    | false => rw [Bool.and_false]
    | true =>
      have hp := ho.bound p hW
      have hblock := div_lt_blockCount hp
      have hblock' := div_lt_blockCount (hp.trans_le hlen)
      have : ((List.range (min other.indices.length s.indices.length)).any
          fun i => decide (p / 4096 = i)) = true := by
        rw [List.any_eq_true]
        exact ⟨p / 4096, List.mem_range.2 (by omega), decide_eq_true rfl⟩
      rw [this]
      rfl

end SparseFixedBitSet

end LuceneRust.Util
