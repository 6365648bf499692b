import LuceneRust.Lib.WordOps

/-!
# Compressed word arrays

A block of words that stores its non-zero words only, in order, with an index
word that has a bit for each of them.

* `compress ws` are the stored words, and `rank ws j` is how many stand
  before word `j`.
* `compress_set_split` is the change of one word, and `compress_set_replace`
  the change of a stored word to another one.
* `Indexes index ws` says that `index` is the index word of `ws`.  Its
  population counts are ranks (`Indexes.countOnes_and`).
* `topBit` is the highest set bit of a word, and `LastBelow` what a scan
  downwards finds.
-/

namespace Compressed

open RustSem WordTape

/-- The words that are stored. -/
def compress (ws : List U64) : List U64 := ws.filter (· != 0#64)

/-- The stored words before word `j`. -/
def rank (ws : List U64) (j : Nat) : Nat := (compress (ws.take j)).length

/-- The stored words, cut at word `j`. -/
theorem compress_split {ws : List U64} {j : Nat} (hj : j < ws.length) :
    compress ws = compress (ws.take j) ++
      ((if ws.getD j 0 = 0#64 then [] else [ws.getD j 0]) ++
        compress (ws.drop (j + 1))) := by
  have h : ws = ws.take j ++ ws.getD j 0 :: ws.drop (j + 1) := by
    rw [List.getD_eq_getElem?_getD, List.getElem?_eq_getElem hj, Option.getD_some,
      List.getElem_cons_drop, List.take_append_drop]
  calc compress ws = compress (ws.take j ++ ws.getD j 0 :: ws.drop (j + 1)) := by rw [← h]
    _ = _ := by
      generalize ws.getD j 0 = x
      rw [compress, List.filter_append, List.filter_cons]
      by_cases h0 : x = 0#64 <;> simp [h0, compress]

theorem compress_set_split {ws : List U64} {j : Nat} (hj : j < ws.length) (v : U64) :
    compress (ws.set j v) = compress (ws.take j) ++
      ((if v = 0#64 then [] else [v]) ++ compress (ws.drop (j + 1))) := by
  have hlen : j < (ws.set j v).length := by rw [List.length_set]; exact hj
  rw [compress_split hlen, getD_set ws hj, if_pos rfl,
    List.take_set_of_le (Nat.le_refl j),
    List.drop_set_of_lt (Nat.lt_succ_self j)]

section

variable {ws : List U64} {j : Nat} {v : U64}

theorem compress_getElem? (hj : j < ws.length) (hne : ws.getD j 0 ≠ 0#64) :
    (compress ws)[rank ws j]? = some (ws.getD j 0) := by
  rw [compress_split hj, rank, List.getElem?_append_right (Nat.le_refl _),
    Nat.sub_self, if_neg hne]
  rfl

theorem compress_set_replace (hj : j < ws.length) (hne : ws.getD j 0 ≠ 0#64)
    (hv : v ≠ 0#64) :
    compress (ws.set j v) = (compress ws).set (rank ws j) v := by
  rw [compress_set_split hj, compress_split hj, if_neg hne, if_neg hv, rank,
    List.set_append_right _ _ (Nat.le_refl _), Nat.sub_self]
  rfl

theorem rank_lt (hj : j < ws.length) (hne : ws.getD j 0 ≠ 0#64) :
    rank ws j < (compress ws).length := by
  have h := compress_getElem? hj hne
  exact (List.getElem?_eq_some_iff.1 h).1

/-- The stored words, cut at a word that is not stored. -/
theorem compress_cut (hj : j < ws.length)
    (h0 : ws.getD j 0 = 0#64) :
    compress ws = compress (ws.take j) ++ compress (ws.drop (j + 1)) := by
  rw [compress_split hj, if_pos h0, List.nil_append]

theorem ne_zero_of_mem_compress {a : U64} (h : a ∈ compress ws) :
    a ≠ 0#64 := by
  simpa [compress] using (List.mem_filter.1 h).2

theorem compress_length_lt (hj : j < ws.length)
    (h0 : ws.getD j 0 = 0#64) : (compress ws).length < ws.length := by
  have hle : ∀ vs : List U64, (compress vs).length ≤ vs.length :=
    fun vs => List.length_filter_le _ vs
  have h1 := hle (ws.take j)
  have h2 := hle (ws.drop (j + 1))
  rw [List.length_take] at h1
  rw [List.length_drop] at h2
  rw [compress_cut hj h0, List.length_append]
  omega

theorem rank_succ (hj : j < ws.length) :
    rank ws (j + 1) = rank ws j + if ws.getD j 0 = 0#64 then 0 else 1 := by
  rw [rank, rank, List.take_add_one, List.getElem?_eq_getElem hj, compress, compress,
    List.filter_append, List.length_append, List.getD_eq_getElem?_getD,
    List.getElem?_eq_getElem hj]
  by_cases h : ws[j] = 0#64 <;> simp [h]

/-- Words that are not stored do not count. -/
theorem rank_eq_of_zero {i : Nat} (hij : i ≤ j) (hj : j ≤ ws.length)
    (h : ∀ l, i ≤ l → l < j → ws.getD l 0 = 0#64) : rank ws j = rank ws i := by
  induction j with
  | zero => rw [Nat.le_zero.1 hij]
  | succ j ih =>
    by_cases hi : i = j + 1
    · rw [hi]
    · rw [rank_succ (by omega), if_pos (h j (by omega) (by omega)), Nat.add_zero,
        ih (by omega) (by omega) fun l hl hlj => h l hl (by omega)]

end

/-! ## The index word -/

/-- Bit `j` of the index says that word `j` is stored. -/
structure Indexes (index : U64) (ws : List U64) : Prop where
  len : ws.length = 64
  bit : ∀ j < 64, index.getLsbD j = (ws.getD j 0 != 0#64)

namespace Indexes

variable {index : U64} {ws : List U64} {j : Nat}

theorem countP_take (h : Indexes index ws) (hj : j ≤ 64) :
    (List.range j).countP index.getLsbD = rank ws j := by
  induction j with
  | zero => rfl
  | succ j ih =>
    have hlen := h.len
    rw [List.range_succ, List.countP_append, ih (by omega), rank, rank,
      List.take_add_one, List.getElem?_eq_getElem (by omega), compress, compress,
      List.filter_append, List.length_append]
    have hbit := h.bit j (by omega)
    rw [List.getD_eq_getElem?_getD, List.getElem?_eq_getElem (by omega),
      Option.getD_some] at hbit
    cases hb : ws[j] != 0#64 <;> simp [hb, hbit]

/-- The bits below `j` count the words that are stored before word `j`. -/
theorem countOnes_and (h : Indexes index ws) (hj : j < 64) :
    countOnes (index &&& (oneBit j - 1#64)) = rank ws j := by
  rw [countOnes_eq, ← h.countP_take (Nat.le_of_lt hj)]
  have hsplit : List.range 64 =
      List.range j ++ (List.range (64 - j)).map (j + ·) := by
    rw [← List.range_add]
    congr 1
    omega
  have hlow : (List.range j).countP (index &&& (oneBit j - 1#64)).getLsbD =
      (List.range j).countP index.getLsbD := by
    apply List.countP_congr
    intro k hk
    have hkj := List.mem_range.1 hk
    rw [BitVec.getLsbD_and, getLsbD_oneBit_sub hj]
    simp [hkj]
  have hhigh : ((List.range (64 - j)).map (j + ·)).countP
      (index &&& (oneBit j - 1#64)).getLsbD = 0 := by
    rw [List.countP_eq_zero]
    intro k hk
    obtain ⟨q, hq, rfl⟩ := List.mem_map.1 hk
    have := List.mem_range.1 hq
    rw [BitVec.getLsbD_and, getLsbD_oneBit_sub hj]
    simp
  rw [hsplit, List.countP_append, hlow, hhigh, Nat.add_zero]

theorem countOnes_eq_length (h : Indexes index ws) :
    countOnes index = (compress ws).length := by
  rw [countOnes_eq, h.countP_take (Nat.le_refl 64), rank,
    List.take_of_length_le (by rw [h.len])]

theorem and_oneBit_eq_zero (h : Indexes index ws) (hj : j < 64) :
    (index &&& oneBit j) = 0#64 ↔ ws.getD j 0 = 0#64 := by
  have hbit := h.bit j hj
  constructor
  · intro h0
    have hb := congrArg (fun x : U64 => x.getLsbD j) h0
    rw [BitVec.getLsbD_and, getLsbD_oneBit hj, hbit] at hb
    simpa using hb
  · intro h0
    apply BitVec.eq_of_getLsbD_eq
    intro k hk
    rw [BitVec.getLsbD_and, getLsbD_oneBit hk]
    by_cases hkj : k = j
    · subst hkj
      rw [hbit, h0]
      simp
    · simp [hkj]

/-- An index of zero indexes zeros. -/
theorem eq_zero_iff (h : Indexes index ws) :
    index = 0#64 ↔ ∀ j < 64, ws.getD j 0 = 0#64 := by
  constructor
  · intro h0 j hj
    have hbit := h.bit j hj
    rw [h0] at hbit
    simpa using hbit.symm
  · intro h0
    apply BitVec.eq_of_getLsbD_eq
    intro k hk
    rw [h.bit k hk, h0 k hk]
    simp

theorem compress_ne_nil (h : Indexes index ws) (hne : index ≠ 0#64) :
    compress ws ≠ [] := by
  intro hnil
  apply hne
  rw [h.eq_zero_iff]
  intro j hj
  by_contra hw
  have := rank_lt (by rw [h.len]; exact hj) hw
  rw [hnil] at this
  exact absurd this (by simp)

/-- The index of a word that is stored now. -/
theorem set_or (h : Indexes index ws) (hj : j < 64) {v : U64} (hv : v ≠ 0#64) :
    Indexes (index ||| oneBit j) (ws.set j v) := by
  refine ⟨by rw [List.length_set, h.len], ?_⟩
  intro k hk
  rw [BitVec.getLsbD_or, getLsbD_oneBit hk, getD_set ws (by rw [h.len]; exact hj),
    h.bit k hk]
  by_cases hkj : k = j
  · simp [hkj, hv]
  · simp [hkj]

/-- The index of a word that was stored before. -/
theorem set_same (h : Indexes index ws) (hj : j < 64) {v : U64} (hv : v ≠ 0#64)
    (hne : ws.getD j 0 ≠ 0#64) : Indexes index (ws.set j v) := by
  refine ⟨by rw [List.length_set, h.len], ?_⟩
  intro k hk
  rw [getD_set ws (by rw [h.len]; exact hj), h.bit k hk]
  by_cases hkj : k = j
  · subst hkj
    rw [if_pos rfl, bne_iff_ne.2 hv, bne_iff_ne.2 hne]
  · rw [if_neg hkj]

/-- The index of a word that is not stored any more. -/
theorem set_remove (h : Indexes index ws) (hj : j < 64) :
    Indexes (index &&& ~~~oneBit j) (ws.set j 0#64) := by
  refine ⟨by rw [List.length_set, h.len], ?_⟩
  intro k hk
  rw [BitVec.getLsbD_and, BitVec.getLsbD_not, getLsbD_oneBit hk,
    getD_set ws (by rw [h.len]; exact hj), h.bit k hk]
  by_cases hkj : k = j
  · simp [hkj]
  · simp [hkj, hk]

/-- The population counts of the index before and after a change. -/
theorem countOnes_set (h : Indexes index ws) {index' v : U64} (hj : j < ws.length)
    (h' : Indexes index' (ws.set j v)) :
    countOnes index' + (if ws.getD j 0 = 0#64 then 0 else 1) =
      countOnes index + if v = 0#64 then 0 else 1 := by
  rw [h'.countOnes_eq_length, h.countOnes_eq_length, compress_set_split hj,
    compress_split hj]
  generalize ws.getD j 0 = x
  split <;> split <;> simp <;> omega

end Indexes

/-- The population count of changed words. -/
theorem popcount_set {ws : List U64} {k : Nat} (hk : k < ws.length) (v : U64) :
    popcount (ws.set k v) + countOnes (ws.getD k 0) = popcount ws + countOnes v := by
  induction ws generalizing k with
  | nil => exact absurd hk (Nat.not_lt_zero k)
  | cons w ws ih =>
    cases k with
    | zero =>
      rw [List.set_cons_zero, List.getD_cons_zero]
      simp only [popcount, List.map_cons, List.sum_cons]
      omega
    | succ k =>
      have := ih (k := k) (by simpa using hk)
      rw [List.set_cons_succ, List.getD_cons_succ]
      simp only [popcount, List.map_cons, List.sum_cons] at this ⊢
      omega

/-! ## The highest set bit -/

/-- The index of the highest set bit of a word. -/
def topBit (word : U64) : Nat := 63 - word.clz.toNat

theorem topBit_spec {word : U64} (h : word ≠ 0#64) :
    topBit word < 64 ∧ word.getLsbD (topBit word) = true ∧
      ∀ j, topBit word < j → word.getLsbD j = false := by
  have hlt : word.clz.toNat < 64 := by
    have := BitVec.clz_lt_iff_ne_zero.2 h
    simpa [BitVec.lt_def] using this
  have htop := BitVec.getLsbD_true_clz_of_ne_zero (by decide) h
  have hsmall := BitVec.toNat_lt_two_pow_sub_clz (x := word)
  refine ⟨by unfold topBit; omega, ?_, ?_⟩
  · rw [topBit, show 63 - word.clz.toNat = 64 - 1 - word.clz.toNat by omega]
    exact htop
  · intro j hj
    unfold topBit at hj
    apply Nat.testBit_lt_two_pow
    exact hsmall.trans_le (Nat.pow_le_pow_right (by decide) (by omega))

/-- What a scan downwards from `n` is to find: the last position of `P` below
`n`. -/
def LastBelow (P : Nat → Bool) (n : Nat) : Option Nat → Prop
  | some r => r < n ∧ P r = true ∧ ∀ j, r < j → j < n → P j = false
  | none => ∀ j < n, P j = false

/-- Positions without `P` may be skipped. -/
theorem LastBelow.skip {P : Nat → Bool} {m n : Nat} {r : Option Nat} (hmn : m ≤ n)
    (hP : ∀ j, m ≤ j → j < n → P j = false) (h : LastBelow P m r) :
    LastBelow P n r := by
  cases r with
  | none =>
    intro j hj
    by_cases hjm : j < m
    · exact h j hjm
    · exact hP j (by omega) hj
  | some r =>
    obtain ⟨hr, hPr, hb⟩ := h
    refine ⟨by omega, hPr, ?_⟩
    intro j hrj hjn
    by_cases hjm : j < m
    · exact hb j hrj hjm
    · exact hP j (by omega) hjn

/-- The highest of the index bits below bit `m`: its word is stored, the words
between are not. -/
theorem Indexes.topBit {index x : U64} {ws : List U64} {m : Nat} (h : Indexes index ws)
    (hm : m ≤ 64) (hx : ∀ b < 64, x.getLsbD b = (index.getLsbD b && decide (b < m)))
    (hne : x ≠ 0#64) :
    topBit x < m ∧ ws.getD (topBit x) 0 ≠ 0#64 ∧
      (∀ l, topBit x < l → l < m → ws.getD l 0 = 0#64) ∧
      rank ws m = rank ws (topBit x) + 1 := by
  obtain ⟨hlt, hbit, habove⟩ := topBit_spec hne
  generalize Compressed.topBit x = j at hlt hbit habove ⊢
  rw [hx j hlt, Bool.and_eq_true, decide_eq_true_eq, h.bit j hlt, bne_iff_ne] at hbit
  have hzero : ∀ l, j < l → l < m → ws.getD l 0 = 0#64 := by
    intro l hl hlm
    have := habove l hl
    rw [hx l (by omega), decide_eq_true hlm, Bool.and_true, h.bit l (by omega)] at this
    simpa using this
  refine ⟨hbit.2, hbit.1, hzero, ?_⟩
  rw [rank_eq_of_zero (i := j + 1) (by omega) (by rw [h.len]; exact hm) hzero,
    rank_succ (by rw [h.len]; exact hlt), if_neg hbit.1]

end Compressed
