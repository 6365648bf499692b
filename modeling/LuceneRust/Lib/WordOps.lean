import Mathlib.Data.List.Sort
import LuceneRust.Lib.WordTape

/-!
# Operations on a tape of words, bit by bit

The word-level operations of a bit set, read on the tape `lsbAt`: the least
significant bit of each word first.

* `lsbAt_modify` is the change of one word, and `lsbAt_zipPrefix` the
  combination of two word lists.
* `getLsbD_fromBit`, `getLsbD_upTo` and `getLsbD_oneBit` say what the masks
  of a bit position are.
* `nextSetFrom` is the scan for a set bit, `FirstAt` what it finds.
* `popcount_eq` counts the set bits of the tape.
-/

namespace WordTape

open RustSem

/-- A word operation that works on each bit by itself. -/
def Bitwise (f : U64 → U64 → U64) (φ : Bool → Bool → Bool) : Prop :=
  ∀ a b : U64, ∀ k < 64, (f a b).getLsbD k = φ (a.getLsbD k) (b.getLsbD k)

theorem bitwise_or : Bitwise (· ||| ·) (· || ·) :=
  fun _ _ _ _ => BitVec.getLsbD_or

theorem bitwise_and : Bitwise (· &&& ·) (· && ·) :=
  fun _ _ _ _ => BitVec.getLsbD_and

theorem bitwise_xor : Bitwise (· ^^^ ·) (fun a b => a ^^ b) :=
  fun _ _ _ _ => BitVec.getLsbD_xor

theorem bitwise_andNot : Bitwise (fun a b => a &&& ~~~b) (fun a b => a && !b) := by
  intro a b k hk
  rw [BitVec.getLsbD_and, BitVec.getLsbD_not]
  simp [hk]

/-! ## Changing words -/

theorem lsbAt_of_ge {w : List U64} {p : Nat} (h : 64 * w.length ≤ p) :
    lsbAt w p = false := by
  rw [lsbAt, List.getD_eq_getElem?_getD, List.getElem?_eq_none (by omega)]
  simp

/-- Two tapes of one length with the same bits are the same words. -/
theorem eq_of_lsbAt {ws vs : List U64} (hlen : ws.length = vs.length)
    (h : ∀ p, lsbAt ws p = lsbAt vs p) : ws = vs := by
  apply List.ext_getElem hlen
  intro i hi hi'
  apply BitVec.eq_of_getLsbD_eq
  intro k hk
  have hbit := h (64 * i + k)
  rw [lsbAt_word ws i hk, lsbAt_word vs i hk] at hbit
  simpa [hi, hi'] using hbit

/-- The change of one word. -/
theorem lsbAt_modify {ws : List U64} {i : Nat} (hi : i < ws.length)
    (f : U64 → U64) (p : Nat) :
    lsbAt (ws.modify i f) p =
      if p / 64 = i then (f (ws.getD i 0)).getLsbD (p % 64) else lsbAt ws p := by
  have hset : ws.modify i f = ws.set i (f (ws.getD i 0)) := by
    rw [List.modify_eq_set_getElem?, List.getElem?_eq_getElem hi]
    simp [hi]
  rw [hset, lsbAt_set ws p hi]

/-- The change of one word by a mask. -/
theorem lsbAt_modify_mask {ws : List U64} {i : Nat} (hi : i < ws.length)
    {f : U64 → U64 → U64} {φ : Bool → Bool → Bool} (hf : Bitwise f φ)
    (hφ : ∀ x, φ x false = x) (m : U64) (p : Nat) :
    lsbAt (ws.modify i fun w => f w m) p =
      φ (lsbAt ws p) (decide (p / 64 = i) && m.getLsbD (p % 64)) := by
  have hp : p % 64 < 64 := Nat.mod_lt p (by decide)
  rw [lsbAt_modify hi]
  split
  · rename_i h
    subst h
    rw [hf _ _ _ hp]
    simp [lsbAt]
  · rename_i h
    simp [h, hφ]

/-- `f` on the words that both lists have, the others of the first list as
they were. -/
def zipPrefix (f : U64 → U64 → U64) : List U64 → List U64 → List U64
  | [], _ => []
  | a :: as, [] => a :: as
  | a :: as, b :: bs => f a b :: zipPrefix f as bs

@[simp] theorem zipPrefix_length (f : U64 → U64 → U64) (as bs : List U64) :
    (zipPrefix f as bs).length = as.length := by
  induction as generalizing bs with
  | nil => rfl
  | cons a as ih =>
    cases bs with
    | nil => rfl
    | cons b bs => simp [zipPrefix, ih]

theorem zipPrefix_getD (f : U64 → U64 → U64) (as bs : List U64) (i : Nat) :
    (zipPrefix f as bs).getD i 0 =
      if i < as.length ∧ i < bs.length then f (as.getD i 0) (bs.getD i 0)
      else as.getD i 0 := by
  induction as generalizing bs i with
  | nil => simp [zipPrefix]
  | cons a as ih =>
    cases bs with
    | nil => simp [zipPrefix]
    | cons b bs =>
      cases i with
      | zero => simp [zipPrefix]
      | succ i =>
        rw [zipPrefix, List.getD_cons_succ, ih]
        simp

/-- The combination of two tapes. -/
theorem lsbAt_zipPrefix_ite {f : U64 → U64 → U64} {φ : Bool → Bool → Bool}
    (hf : Bitwise f φ) (as bs : List U64) (p : Nat) :
    lsbAt (zipPrefix f as bs) p =
      if p < 64 * as.length ∧ p < 64 * bs.length then φ (lsbAt as p) (lsbAt bs p)
      else lsbAt as p := by
  rw [lsbAt, zipPrefix_getD]
  by_cases h : p < 64 * as.length ∧ p < 64 * bs.length
  · rw [if_pos (by omega), if_pos h, hf _ _ _ (Nat.mod_lt p (by decide))]
    rfl
  · rw [if_neg (by omega), if_neg h]
    rfl

/-- The combination of two tapes, for an operation that a missing word of
the second one does not change. -/
theorem lsbAt_zipPrefix {f : U64 → U64 → U64} {φ : Bool → Bool → Bool}
    (hf : Bitwise f φ) (hφ : ∀ x, φ x false = x) (as bs : List U64) (p : Nat) :
    lsbAt (zipPrefix f as bs) p =
      if p < 64 * as.length then φ (lsbAt as p) (lsbAt bs p) else false := by
  rw [lsbAt_zipPrefix_ite hf]
  by_cases has : p < 64 * as.length
  · rw [if_pos has]
    split
    · rfl
    · rw [lsbAt_of_ge (w := bs) (by omega), hφ]
  · rw [if_neg (by omega), if_neg has, lsbAt_of_ge (by omega)]

/-- The words of a slice changed one by one. -/
theorem lsbAt_mapRange {ws : List U64} {lo hi : Nat} (h : lo ≤ hi)
    (hhi : hi ≤ ws.length) (f : U64 → U64) (p : Nat) :
    lsbAt (ws.take lo ++ (((ws.drop lo).take (hi - lo)).map f ++ ws.drop hi)) p =
      if lo ≤ p / 64 ∧ p / 64 < hi then
        (f (ws.getD (p / 64) 0)).getLsbD (p % 64)
      else lsbAt ws p := by
  have hlo : (ws.take lo).length = lo := List.length_take_of_le (by omega)
  have hmid : (((ws.drop lo).take (hi - lo)).map f).length = hi - lo := by
    rw [List.length_map, List.length_take, List.length_drop]
    omega
  rw [lsbAt, lsbAt, List.getD_eq_getElem?_getD]
  by_cases h1 : p / 64 < lo
  · rw [if_neg (by omega), List.getElem?_append_left (by omega),
      List.getElem?_take_of_lt h1, List.getD_eq_getElem?_getD]
  rw [List.getElem?_append_right (by omega), hlo]
  by_cases h2 : p / 64 < hi
  · rw [if_pos (by omega), List.getElem?_append_left (by omega),
      List.getElem?_map, List.getElem?_take_of_lt (by omega),
      List.getElem?_drop, show lo + (p / 64 - lo) = p / 64 by omega,
      List.getElem?_eq_getElem (by omega)]
    simp [show p / 64 < ws.length by omega]
  · rw [if_neg (by omega), List.getElem?_append_right (by omega), hmid,
      List.getElem?_drop, List.getD_eq_getElem?_getD,
      show hi + (p / 64 - lo - (hi - lo)) = p / 64 by omega]

/-! ## Masks -/

/-- The bit `k` of a word. -/
def oneBit (k : Nat) : U64 := 1#64 <<< k

/-- The bits from `k` on. -/
def fromBit (k : Nat) : U64 := BitVec.allOnes 64 <<< k

theorem getLsbD_oneBit {k j : Nat} (hj : j < 64) :
    (oneBit k).getLsbD j = decide (j = k) := by
  rw [oneBit, BitVec.getLsbD_shiftLeft, BitVec.getLsbD_one]
  rcases Nat.lt_trichotomy j k with h | h | h
  · simp [h, show j ≠ k by omega]
  · simp [h, show k < 64 by omega]
  · simp [show ¬ j < k by omega, show j - k ≠ 0 by omega, show j ≠ k by omega]

/-- The test of one bit. -/
theorem and_oneBit_bne (x : U64) {b : Nat} (hb : b < 64) :
    ((x &&& oneBit b) != 0#64) = x.getLsbD b := by
  rw [Bool.eq_iff_iff, bne_iff_ne, ne_eq, ← not_iff_not, not_not, Bool.not_eq_true]
  constructor
  · intro h0
    have := congrArg (fun y : U64 => y.getLsbD b) h0
    simpa [getLsbD_oneBit hb] using this
  · intro h0
    apply BitVec.eq_of_getLsbD_eq
    intro c hc
    rw [BitVec.getLsbD_and, getLsbD_oneBit hc]
    by_cases hcb : c = b <;> simp [hcb, h0]

theorem getLsbD_fromBit {k j : Nat} (hj : j < 64) :
    (fromBit k).getLsbD j = decide (k ≤ j) := by
  rw [fromBit, BitVec.getLsbD_shiftLeft, BitVec.getLsbD_allOnes]
  by_cases h : j < k
  · simp [h]
  · simp [h, hj, show j - k < 64 by omega, show k ≤ j by omega]

/-- The bits below bit `k`. -/
theorem getLsbD_oneBit_sub {k : Nat} (hk : k < 64) (j : Nat) :
    (oneBit k - 1#64).getLsbD j = decide (j < k) := by
  have hle : 1 ≤ 2 ^ k := Nat.one_le_two_pow
  have hlt : 2 ^ k < 2 ^ 64 := Nat.pow_lt_pow_right (by decide) hk
  have hnat : (oneBit k - 1#64).toNat = 2 ^ k - 1 := by
    rw [oneBit, BitVec.toNat_sub, BitVec.toNat_shiftLeft, Nat.shiftLeft_eq,
      show (1#64).toNat = 1 from rfl, Nat.one_mul, Nat.mod_eq_of_lt hlt]
    omega
  rw [← BitVec.testBit_toNat, hnat, Nat.testBit_two_pow_sub_one]

/-- The low bits, by a shift from above. -/
theorem getLsbD_allOnes_ushiftRight {k j : Nat} :
    (BitVec.allOnes 64 >>> k).getLsbD j = decide (k + j < 64) := by
  rw [BitVec.getLsbD_ushiftRight, BitVec.getLsbD_allOnes]

/-! ## The scan for a set bit -/

/-- What a scan from `i` on is to find: the first position of `P`. -/
def FirstAt (P : Nat → Bool) (i : Nat) : Option Nat → Prop
  | some r => i ≤ r ∧ P r = true ∧ ∀ j, i ≤ j → j < r → P j = false
  | none => ∀ j, i ≤ j → P j = false

/-- There is one answer. -/
theorem FirstAt.unique {P : Nat → Bool} {i : Nat} {r s : Option Nat}
    (hr : FirstAt P i r) (hs : FirstAt P i s) : r = s := by
  cases r with
  | none =>
    cases s with
    | none => rfl
    | some s => exact absurd hs.2.1 (by rw [hr s hs.1]; simp)
  | some r =>
    cases s with
    | none => exact absurd hr.2.1 (by rw [hs r hr.1]; simp)
    | some s =>
      obtain ⟨hir, hPr, hbr⟩ := hr
      obtain ⟨his, hPs, hbs⟩ := hs
      rcases Nat.lt_trichotomy r s with h | h | h
      · simp [hbs r hir h] at hPr
      · rw [h]
      · simp [hbr s his h] at hPs

theorem FirstAt.congr {P Q : Nat → Bool} {i : Nat} {r : Option Nat}
    (h : FirstAt P i r) (hPQ : ∀ j, i ≤ j → P j = Q j) : FirstAt Q i r := by
  cases r with
  | none =>
    intro j hj
    rw [← hPQ j hj]
    exact h j hj
  | some r =>
    obtain ⟨hir, hP, hb⟩ := h
    refine ⟨hir, by rw [← hPQ r hir, hP], ?_⟩
    intro j hj hjr
    rw [← hPQ j hj]
    exact hb j hj hjr

/-- Positions without `P` may be skipped. -/
theorem FirstAt.skip {P : Nat → Bool} {i k : Nat} {r : Option Nat} (hik : i ≤ k)
    (hP : ∀ j, i ≤ j → j < k → P j = false) (h : FirstAt P k r) :
    FirstAt P i r := by
  cases r with
  | none =>
    intro j hj
    by_cases hjk : j < k
    · exact hP j hj hjk
    · exact h j (by omega)
  | some r =>
    obtain ⟨hkr, hr, hb⟩ := h
    refine ⟨by omega, hr, ?_⟩
    intro j hj hjr
    by_cases hjk : j < k
    · exact hP j hj hjk
    · exact hb j (by omega) hjr

/-- The scan that a list search makes. -/
theorem firstAt_find? (P : Nat → Bool) (i n : Nat) (hP : ∀ j, n ≤ j → P j = false) :
    FirstAt P i ((List.range n).find? fun p => decide (i ≤ p) && P p) := by
  cases h : (List.range n).find? fun p => decide (i ≤ p) && P p with
  | none =>
    intro j hj
    rw [List.find?_range_eq_none] at h
    by_cases hjn : j < n
    · simpa [hj] using h j hjn
    · exact hP j (by omega)
  | some r =>
    rw [List.find?_range_eq_some] at h
    obtain ⟨hr, hrn, hb⟩ := h
    simp only [Bool.and_eq_true, decide_eq_true_eq] at hr
    refine ⟨hr.1, hr.2, ?_⟩
    intro j hj hjr
    simpa [hj] using hb j hjr

/-- The scan of the words `rest`, after the word `word` of index `i`. -/
def nextSetFrom (i : Nat) (word : U64) : List U64 → Option Nat
  | [] => if word ≠ 0#64 then some (64 * i + word.ctz.toNat) else none
  | w :: rest =>
    if word ≠ 0#64 then some (64 * i + word.ctz.toNat)
    else nextSetFrom (i + 1) w rest

/-- The first set bit of a word that is not zero. -/
theorem firstAt_ctz {word : U64} (h : word ≠ 0#64) :
    word.ctz.toNat < 64 ∧ FirstAt word.getLsbD 0 (some word.ctz.toNat) := by
  have hlt : word.ctz.toNat < 64 := by
    have := BitVec.ctz_lt_iff_ne_zero.2 h
    simpa [BitVec.lt_def] using this
  refine ⟨hlt, Nat.zero_le _, BitVec.getLsbD_true_ctz_of_ne_zero h, ?_⟩
  intro j _ hj
  exact BitVec.getLsbD_false_of_lt_ctz hj

/-- The lowest set bit of a word, cleared. -/
theorem getLsbD_clearLowest {word : U64} (h : word ≠ 0#64) (j : Nat) :
    (word &&& (word - 1#64)).getLsbD j =
      (word.getLsbD j && decide (word.ctz.toNat < j)) := by
  obtain ⟨hlt, _, hbit, hbelow⟩ := firstAt_ctz h
  generalize word.ctz.toNat = c at hlt hbit hbelow ⊢
  -- the word is `2 ^ c` above some multiple of `2 ^ (c + 1)`
  have hlow : word.toNat % 2 ^ (c + 1) = 2 ^ c := by
    apply Nat.eq_of_testBit_eq
    intro i
    rw [Nat.testBit_mod_two_pow, Nat.testBit_two_pow, BitVec.testBit_toNat]
    rcases Nat.lt_trichotomy i c with hi | hi | hi
    · simp [hbelow i (Nat.zero_le i) hi, show c ≠ i by omega]
    · simp [hi, hbit]
    · simp [show ¬ i < c + 1 by omega, show c ≠ i by omega]
  have hsplit := Nat.div_add_mod word.toNat (2 ^ (c + 1))
  rw [hlow] at hsplit
  have hpos : 1 ≤ 2 ^ c := Nat.one_le_two_pow
  have hstep : 2 ^ (c + 1) = 2 ^ c + 2 ^ c := by rw [Nat.pow_succ, Nat.mul_two]
  have hpred : (word - 1#64).toNat =
      2 ^ (c + 1) * (word.toNat / 2 ^ (c + 1)) + (2 ^ c - 1) := by
    have hle : (1#64).toNat ≤ word.toNat := by
      rw [show (1#64).toNat = 1 from rfl]
      omega
    rw [BitVec.toNat_sub_of_le hle, show (1#64).toNat = 1 from rfl]
    omega
  rw [BitVec.getLsbD_and, ← BitVec.testBit_toNat (word - 1#64), hpred,
    Nat.testBit_two_pow_mul_add _ (by omega)]
  by_cases hj : j < c + 1
  · rw [if_pos hj, Nat.testBit_two_pow_sub_one]
    by_cases hjc : j < c
    · simp [hbelow j (Nat.zero_le j) hjc]
    · simp [hjc, show ¬ c < j by omega]
  · rw [if_neg hj, Nat.testBit_div_two_pow, show j - (c + 1) + (c + 1) = j by omega,
      BitVec.testBit_toNat]
    simp [show c < j by omega]

/-- The first word has a set bit: the first one is the answer. -/
theorem firstAt_word {i : Nat} {word : U64} {P : Nat → Bool} (h : word ≠ 0#64)
    (hword : ∀ k < 64, P (64 * i + k) = word.getLsbD k) :
    FirstAt P (64 * i) (some (64 * i + word.ctz.toNat)) := by
  obtain ⟨hlt, _, hbit, hbelow⟩ := firstAt_ctz h
  refine ⟨by omega, by rw [hword _ hlt, hbit], ?_⟩
  intro j hj hjr
  rw [show j = 64 * i + (j - 64 * i) by omega, hword _ (by omega)]
  exact hbelow _ (Nat.zero_le _) (by omega)

/-- The first word is zero: the search goes on behind it. -/
theorem FirstAt.skipWord {i : Nat} {P : Nat → Bool} {r : Option Nat}
    (hword : ∀ k < 64, P (64 * i + k) = false)
    (h : FirstAt P (64 * (i + 1)) r) : FirstAt P (64 * i) r := by
  refine h.skip (by omega) ?_
  intro j hj hjk
  rw [show j = 64 * i + (j - 64 * i) by omega]
  exact hword _ (by omega)

theorem nextSetFrom_spec (rest : List U64) :
    ∀ (i : Nat) (word : U64) (P : Nat → Bool),
      (∀ k < 64, P (64 * i + k) = word.getLsbD k) →
      (∀ p, 64 * (i + 1) ≤ p → P p = lsbAt rest (p - 64 * (i + 1))) →
      FirstAt P (64 * i) (nextSetFrom i word rest) := by
  induction rest with
  | nil =>
    intro i word P hword hrest
    rw [nextSetFrom]
    split
    · rename_i h
      exact firstAt_word h hword
    · rename_i h
      simp only [ne_eq, not_not] at h
      apply FirstAt.skipWord (fun k hk => by rw [hword k hk, h]; simp)
      intro j hj
      rw [hrest j hj]
      exact lsbAt_of_ge (by simp)
  | cons w rest ih =>
    intro i word P hword hrest
    rw [nextSetFrom]
    split
    · rename_i h
      exact firstAt_word h hword
    · rename_i h
      simp only [ne_eq, not_not] at h
      apply FirstAt.skipWord (fun k hk => by rw [hword k hk, h]; simp)
      apply ih (i + 1) w P
      · intro k hk
        rw [hrest _ (by omega),
          show 64 * (i + 1) + k - 64 * (i + 1) = 64 * 0 + k by omega,
          lsbAt_word _ 0 hk]
        simp
      · intro p hp
        rw [hrest p (by omega), lsbAt, lsbAt,
          show (p - 64 * (i + 1)) / 64 = (p - 64 * (i + 1 + 1)) / 64 + 1 by omega,
          show (p - 64 * (i + 1)) % 64 = (p - 64 * (i + 1 + 1)) % 64 by omega,
          List.getD_cons_succ]

/-! ## Counting -/

/-- The set bits of a word. -/
def countOnes (w : U64) : Nat := w.cpop.toNat

/-- The set bits of some words. -/
def popcount (ws : List U64) : Nat := (ws.map countOnes).sum

theorem countOnes_eq (w : U64) :
    countOnes w = (List.range 64).countP w.getLsbD := by
  have hrec : ∀ n, w.cpopNatRec n 0 = (List.range n).countP w.getLsbD := by
    intro n
    induction n with
    | zero => simp
    | succ n ih =>
      rw [BitVec.cpopNatRec_succ, BitVec.cpopNatRec_add, ih, List.range_succ,
        List.countP_append]
      cases h : w.getLsbD n <;> simp [h]
  rw [countOnes, BitVec.toNat_cpop, hrec]

theorem popcount_eq (ws : List U64) :
    popcount ws = (List.range (64 * ws.length)).countP (lsbAt ws) := by
  induction ws with
  | nil => rfl
  | cons w ws ih =>
    have hsplit : List.range (64 * (w :: ws).length) =
        List.range 64 ++ (List.range (64 * ws.length)).map (64 + ·) := by
      rw [← List.range_add, List.length_cons,
        show 64 * (ws.length + 1) = 64 + 64 * ws.length by omega]
    have hhead : (List.range 64).countP (lsbAt (w :: ws)) =
        (List.range 64).countP w.getLsbD := by
      apply List.countP_congr
      intro k hk
      have hk64 : k < 64 := List.mem_range.1 hk
      rw [show k = 64 * 0 + k by omega, lsbAt_word _ 0 hk64]
      simp
    have htail : ((List.range (64 * ws.length)).map (64 + ·)).countP
        (lsbAt (w :: ws)) = (List.range (64 * ws.length)).countP (lsbAt ws) := by
      rw [List.countP_map]
      apply List.countP_congr
      intro k _
      have := lsbAt_drop (w :: ws) k 1
      rw [List.drop_one, List.tail_cons] at this
      simp [this]
    rw [popcount, List.map_cons, List.sum_cons, ← popcount, ih, hsplit,
      List.countP_append, hhead, htail, countOnes_eq]

/-! ## The set bits of a word -/

/-- The indices of the set bits of a word, in order. -/
def wordBits (word : U64) : List Nat := (List.range 64).filter word.getLsbD

theorem mem_wordBits {word : U64} {k : Nat} : k ∈ wordBits word ↔ word.getLsbD k = true := by
  rw [wordBits, List.mem_filter, List.mem_range, and_iff_right_iff_imp]
  intro h
  by_contra hk
  rw [BitVec.getLsbD_of_ge _ _ (Nat.not_lt.1 hk)] at h
  cases h

theorem wordBits_lt {word : U64} {k : Nat} (h : k ∈ wordBits word) : k < 64 :=
  List.mem_range.1 (List.mem_of_mem_filter h)

theorem wordBits_sorted (word : U64) : (wordBits word).Pairwise (· < ·) :=
  List.pairwise_lt_range.filter _

theorem wordBits_zero : wordBits 0#64 = [] := by
  rw [wordBits, List.filter_eq_nil_iff]
  intro k _
  simp

theorem length_wordBits (word : U64) : (wordBits word).length = countOnes word := by
  rw [wordBits, countOnes_eq, List.countP_eq_length_filter]

/-- The lowest set bit of a word comes first, and clearing it leaves the
others. -/
theorem wordBits_cons {word : U64} (h : word ≠ 0#64) :
    wordBits word = word.ctz.toNat :: wordBits (word &&& (word - 1#64)) := by
  obtain ⟨-, -, hbit, hbelow⟩ := firstAt_ctz h
  refine (wordBits_sorted word).eq_of_mem_iff (List.pairwise_cons.2 ⟨fun k hk => ?_,
    wordBits_sorted _⟩) fun k => ?_
  · rw [mem_wordBits, getLsbD_clearLowest h, Bool.and_eq_true, decide_eq_true_eq] at hk
    exact hk.2
  · rw [List.mem_cons, mem_wordBits, mem_wordBits, getLsbD_clearLowest h, Bool.and_eq_true,
      decide_eq_true_eq]
    constructor
    · intro hk
      rcases Nat.lt_trichotomy k word.ctz.toNat with hlt | heq | hgt
      · rw [hbelow k (Nat.zero_le k) hlt] at hk
        cases hk
      · exact .inl heq
      · exact .inr ⟨hk, hgt⟩
    · rintro (rfl | ⟨hk, -⟩)
      · exact hbit
      · exact hk

/-! ## The scan backwards -/

/-- What a scan backwards from below `i` is to find: the last position of
`P`. -/
def LastAt (P : Nat → Bool) (i : Nat) : Option Nat → Prop
  | some r => r < i ∧ P r = true ∧ ∀ j, r < j → j < i → P j = false
  | none => ∀ j, j < i → P j = false

/-- Positions without `P` may be skipped. -/
theorem LastAt.skip {P : Nat → Bool} {i k : Nat} {r : Option Nat} (hik : i ≤ k)
    (hP : ∀ j, i ≤ j → j < k → P j = false) (h : LastAt P i r) : LastAt P k r := by
  cases r with
  | none =>
    intro j hj
    by_cases hji : j < i
    · exact h j hji
    · exact hP j (by omega) hj
  | some r =>
    obtain ⟨hri, hr, habove⟩ := h
    refine ⟨by omega, hr, fun j hrj hj => ?_⟩
    by_cases hji : j < i
    · exact habove j hrj hji
    · exact hP j (by omega) hj

/-- The last set bit of a word that is not zero. -/
theorem lastAt_clz {word : U64} (h : word ≠ 0#64) :
    word.clz.toNat < 64 ∧ LastAt word.getLsbD 64 (some (63 - word.clz.toNat)) := by
  have hlt : word.clz.toNat < 64 := by
    have := BitVec.clz_lt_iff_ne_zero.2 h
    simpa [BitVec.lt_def] using this
  refine ⟨hlt, by omega, BitVec.getLsbD_true_clz_of_ne_zero (by decide) h, ?_⟩
  intro j hj _
  have htop := @BitVec.toNat_lt_two_pow_sub_clz 64 word
  rw [BitVec.getLsbD]
  exact Nat.testBit_eq_false_of_lt
    (htop.trans_le (Nat.pow_le_pow_right (by decide) (by omega)))

/-- The answer is the last of the positions that are enumerated. -/
theorem LastAt.getLast? {P : Nat → Bool} {i : Nat} {r : Option Nat} (h : LastAt P i r) :
    ((List.range i).filter P).getLast? = r := by
  cases r with
  | none =>
    rw [List.getLast?_eq_none_iff, List.filter_eq_nil_iff]
    intro j hj
    simp [h j (List.mem_range.1 hj)]
  | some r =>
    obtain ⟨hri, hr, habove⟩ := h
    have hsplit : List.range i = List.range r ++ r :: List.range' (r + 1) (i - (r + 1)) := by
      have happend := @List.range'_append_1 0 r (i - (r + 1) + 1)
      rw [Nat.zero_add, List.range'_succ, ← List.range_eq_range', ← List.range_eq_range'] at happend
      rw [happend]
      exact congrArg List.range (by omega)
    have hnone : (List.range' (r + 1) (i - (r + 1))).filter P = [] := by
      rw [List.filter_eq_nil_iff]
      intro j hj
      rw [List.mem_range'_1] at hj
      simp [habove j (by omega) (by omega)]
    rw [hsplit, List.filter_append, List.filter_cons_of_pos hr, hnone, List.getLast?_append]
    rfl

/-- The answer is the first of the positions that are enumerated. -/
theorem FirstAt.head? {P : Nat → Bool} {i n : Nat} {r : Option Nat} (h : FirstAt P i r) :
    ((List.range' i n).filter P).head? = r.filter (· < i + n) := by
  rw [List.head?_filter]
  cases r with
  | none =>
    rw [Option.filter_none, List.find?_range'_eq_none]
    intro j hj _
    simp [h j hj]
  | some r =>
    obtain ⟨hir, hr, hbelow⟩ := h
    by_cases hin : r < i + n
    · rw [Option.filter_some, if_pos (decide_eq_true hin), List.find?_range'_eq_some]
      refine ⟨hr, List.mem_range'_1.2 ⟨hir, hin⟩, fun j hj hjr => ?_⟩
      simp [hbelow j hj hjr]
    · rw [Option.filter_some, if_neg (by simpa using hin), List.find?_range'_eq_none]
      intro j hj hjn
      simp [hbelow j hj (by omega)]

end WordTape
