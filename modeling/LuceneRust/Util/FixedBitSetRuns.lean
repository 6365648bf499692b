import LuceneRust.Util.FixedBitSetSpec

/-!
# Runs of `FixedBitSet` operations

* `orRange_holds` and `andRange_holds` are the operations on bit ranges of
  two sets, piece by piece: the head of a word, whole words shifted into
  place, and a tail.
* `Reaches s v` says that some run builds the set `s`, and that the same run
  on plain vectors builds `v`.  `Reaches.holds` is the invariant of the runs.
-/

namespace LuceneRust.Util

open RustSem WordTape
open Packed (Call)

namespace FixedBitSet

variable {s t source dest other : FixedBitSet} {v w : List Bool}

/-! ## Bits of a source -/

/-- `bits_at` reads `n` bits. -/
theorem bitsAt_ok {start n : Nat} (hn : 1 ≤ n) (hn' : n ≤ 64)
    (hlen : start + n ≤ s.numBits) :
    ∃ x, s.bitsAt start n = .ok x ∧ ∀ k < 64, x.getLsbD k =
      (decide (k < n) && lsbAt s.words (start + k)) := by
  have hroom := s.room
  have hle := le_bits2words s.numBits
  have hw : start / 64 < s.words.length := by omega
  have hword : ∀ k, start % 64 + k < 64 →
      (s.words[start / 64]).getLsbD (start % 64 + k) =
        lsbAt s.words (start + k) := by
    intro k hk
    rw [lsbAt, show (start + k) / 64 = start / 64 by omega,
      show (start + k) % 64 = start % 64 + k by omega,
      List.getD_eq_getElem?_getD, List.getElem?_eq_getElem hw]
    rfl
  rw [bitsAt, guardOk_pos ⟨hn, hn', hlen⟩, ok_bind]
  dsimp only
  rw [List.getElem?_eq_getElem hw, expect_some, ok_bind]
  have hmask : ∀ x : U64, (∀ k < n, x.getLsbD k = lsbAt s.words (start + k)) →
      ∀ k < 64, (if n < 64 then x &&& (oneBit n - 1#64) else x).getLsbD k =
        (decide (k < n) && lsbAt s.words (start + k)) := by
    intro x hx k hk
    split
    · rename_i hn64
      rw [BitVec.getLsbD_and, getLsbD_oneBit_sub hn64]
      by_cases hkn : k < n
      · simp [hkn, hx k hkn]
      · simp [hkn]
    · have hkn : k < n := by omega
      simp [hkn, hx k hkn]
  by_cases hlong : 64 < start % 64 + n
  · have hw' : start / 64 + 1 < s.words.length := by omega
    rw [if_pos hlong, List.getElem?_eq_getElem hw', expect_some,
      ok_bind, ok_bind]
    refine ⟨_, rfl, hmask _ ?_⟩
    intro k hk
    rw [BitVec.getLsbD_or, BitVec.getLsbD_ushiftRight, BitVec.getLsbD_shiftLeft]
    by_cases hin : start % 64 + k < 64
    · rw [hword k hin]
      simp [show k < 64 - start % 64 by omega]
    · have hsecond : (s.words[start / 64 + 1]).getLsbD (k - (64 - start % 64)) =
          lsbAt s.words (start + k) := by
        rw [lsbAt, show (start + k) / 64 = start / 64 + 1 by omega,
          show (start + k) % 64 = k - (64 - start % 64) by omega,
          List.getD_eq_getElem?_getD, List.getElem?_eq_getElem hw']
        rfl
      rw [hsecond, BitVec.getLsbD_of_ge _ _ (by omega)]
      simp [show k < 64 by omega, show ¬ k < 64 - start % 64 by omega]
  · rw [if_neg hlong, ok_bind]
    refine ⟨_, rfl, hmask _ ?_⟩
    intro k hk
    rw [BitVec.getLsbD_ushiftRight, hword k (by omega)]

/-- The whole source words, shifted into place. -/
theorem shiftedWords_ok (start full : Nat) (hlen : start + 64 * full ≤ s.numBits) :
    ∃ ws, s.shiftedWords (start / 64) full (start % 64) = .ok ws ∧
      ws.length = full ∧
      ∀ q, q < 64 * full → lsbAt ws q = lsbAt s.words (start + q) := by
  have hroom := s.room
  have hle := le_bits2words s.numBits
  unfold shiftedWords
  by_cases hshift : start % 64 = 0
  · rw [if_pos hshift, slice_eq_some (by omega) (by omega), expect_some]
    refine ⟨_, rfl, ?_, ?_⟩
    · rw [List.length_take, List.length_drop]
      omega
    · intro q hq
      rw [lsbAt, List.getD_eq_getElem?_getD, List.getElem?_take_of_lt (by omega),
        List.getElem?_drop, lsbAt, List.getD_eq_getElem?_getD,
        show (start + q) / 64 = start / 64 + q / 64 by omega,
        show (start + q) % 64 = q % 64 by omega]
  rw [if_neg hshift]
  by_cases hfull : 0 < full
  · rw [if_pos hfull, slice_eq_some (by omega) (by omega), expect_some,
      ok_bind,
      show start / 64 + full + 1 - start / 64 = full + 1 by omega]
    have hwords : ((s.words.drop (start / 64)).take (full + 1)).length = full + 1 := by
      rw [List.length_take, List.length_drop]
      omega
    refine ⟨_, rfl, ?_, ?_⟩
    · rw [List.length_zipWith, List.length_tail, hwords]
      omega
    · intro q hq
      have hget : ∀ i, i < full + 1 →
          ((s.words.drop (start / 64)).take (full + 1))[i]? =
            some (s.words.getD (start / 64 + i) 0) := by
        intro i hi
        rw [List.getElem?_take_of_lt hi, List.getElem?_drop,
          List.getElem?_eq_getElem (by omega), List.getD_eq_getElem?_getD,
          List.getElem?_eq_getElem (by omega)]
        rfl
      rw [lsbAt, List.getD_eq_getElem?_getD, List.getElem?_zipWith,
        List.getElem?_tail, hget _ (by omega), hget _ (by omega)]
      dsimp only
      rw [Option.getD_some, BitVec.getLsbD_or, BitVec.getLsbD_ushiftRight,
        BitVec.getLsbD_shiftLeft, lsbAt]
      by_cases hin : start % 64 + q % 64 < 64
      · rw [show (start + q) / 64 = start / 64 + q / 64 by omega,
          show (start + q) % 64 = start % 64 + q % 64 by omega]
        simp [show q % 64 < 64 - start % 64 by omega]
      · rw [show (start + q) / 64 = start / 64 + (q / 64 + 1) by omega,
          show (start + q) % 64 = q % 64 - (64 - start % 64) by omega,
          BitVec.getLsbD_of_ge _ _ (by omega)]
        simp [show q % 64 < 64 by omega, show ¬ q % 64 < 64 - start % 64 by omega]
  · rw [if_neg hfull]
    exact ⟨[], rfl, by simp; omega, fun q hq => by omega⟩

/-! ## Ranges of two sets -/

/-- The bits `destFrom .. destFrom + n` of `dest`, combined with the bits of
`source` from `sourceFrom` on. -/
def Piece (φ : Bool → Bool → Bool) (source : FixedBitSet) (sourceFrom : Nat)
    (dest : FixedBitSet) (destFrom n : Nat) (t : FixedBitSet) : Prop :=
  t.numBits = dest.numBits ∧ ∀ p, lsbAt t.words p =
    if destFrom ≤ p ∧ p < destFrom + n then
      φ (lsbAt dest.words p) (lsbAt source.words (sourceFrom + (p - destFrom)))
    else lsbAt dest.words p

/-- Two pieces in a row. -/
theorem Piece.append {φ : Bool → Bool → Bool} {sf df m n : Nat} {u : FixedBitSet}
    (h : Piece φ source sf dest df m t)
    (h' : Piece φ source (sf + m) t (df + m) n u) :
    Piece φ source sf dest df (m + n) u := by
  refine ⟨by rw [h'.1, h.1], ?_⟩
  intro p
  rw [h'.2, h.2]
  by_cases h2 : df + m ≤ p ∧ p < df + m + n
  · rw [if_pos h2, if_neg (by omega), if_pos (by omega),
      show sf + m + (p - (df + m)) = sf + (p - df) by omega]
  · rw [if_neg h2]
    congr 1
    simp only [eq_iff_iff]
    omega

/-- A combination of the bits `sh .. sh + n` of a word by `φ`. -/
def HeadSpec (head : U64 → U64 → Nat → Nat → U64) (φ : Bool → Bool → Bool) : Prop :=
  ∀ (d bits : U64) (sh n k : Nat), sh + n ≤ 64 → k < 64 →
    (∀ j, n ≤ j → bits.getLsbD j = false) → (head d bits sh n).getLsbD k =
      if sh ≤ k ∧ k < sh + n then φ (d.getLsbD k) (bits.getLsbD (k - sh))
      else d.getLsbD k

theorem rangeEdge_ok (source dest : FixedBitSet)
    {head : U64 → U64 → Nat → Nat → U64} {φ : Bool → Bool → Bool}
    (hhead : HeadSpec head φ) (sf df : Nat) {sh n : Nat}
    (hn : 1 ≤ n) (hsh : df % 64 = sh) (hfit : sh + n ≤ 64)
    (hs : sf + n ≤ source.numBits) (hd : df + n ≤ dest.numBits) :
    ∃ t, rangeEdge source sf dest df sh n head = .ok t ∧
      Piece φ source sf dest df n t := by
  obtain ⟨x, hx, hbits⟩ := bitsAt_ok hn (by omega) hs
  have hroom := dest.room
  have hle := le_bits2words dest.numBits
  have hw : df / 64 < dest.words.length := by omega
  obtain ⟨t, ht, hnum, hwords⟩ := modifyWord_ok hw fun d => head d x sh n
  have hzero : ∀ j, n ≤ j → x.getLsbD j = false := by
    intro j hj
    by_cases hj64 : j < 64
    · rw [hbits j hj64]
      simp [show ¬ j < n by omega]
    · exact BitVec.getLsbD_of_ge x j (by omega)
  refine ⟨t, by rw [rangeEdge, hx, ok_bind, ht], hnum, ?_⟩
  intro p
  rw [hwords, lsbAt_modify hw]
  by_cases hp : p / 64 = df / 64
  · have hdest : (dest.words.getD (df / 64) 0).getLsbD (p % 64) =
        lsbAt dest.words p := by
      rw [lsbAt, hp]
    rw [if_pos hp, hhead _ _ _ _ _ hfit (Nat.mod_lt p (by decide)) hzero, hdest]
    by_cases hin : df ≤ p ∧ p < df + n
    · rw [if_pos (by omega), if_pos hin, hbits _ (by omega),
        show p % 64 - sh = p - df by omega]
      simp [show p - df < n by omega]
    · rw [if_neg (by omega), if_neg hin]
  · rw [if_neg hp, if_neg (by omega)]

theorem rangeAligned_ok (source dest : FixedBitSet)
    {head : U64 → U64 → Nat → Nat → U64} {word : U64 → U64 → U64}
    {φ : Bool → Bool → Bool} (hhead : HeadSpec head φ) (hword : Bitwise word φ)
    (sf df : Nat) {n : Nat}
    (hal : df % 64 = 0) (hs : sf + n ≤ source.numBits)
    (hd : df + n ≤ dest.numBits) :
    ∃ t, rangeAligned source sf dest df n head word = .ok t ∧
      Piece φ source sf dest df n t := by
  have hroom := dest.room
  have hle := le_bits2words dest.numBits
  obtain ⟨ws, hws, hwslen, hwsbit⟩ := shiftedWords_ok (s := source)
    sf (n / 64) (by omega)
  obtain ⟨t, ht, hnum, _, hbit⟩ := mergeWords_ok (s := dest) (df / 64) hword
    ws (by omega)
  have hpiece : Piece φ source sf dest df (64 * (n / 64)) t := by
    refine ⟨hnum, ?_⟩
    intro p
    rw [hbit, hwslen]
    by_cases hin : df ≤ p ∧ p < df + 64 * (n / 64)
    · rw [if_pos (by omega), if_pos hin, hwsbit _ (by omega),
        show p - 64 * (df / 64) = p - df by omega]
    · rw [if_neg (by omega), if_neg hin]
  rw [rangeAligned, hws, ok_bind, ht, ok_bind]
  by_cases hrest : 0 < n - 64 * (n / 64)
  · rw [if_pos hrest]
    obtain ⟨u, hu, hpiece'⟩ := rangeEdge_ok source t hhead
      (sf + 64 * (n / 64)) (df + 64 * (n / 64))
      (n := n - 64 * (n / 64)) hrest (show _ = 0 by omega) (by omega) (by omega)
      (by rw [hnum]; omega)
    refine ⟨u, hu, ?_⟩
    have happ := hpiece.append hpiece'
    rwa [show 64 * (n / 64) + (n - 64 * (n / 64)) = n by omega] at happ
  · rw [if_neg hrest]
    refine ⟨t, rfl, ?_⟩
    rwa [show 64 * (n / 64) = n by omega] at hpiece

/-- A range operation on two sets changes the range, bit by bit. -/
theorem rangeOp_ok {head : U64 → U64 → Nat → Nat → U64}
    {word : U64 → U64 → U64} {φ : Bool → Bool → Bool}
    (hhead : HeadSpec head φ) (hword : Bitwise word φ) {sf df n : Nat}
    (hs : sf + n ≤ source.numBits) (hd : df + n ≤ dest.numBits) :
    ∃ t, rangeOp source sf dest df n head word = .ok t ∧
      Piece φ source sf dest df n t := by
  rw [rangeOp, guardOk_pos ⟨hs, hd⟩, ok_bind]
  by_cases hzero : n = 0
  · rw [if_pos hzero]
    refine ⟨dest, rfl, rfl, ?_⟩
    intro p
    rw [if_neg (by omega)]
  rw [if_neg hzero]
  by_cases hal : df % 64 = 0
  · rw [if_neg (not_not.2 hal)]
    exact rangeAligned_ok source dest hhead hword sf df hal hs hd
  rw [if_pos hal]
  dsimp only
  obtain ⟨t, ht, hpiece⟩ := rangeEdge_ok source dest hhead
    sf df (n := min (64 - df % 64) n) (by omega) rfl (by omega)
    (by omega) (by omega)
  rw [ht, ok_bind]
  by_cases hrest : n - min (64 - df % 64) n = 0
  · rw [if_pos hrest]
    refine ⟨t, rfl, ?_⟩
    rwa [show min (64 - df % 64) n = n by omega] at hpiece
  · rw [if_neg hrest]
    obtain ⟨u, hu, hpiece'⟩ := rangeAligned_ok source t
      hhead hword (sf + min (64 - df % 64) n)
      (df + min (64 - df % 64) n) (n := n - min (64 - df % 64) n)
      (by omega) (by omega) (by rw [hpiece.1]; omega)
    refine ⟨u, hu, ?_⟩
    have happ := hpiece.append hpiece'
    rwa [show min (64 - df % 64) n + (n - min (64 - df % 64) n) = n by omega] at happ

theorem headSpec_or : HeadSpec (fun d bits sh _ => d ||| bits <<< sh) (· || ·) := by
  intro d bits sh n k hfit hk hbits
  rw [BitVec.getLsbD_or, BitVec.getLsbD_shiftLeft]
  by_cases hlo : k < sh
  · rw [if_neg (by omega)]
    simp [hlo]
  · by_cases hin : k < sh + n
    · rw [if_pos (by omega)]
      simp [hk, hlo]
    · rw [if_neg (by omega), hbits (k - sh) (by omega)]
      simp

theorem span_getLsbD {n k : Nat} (hn : n ≤ 64) (hk : k < 64) :
    (span n).getLsbD k = decide (k < n) := by
  rw [span]
  split
  · rw [BitVec.getLsbD_allOnes]
    simp [hk, show k < n by omega]
  · exact getLsbD_oneBit_sub (by omega) k

theorem headSpec_and : HeadSpec
    (fun d bits sh n => d &&& ((bits <<< sh) ||| ~~~(span n <<< sh))) (· && ·) := by
  intro d bits sh n k hfit hk hbits
  rw [BitVec.getLsbD_and, BitVec.getLsbD_or, BitVec.getLsbD_not,
    BitVec.getLsbD_shiftLeft, BitVec.getLsbD_shiftLeft,
    span_getLsbD (by omega) (by omega)]
  by_cases hlo : k < sh
  · rw [if_neg (by omega)]
    simp [hlo, hk]
  · by_cases hin : k < sh + n
    · rw [if_pos (by omega)]
      simp [hk, hlo, show k - sh < n by omega]
    · rw [if_neg (by omega)]
      simp [hk, hlo, show ¬ k - sh < n by omega]

theorem Piece.holds {φ : Bool → Bool → Bool} {sf df n : Nat}
    (h : Piece φ source sf dest df n t) (hd : dest.Holds v) (hs : source.Shows w)
    (hsn : sf + n ≤ w.length) (hlen : df + n ≤ v.length) :
    t.Holds (v.mapIdx fun p b =>
      if df ≤ p ∧ p < df + n then φ b (w.getD (sf + (p - df)) false) else b) := by
  refine hd.mapIdx h.1 ?_ ?_
  · intro p _
    rw [h.2]
    split
    next hp => rw [hs.bit _ (by omega)]
    next => rfl
  · intro p hp
    rw [h.2, if_neg (by omega), hd.bit_ge hp]

theorem orRange_holds (hs : source.Shows w) (hd : dest.Holds v) (sf df : Nat) {n : Nat}
    (hsn : sf + n ≤ w.length) (hdn : df + n ≤ v.length) :
    ∃ t, orRange source sf dest df n = .ok t ∧ t.Holds (v.mapIdx fun p b =>
      if df ≤ p ∧ p < df + n then b || w.getD (sf + (p - df)) false else b) := by
  obtain ⟨t, ht, hpiece⟩ := rangeOp_ok headSpec_or bitwise_or
    (by rw [hs.len]; exact hsn) (by rw [hd.len]; exact hdn)
  exact ⟨t, ht, hpiece.holds hd hs hsn hdn⟩

theorem andRange_holds (hs : source.Shows w) (hd : dest.Holds v) (sf df : Nat) {n : Nat}
    (hsn : sf + n ≤ w.length) (hdn : df + n ≤ v.length) :
    ∃ t, andRange source sf dest df n = .ok t ∧ t.Holds (v.mapIdx fun p b =>
      if df ≤ p ∧ p < df + n then b && w.getD (sf + (p - df)) false else b) := by
  obtain ⟨t, ht, hpiece⟩ := rangeOp_ok headSpec_and bitwise_and
    (by rw [hs.len]; exact hsn) (by rw [hd.len]; exact hdn)
  exact ⟨t, ht, hpiece.holds hd hs hsn hdn⟩

/-! ## Scanning, counting and comparing -/

/-- The first set bit of a plain vector at or after `i`. -/
def plainNextSetBit (v : List Bool) (i : Nat) : Option Nat :=
  (List.range v.length).find? fun p => decide (i ≤ p) && v.getD p false

theorem getD_of_ge {v : List Bool} {p : Nat} (hp : v.length ≤ p) :
    v.getD p false = false := by
  rw [List.getD_eq_getElem?_getD, List.getElem?_eq_none hp]
  rfl

theorem plainNextSetBit_firstAt (v : List Bool) (i : Nat) :
    FirstAt (fun p => v.getD p false) i (plainNextSetBit v i) :=
  firstAt_find? _ i v.length fun _ hj => getD_of_ge hj

/-- A scan of the words from the one of `start` on. -/
theorem nextSetBitInWords_firstAt (words : List U64) (start : Nat) :
    FirstAt (lsbAt words) start (nextSetBitInWords words start) := by
  rw [nextSetBitInWords]
  cases hword : words[start / 64]? with
  | none =>
    intro p hp
    have hlen := List.getElem?_eq_none_iff.1 hword
    exact lsbAt_of_ge (by omega)
  | some word =>
    rw [Option.bind_some]
    have hscan := nextSetFrom_spec (words.drop (start / 64 + 1)) (start / 64)
      (word &&& fromBit (start % 64)) (fun p => decide (start ≤ p) && lsbAt words p)
      (by
        intro k hk
        rw [BitVec.getLsbD_and, getLsbD_fromBit hk, lsbAt_word _ _ hk,
          List.getD_eq_getElem?_getD, hword, Option.getD_some, Bool.and_comm]
        congr 2
        simp only [eq_iff_iff]
        omega)
      (by
        intro p hp
        rw [lsbAt_drop, show 64 * (start / 64 + 1) + (p - 64 * (start / 64 + 1)) = p by omega]
        simp [show start ≤ p by omega])
    -- the scan starts at the word of `start`, whose lower bits are masked off
    generalize nextSetFrom (start / 64) (word &&& fromBit (start % 64))
      (words.drop (start / 64 + 1)) = r at hscan
    cases r with
    | none =>
      intro j hj
      simpa [hj] using hscan j (by omega)
    | some r =>
      obtain ⟨-, hbit, hbelow⟩ := hscan
      rw [Bool.and_eq_true, decide_eq_true_eq] at hbit
      refine ⟨hbit.1, hbit.2, fun j hj hjr => ?_⟩
      simpa [hj] using hbelow j (by omega) hjr

theorem nextSetBit_eq (s : FixedBitSet) (i : Nat) :
    s.nextSetBit i = .ok (if s.numBits ≤ i then none else nextSetBitInWords s.words i) := by
  rw [nextSetBit, nextSetBitInWords]
  split
  · rfl
  · have hw : i / 64 < s.words.length := by
      rw [s.room]
      exact lt_bits2words (by omega)
    rw [List.getElem?_eq_getElem hw, expect_some, ok_bind, Option.bind_some]

theorem nextSetBit_holds (h : s.Holds v) (i : Nat) :
    s.nextSetBit i = .ok (plainNextSetBit v i) := by
  have hspec := plainNextSetBit_firstAt v i
  rw [nextSetBit_eq, h.len]
  split
  · rename_i hi
    have hnone : FirstAt (fun p => v.getD p false) i none :=
      fun j hj => getD_of_ge (by omega)
    rw [hspec.unique hnone]
  · have hfirst := nextSetBitInWords_firstAt s.words i
    rw [funext h.bit] at hfirst
    rw [hfirst.unique hspec]

theorem cardinality_holds (h : s.Holds v) : s.cardinality = v.count true := by
  have hlen := h.len
  have hroom := s.room
  have hle := le_bits2words s.numBits
  have hsplit : List.range (64 * s.words.length) = List.range v.length ++
      (List.range (64 * s.words.length - v.length)).map (v.length + ·) := by
    rw [← List.range_add]
    congr 1
    omega
  have hin : (List.range v.length).countP (lsbAt s.words) = v.count true := by
    have hv : (List.range v.length).map (lsbAt s.words) = v := by
      apply List.ext_getElem (by simp)
      intro i hi hi'
      rw [List.getElem_map, List.getElem_range, h.bit,
        List.getD_eq_getElem?_getD, List.getElem?_eq_getElem hi']
      rfl
    rw [← hv, List.count_eq_countP, List.countP_map, hv]
    apply List.countP_congr
    intro i _
    simp
  have hout : ((List.range (64 * s.words.length - v.length)).map
      (v.length + ·)).countP (lsbAt s.words) = 0 := by
    rw [List.countP_eq_zero]
    intro p hp
    obtain ⟨q, _, rfl⟩ := List.mem_map.1 hp
    simp [h.bit_ge (p := v.length + q) (by omega)]
  rw [cardinality, popcount_eq, hsplit, List.countP_append, hin, hout, Nat.add_zero]

theorem beq_holds (h : s.Holds v) (ht : t.Holds w) : (s == t) = decide (v = w) := by
  show (s.numBits == t.numBits && s.words == t.words) = decide (v = w)
  by_cases hvw : v = w
  · subst hvw
    have hnum : s.numBits = t.numBits := by rw [h.len, ht.len]
    have hwords : s.words = t.words :=
      eq_of_lsbAt (by rw [s.room, t.room, hnum]) fun p => by rw [h.bit, ht.bit]
    simp [hnum, hwords]
  · simp only [hvw, decide_false, Bool.and_eq_false_iff, beq_eq_false_iff_ne]
    by_contra hne
    simp only [not_or, ne_eq, not_not] at hne
    apply hvw
    apply List.ext_getElem (by rw [← h.len, ← ht.len, hne.1])
    intro i hi hi'
    have hbit : v.getD i false = w.getD i false := by rw [← h.bit, ← ht.bit, hne.2]
    simpa [List.getD_eq_getElem?_getD, hi, hi'] using hbit

/-! ## Masks of another set, and growth -/

/-- `apply_mask` on plain vectors: the bits of `v` with a clear counterpart
in `live` are cleared. -/
def plainApplyMask (live v : List Bool) (offset : Nat) : List Bool :=
  v.mapIdx fun p b => if offset + p < live.length then b && live.getD (offset + p) false else b

/-- `apply_mask` bit by bit, whatever is set behind the end of `dest`. -/
theorem applyMask_ok (hs : s.Shows w) (dest : FixedBitSet) (offset : Nat) :
    ∃ t r, s.applyMask dest offset = .ok (t, r) ∧ t.numBits = dest.numBits ∧
      (∀ p, lsbAt t.words p =
        if p < dest.numBits ∧ offset + p < w.length then
          lsbAt dest.words p && w.getD (offset + p) false
        else lsbAt dest.words p) ∧
      ((∃ e, r = .error e) ↔ w.length - offset < dest.numBits ∧
        ∃ p, w.length - offset ≤ p ∧ lsbAt dest.words p = true) := by
  have hmask : ∃ t, (if offset ≤ s.numBits then
      andRange s offset dest 0 (min dest.numBits (s.numBits - offset))
      else .ok dest) = .ok t ∧ t.numBits = dest.numBits ∧ ∀ p, lsbAt t.words p =
        if p < dest.numBits ∧ offset + p < w.length then
          lsbAt dest.words p && w.getD (offset + p) false
        else lsbAt dest.words p := by
    by_cases hoff : offset ≤ s.numBits
    · rw [if_pos hoff]
      have hfrom : offset + min dest.numBits (s.numBits - offset) ≤ s.numBits := by omega
      have hto : 0 + min dest.numBits (s.numBits - offset) ≤ dest.numBits := by omega
      obtain ⟨t, ht, hnum, hbits⟩ := rangeOp_ok headSpec_and bitwise_and hfrom hto
      refine ⟨t, ht, hnum, ?_⟩
      intro p
      have hlen := hs.len
      rw [hbits]
      by_cases hp : p < dest.numBits ∧ offset + p < w.length
      · rw [if_pos hp, if_pos (by omega), hs.bit _ (by omega), Nat.sub_zero]
      · rw [if_neg hp, if_neg (by omega)]
    · rw [if_neg hoff]
      refine ⟨dest, rfl, rfl, ?_⟩
      intro p
      rw [if_neg (by have := hs.len; omega)]
  obtain ⟨t, ht, hnum, hbits⟩ := hmask
  -- past the other set the bits are as they were
  have hbeyond (p : Nat) (hp : w.length - offset ≤ p) : lsbAt t.words p = lsbAt dest.words p := by
    rw [hbits, if_neg (by omega)]
  rw [applyMask, ht, ok_bind, hnum, hs.len]
  split
  next hlt =>
    have hfirst := nextSetBitInWords_firstAt t.words (w.length - offset)
    rw [Nat.min_eq_right (by omega), nextSetBit_eq, ok_bind, hnum,
      if_neg (show ¬ dest.numBits ≤ w.length - offset by omega)]
    cases hr : nextSetBitInWords t.words (w.length - offset) with
    | none =>
      rw [hr] at hfirst
      refine ⟨t, _, rfl, hnum, hbits, nofun, ?_⟩
      rintro ⟨-, p, hp, hbit⟩
      have hclear : lsbAt t.words p = false := hfirst p hp
      rw [← hbeyond p hp, hclear] at hbit
      cases hbit
    | some r =>
      rw [hr] at hfirst
      refine ⟨t, _, rfl, hnum, hbits, fun _ => ⟨by omega, r, hfirst.1, ?_⟩, fun _ => ⟨_, rfl⟩⟩
      rw [← hbeyond r hfirst.1]
      exact hfirst.2.1
  next hge =>
    refine ⟨t, _, rfl, hnum, hbits, nofun, ?_⟩
    rintro ⟨hlt, -⟩
    omega

theorem applyMask_holds (hs : s.Shows w) (hd : dest.Holds v) (offset : Nat) :
    ∃ t r, s.applyMask dest offset = .ok (t, r) ∧ t.Holds (plainApplyMask w v offset) ∧
      ((∃ e, r = .error e) ↔ ∃ p, w.length - offset ≤ p ∧ v.getD p false = true) := by
  obtain ⟨t, r, ht, hnum, hbits, herr⟩ := applyMask_ok hs dest offset
  refine ⟨t, r, ht, hd.mapIdx hnum ?_ ?_, ?_⟩
  · intro p hp
    rw [hbits, hd.len]
    simp only [hp, true_and]
  · intro p hp
    rw [hbits, if_neg (by rw [hd.len]; omega), hd.bit_ge hp]
  · rw [herr, hd.len]
    simp only [hd.bit]
    constructor
    · exact And.right
    · rintro ⟨p, hp, hbit⟩
      refine ⟨?_, p, hp, hbit⟩
      by_contra hge
      rw [getD_of_ge (by omega)] at hbit
      cases hbit

/-- The length of a grown set. -/
def grownLen (desiredBit : Nat) : Nat :=
  64 * (bits2words desiredBit + 1 + max ((bits2words desiredBit + 1) / 8) 3)

/-- `ensure_capacity` on plain vectors: the bits of `v`, and clear bits. -/
def plainEnsureCapacity (v : List Bool) (desiredBit : Nat) : List Bool :=
  if desiredBit < v.length then v
  else v ++ List.replicate (grownLen desiredBit - v.length) false

theorem getD_append_replicate (v : List Bool) (n p : Nat) :
    (v ++ List.replicate n false).getD p false = v.getD p false := by
  rw [List.getD_eq_getElem?_getD, List.getD_eq_getElem?_getD, List.getElem?_append]
  split
  · rfl
  · rename_i hp
    rw [List.getElem?_replicate, List.getElem?_eq_none (by omega)]
    split <;> rfl

theorem lsbAt_append_zeros (ws : List U64) (n p : Nat) :
    lsbAt (ws ++ List.replicate n 0#64) p = lsbAt ws p := by
  have happ := lsbAt_take_append ws (List.replicate n 0#64) p (Nat.le_refl _)
  rw [List.take_length] at happ
  rw [happ, lsbAt_zero]
  split
  · rfl
  · rw [lsbAt_of_ge (by omega)]

theorem oversizeWords_ok {words grown : List U64} {n : Nat} (hle : words.length ≤ n)
    (h : oversizeWords words n = .ok grown) :
    grown.length = n + 1 + max ((n + 1) / 8) 3 ∧
      ∀ p, lsbAt grown p = lsbAt words p := by
  rw [oversizeWords, if_pos hle] at h
  dsimp only at h
  split at h
  · cases h
    refine ⟨?_, fun p => lsbAt_append_zeros words _ p⟩
    rw [List.length_append, List.length_replicate]
    omega
  · cases h

theorem ensureCapacity_holds (h : s.Holds v) {desiredBit : Nat}
    (hrun : s.ensureCapacity desiredBit = .ok t) :
    t.Holds (plainEnsureCapacity v desiredBit) := by
  rw [ensureCapacity, ensureCapacityInternal, h.len] at hrun
  rw [plainEnsureCapacity]
  split at hrun
  · rename_i hlt
    rw [if_pos hlt]
    cases hrun
    exact h
  · rename_i hge
    rw [if_neg hge]
    obtain ⟨words, hwords, hrun⟩ := Outcome.bind_eq_ok.1 hrun
    have hroom : s.words.length ≤ bits2words desiredBit := by
      rw [s.room, h.len]
      exact bits2words_mono (by omega)
    obtain ⟨hlen, hbit⟩ := oversizeWords_ok hroom hwords
    cases hrun
    refine ⟨?_, ?_⟩
    · have hle := le_bits2words desiredBit
      rw [List.length_append, List.length_replicate, grownLen]
      dsimp only
      omega
    · intro p
      dsimp only
      rw [hbit, h.bit, getD_append_replicate]

theorem ensureCapacityAndClear_holds (h : s.Holds v) {desiredBit : Nat}
    (hrun : s.ensureCapacityAndClear desiredBit = .ok t) :
    t.Holds ((plainEnsureCapacity v desiredBit).mapIdx fun _ _ => false) := by
  rw [ensureCapacityAndClear, ensureCapacityInternal, h.len] at hrun
  rw [plainEnsureCapacity]
  split at hrun
  · rename_i hlt
    rw [if_pos hlt]
    cases hrun
    exact clearAll_holds h
  · rename_i hge
    rw [if_neg hge]
    obtain ⟨words, hwords, hrun⟩ := Outcome.bind_eq_ok.1 hrun
    obtain ⟨hlen, hbit⟩ := oversizeWords_ok (Nat.zero_le _) hwords
    cases hrun
    refine ⟨?_, ?_⟩
    · have hle := le_bits2words desiredBit
      rw [List.length_mapIdx, List.length_append, List.length_replicate, grownLen]
      dsimp only
      omega
    · intro p
      dsimp only
      rw [hbit, lsbAt_of_ge (by simp), getD_mapIdx]
      split <;> rfl

/-! ## Runs -/

/-- A mutating call on one set. -/
inductive Op where
  | set (i : Nat)
  | clear (i : Nat)
  | flip (i : Nat)
  | getAndSet (i : Nat)
  | getAndClear (i : Nat)
  | clearAll
  | flipRange (lo hi : Nat)
  | setRange (lo hi : Nat)
  | clearRange (lo hi : Nat)
  | orWordsAt (wordOffset : Nat) (words : List U64)
  | andNotWordsAt (wordOffset : Nat) (words : List U64)
  | orMask (startBit : Nat) (mask : U64) (maskLen : Nat)
  | ensureCapacity (desiredBit : Nat)
  | ensureCapacityAndClear (desiredBit : Nat)

/-- The set that a call leaves. -/
def Op.run (s : FixedBitSet) : Op → Call FixedBitSet
  | .set i => s.set i
  | .clear i => s.clear i
  | .flip i => s.flip i
  | .getAndSet i => do
    let (t, _) ← s.getAndSet i
    .ok t
  | .getAndClear i => do
    let (t, _) ← s.getAndClear i
    .ok t
  | .clearAll => .ok s.clearAll
  | .flipRange lo hi => s.flipRange lo hi
  | .setRange lo hi => s.setRange lo hi
  | .clearRange lo hi => s.clearRange lo hi
  | .orWordsAt off words => do
    let (t, _) ← s.orWordsAt off words
    .ok t
  | .andNotWordsAt off words => do
    let (t, _) ← s.andNotWordsAt off words
    .ok t
  | .orMask start mask len => s.orMask start mask len
  | .ensureCapacity d => s.ensureCapacity d
  | .ensureCapacityAndClear d => s.ensureCapacityAndClear d

/-- The same call on a plain vector. -/
def Op.plain (v : List Bool) : Op → List Bool
  | .set i => v.modify i fun _ => true
  | .clear i => v.modify i fun _ => false
  | .flip i => v.modify i not
  | .getAndSet i => v.modify i fun _ => true
  | .getAndClear i => v.modify i fun _ => false
  | .clearAll => v.mapIdx fun _ _ => false
  | .flipRange lo hi => v.mapIdx fun p b => if lo ≤ p ∧ p < hi then !b else b
  | .setRange lo hi => v.mapIdx fun p b => if lo ≤ p ∧ p < hi then true else b
  | .clearRange lo hi => v.mapIdx fun p b => if lo ≤ p ∧ p < hi then false else b
  | .orWordsAt off words => v.mapIdx fun p b =>
    b || (decide (64 * off ≤ p) && lsbAt words (p - 64 * off))
  | .andNotWordsAt off words => v.mapIdx fun p b =>
    b && !(decide (64 * off ≤ p) && lsbAt words (p - 64 * off))
  | .orMask start mask len => v.mapIdx fun p b =>
    b || (decide (start ≤ p ∧ p < start + len) && mask.getLsbD (p - start))
  | .ensureCapacity d => plainEnsureCapacity v d
  | .ensureCapacityAndClear d => (plainEnsureCapacity v d).mapIdx fun _ _ => false

/-- The calls that do what their contract says. -/
def Op.Meets (v : List Bool) : Op → Prop
  | .orMask start mask len => MaskFits v start mask len
  | _ => True

/-- A mutating call with a second set. -/
inductive BinOp where
  | or
  | and
  | andNot
  | xor
  | orRange (sourceFrom destFrom length : Nat)
  | andRange (sourceFrom destFrom length : Nat)
  | applyMask (offset : Nat)

/-- The set that a call leaves in the place of `s`. -/
def BinOp.run (s other : FixedBitSet) : BinOp → Call FixedBitSet
  | .or => s.or other
  | .and => .ok (s.and other)
  | .andNot => .ok (s.andNot other)
  | .xor => s.xor other
  | .orRange sf df n => FixedBitSet.orRange other sf s df n
  | .andRange sf df n => FixedBitSet.andRange other sf s df n
  | .applyMask offset => do
    let (t, _) ← other.applyMask s offset
    .ok t

/-- The same call on two plain vectors. -/
def BinOp.plain (v w : List Bool) : BinOp → List Bool
  | .or => v.mapIdx fun p b => b || w.getD p false
  | .and => v.mapIdx fun p b => b && w.getD p false
  | .andNot => v.mapIdx fun p b => b && !w.getD p false
  | .xor => v.mapIdx fun p b => b ^^ w.getD p false
  | .orRange sf df n => v.mapIdx fun p b =>
    if df ≤ p ∧ p < df + n then b || w.getD (sf + (p - df)) false else b
  | .andRange sf df n => v.mapIdx fun p b =>
    if df ≤ p ∧ p < df + n then b && w.getD (sf + (p - df)) false else b
  | .applyMask offset => plainApplyMask w v offset

/-- The calls that do what their contract says. -/
def BinOp.Meets (v w : List Bool) : BinOp → Prop
  | .xor => ∀ p < w.length, v.length ≤ p → w.getD p false = false
  | _ => True

/-- The calls that are in range.  An `or_mask` of no bits may be past the last
word, and one of more than 64 bits may shift by a whole word. -/
def Op.InRange (v : List Bool) : Op → Prop
  | .set i | .clear i | .flip i | .getAndSet i | .getAndClear i => i < v.length
  | .flipRange lo hi | .setRange lo hi | .clearRange lo hi => lo < hi → hi ≤ v.length
  | .orMask start _ len => start + len ≤ v.length ∧ 0 < len ∧ len ≤ 64
  | .ensureCapacity d | .ensureCapacityAndClear d => grownLen d ≤ 8 * maxAlloc
  | .clearAll | .orWordsAt _ _ | .andNotWordsAt _ _ => True

/-- The calls with a second set that are in range. -/
def BinOp.InRange (v w : List Bool) : BinOp → Prop
  | .or => w.length ≤ v.length
  | .xor => bits2words w.length ≤ bits2words v.length
  | .orRange sf df n | .andRange sf df n => sf + n ≤ w.length ∧ df + n ≤ v.length
  | .and | .andNot | .applyMask _ => True

/-- Some run of calls, each of which meets its contract, builds the set `s`,
and the same run on plain vectors builds `v`. -/
inductive Reaches : FixedBitSet → List Bool → Prop where
  | new {s : FixedBitSet} {n : Nat} (h : FixedBitSet.new n = .ok s) :
      Reaches s (List.replicate n false)
  | fromWords {s : FixedBitSet} {words : List U64} {n : Nat}
      (h : FixedBitSet.fromWords words n = .ok s) : Reaches s (plainOfWords words n)
  | copyOf {s : FixedBitSet} {len : Nat} {get : Nat → Bool}
      (h : FixedBitSet.copyOf len get = .ok s) : Reaches s ((List.range len).map get)
  | op {s t : FixedBitSet} {v : List Bool} (h : Reaches s v) (op : Op)
      (hrun : op.run s = .ok t) (hmeets : op.Meets v) : Reaches t (op.plain v)
  | binOp {s t other : FixedBitSet} {v w : List Bool} (h : Reaches s v)
      (ho : Reaches other w) (op : BinOp) (hrun : op.run s other = .ok t)
      (hmeets : op.Meets v w) : Reaches t (op.plain v w)

/-- A call that returned is the call of its specification. -/
theorem holds_of_ok {x : Call FixedBitSet} {u : List Bool} (hrun : x = .ok t)
    (hspec : ∃ t', x = .ok t' ∧ t'.Holds u) : t.Holds u := by
  obtain ⟨t', ht', hold⟩ := hspec
  rw [hrun] at ht'
  cases ht'
  exact hold

theorem holds_of_ok_fst {α : Type} {x : Call (FixedBitSet × α)} {u : List Bool}
    (hrun : (x >>= fun y => .ok y.1) = .ok t)
    (hspec : ∃ t' a, x = .ok (t', a) ∧ t'.Holds u) : t.Holds u := by
  obtain ⟨t', a, ht', hold⟩ := hspec
  rw [ht'] at hrun
  cases hrun
  exact hold

/-- The assertion of a call that returned. -/
theorem assert_of_ok {α : Type} {p : Prop} [Decidable p] {x : Call α} {a : α}
    (h : ((.guardOk p : Call Unit) >>= fun _ => x) = .ok a) : p := by
  obtain ⟨_, hg, _⟩ := Outcome.bind_eq_ok.1 h
  exact guardOk_eq_ok hg

theorem range_of_ok {lo hi : Nat} {both : U64 → U64 → U64 → U64}
    {edge : U64 → U64 → U64} {whole : U64 → U64} (h : s.Holds v)
    (hrun : s.overRange lo hi both edge whole = .ok t) : lo < hi → hi ≤ v.length := by
  intro hlt
  rw [overRange, if_neg (by omega)] at hrun
  rw [← h.len]
  exact assert_of_ok hrun

/-- One call keeps the invariant. -/
theorem Op.run_holds (h : s.Holds v) {op : Op} (hmeets : op.Meets v)
    (hrun : op.run s = .ok t) : t.Holds (op.plain v) := by
  cases op with
  | set i => exact holds_of_ok hrun (set_holds h (h.len ▸ assert_of_ok hrun))
  | clear i => exact holds_of_ok hrun (clear_holds h (h.len ▸ assert_of_ok hrun))
  | flip i => exact holds_of_ok hrun (flip_holds h (h.len ▸ assert_of_ok hrun))
  | getAndSet i =>
    obtain ⟨_, hcall, _⟩ := Outcome.bind_eq_ok.1 hrun
    obtain ⟨t', ht', hold⟩ := getAndSet_holds h (h.len ▸ assert_of_ok hcall)
    exact holds_of_ok_fst hrun ⟨t', _, ht', hold⟩
  | getAndClear i =>
    obtain ⟨_, hcall, _⟩ := Outcome.bind_eq_ok.1 hrun
    obtain ⟨t', ht', hold⟩ := getAndClear_holds h (h.len ▸ assert_of_ok hcall)
    exact holds_of_ok_fst hrun ⟨t', _, ht', hold⟩
  | clearAll => exact holds_of_ok hrun ⟨_, rfl, clearAll_holds h⟩
  | flipRange lo hi =>
    change s.flipRange lo hi = .ok t at hrun
    exact holds_of_ok hrun (flipRange_holds h (range_of_ok h hrun))
  | setRange lo hi =>
    change s.setRange lo hi = .ok t at hrun
    exact holds_of_ok hrun (setRange_holds h (range_of_ok h hrun))
  | clearRange lo hi =>
    change s.clearRange lo hi = .ok t at hrun
    exact holds_of_ok hrun (clearRange_holds h (range_of_ok h hrun))
  | orWordsAt off words =>
    exact holds_of_ok_fst hrun (mergeWordsAt_holds h off words bitwise_or (by simp))
  | andNotWordsAt off words =>
    exact holds_of_ok_fst hrun
      (mergeWordsAt_holds h off words bitwise_andNot (by simp))
  | orMask start mask len => exact (orMask_holds_iff h hrun).2 hmeets
  | ensureCapacity d => exact ensureCapacity_holds h hrun
  | ensureCapacityAndClear d => exact ensureCapacityAndClear_holds h hrun

/-- One call with a second set keeps the invariant. -/
theorem BinOp.run_holds (h : s.Holds v) (ho : other.Holds w) {op : BinOp}
    (hmeets : op.Meets v w) (hrun : op.run s other = .ok t) :
    t.Holds (op.plain v w) := by
  cases op with
  | or =>
    have hlen := assert_of_ok hrun
    rw [h.len, ho.len] at hlen
    exact holds_of_ok hrun (or_holds h ho hlen)
  | and => exact holds_of_ok hrun ⟨_, rfl, and_holds h ho⟩
  | andNot => exact holds_of_ok hrun ⟨_, rfl, andNot_holds h ho⟩
  | xor =>
    obtain ⟨t', ht', hiff⟩ := xor_holds_iff h ho (assert_of_ok hrun)
    refine holds_of_ok hrun ⟨t', ht', hiff.2 fun p hp => ?_⟩
    by_cases hpw : p < w.length
    · exact hmeets p hpw hp
    · exact getD_of_ge (by omega)
  | orRange sf df n =>
    obtain ⟨hs, hd⟩ := assert_of_ok hrun
    rw [ho.len] at hs
    rw [h.len] at hd
    exact holds_of_ok hrun (orRange_holds ho.shows h sf df hs hd)
  | andRange sf df n =>
    obtain ⟨hs, hd⟩ := assert_of_ok hrun
    rw [ho.len] at hs
    rw [h.len] at hd
    exact holds_of_ok hrun (andRange_holds ho.shows h sf df hs hd)
  | applyMask offset =>
    obtain ⟨u, r, hu, hold, -⟩ := applyMask_holds ho.shows h offset
    exact holds_of_ok_fst hrun ⟨u, r, hu, hold⟩

theorem Reaches.holds (h : Reaches s v) : s.Holds v := by
  induction h with
  | new h => exact new_holds h
  | fromWords h => exact fromWords_holds h
  | copyOf h => exact copyOf_holds h
  | op _ op hrun hmeets ih => exact op.run_holds ih hmeets hrun
  | binOp _ _ op hrun hmeets ih iho => exact op.run_holds ih iho hmeets hrun

theorem orMask_returns (h : s.Holds v) {start len : Nat} (mask : U64)
    (hlen : start + len ≤ v.length) (hpos : 0 < len) (h64 : len ≤ 64) :
    ∃ t, s.orMask start mask len = .ok t := by
  obtain ⟨t, ht, hnum, hwords⟩ := modifyWord_ok (h.word_lt (i := start) (by omega))
    (· ||| mask <<< (start % 64))
  rw [orMask, guardOk_pos (by rw [h.len]; exact hlen), ok_bind]
  dsimp only
  rw [ht, ok_bind]
  split
  · have hlast := h.word_lt (i := start + len - 1) (by omega)
    obtain ⟨u, hu, _⟩ := modifyWord_ok (s := t) (i := start / 64 + 1)
      (by rw [hwords, List.length_modify]; omega) (· ||| mask >>> (64 - start % 64))
    rw [guardOk_pos (by omega), ok_bind]
    exact ⟨u, hu⟩
  · exact ⟨t, rfl⟩

theorem oversizeWords_returns (words : List U64) {d : Nat}
    (h : grownLen d ≤ 8 * maxAlloc) :
    ∃ grown, oversizeWords words (bits2words d) = .ok grown := by
  rw [grownLen] at h
  rw [oversizeWords]
  split
  · dsimp only
    rw [if_pos (by omega)]
    exact ⟨_, rfl⟩
  · exact ⟨_, rfl⟩

theorem ensureCapacityInternal_returns (s : FixedBitSet) {d : Nat} (preserve : Bool)
    (h : grownLen d ≤ 8 * maxAlloc) :
    ∃ t, s.ensureCapacityInternal d preserve = .ok t := by
  rw [ensureCapacityInternal]
  split
  · exact ⟨_, rfl⟩
  · obtain ⟨grown, hgrown⟩ := oversizeWords_returns
      (if preserve then s.words else []) h
    rw [hgrown]
    exact ⟨_, rfl⟩

/-- A call in range returns. -/
theorem Op.returns (h : s.Holds v) {op : Op} (hin : op.InRange v) :
    ∃ t, op.run s = .ok t := by
  cases op with
  | set i => exact (set_holds h hin).imp fun _ ht => ht.1
  | clear i => exact (clear_holds h hin).imp fun _ ht => ht.1
  | flip i => exact (flip_holds h hin).imp fun _ ht => ht.1
  | getAndSet i =>
    obtain ⟨t, ht, _⟩ := getAndSet_holds h hin
    exact ⟨t, by rw [run, ht]; rfl⟩
  | getAndClear i =>
    obtain ⟨t, ht, _⟩ := getAndClear_holds h hin
    exact ⟨t, by rw [run, ht]; rfl⟩
  | clearAll => exact ⟨_, rfl⟩
  | flipRange lo hi => exact (flipRange_holds h hin).imp fun _ ht => ht.1
  | setRange lo hi => exact (setRange_holds h hin).imp fun _ ht => ht.1
  | clearRange lo hi => exact (clearRange_holds h hin).imp fun _ ht => ht.1
  | orWordsAt off words =>
    obtain ⟨t, b, ht, _⟩ := mergeWordsAt_holds h off words bitwise_or (by simp)
    exact ⟨t, by rw [run, FixedBitSet.orWordsAt, ht]; rfl⟩
  | andNotWordsAt off words =>
    obtain ⟨t, b, ht, _⟩ := mergeWordsAt_holds h off words bitwise_andNot (by simp)
    exact ⟨t, by rw [run, FixedBitSet.andNotWordsAt, ht]; rfl⟩
  | orMask start mask len => exact orMask_returns h mask hin.1 hin.2.1 hin.2.2
  | ensureCapacity d => exact ensureCapacityInternal_returns s true hin
  | ensureCapacityAndClear d => exact ensureCapacityInternal_returns s false hin

theorem BinOp.returns (h : s.Holds v) (ho : other.Holds w) {op : BinOp}
    (hin : op.InRange v w) : ∃ t, op.run s other = .ok t := by
  cases op with
  | or => exact (or_holds h ho hin).imp fun _ ht => ht.1
  | and => exact ⟨_, rfl⟩
  | andNot => exact ⟨_, rfl⟩
  | xor =>
    have hlen : other.words.length ≤ s.words.length := by
      rw [s.room, other.room, h.len, ho.len]
      exact hin
    exact (xor_holds_iff h ho hlen).imp fun _ ht => ht.1
  | orRange sf df n => exact (orRange_holds ho.shows h sf df hin.1 hin.2).imp fun _ ht => ht.1
  | andRange sf df n => exact (andRange_holds ho.shows h sf df hin.1 hin.2).imp fun _ ht => ht.1
  | applyMask offset =>
    obtain ⟨t, r, ht, _⟩ := applyMask_holds ho.shows h offset
    exact ⟨t, by rw [run, ht]; rfl⟩

/-- A run of calls that meet their contracts leaves the ghost bits clear, and
the bits of the set are those of the plain vector.  So counting, scanning and
comparing are exact, and the calls in range return. -/
theorem reaches_exact (h : Reaches s v) :
    s.numBits = v.length ∧ ghostBitsClear s.words s.numBits = true ∧
      (∀ i < v.length, s.get i = .ok (v.getD i false)) ∧
      s.cardinality = v.count true ∧
      (∀ i, s.nextSetBit i = .ok (plainNextSetBit v i)) ∧
      (∀ t w, Reaches t w → (s == t) = decide (v = w)) ∧
      (∀ op : Op, op.InRange v → ∃ t, op.run s = .ok t) ∧
      ∀ (op : BinOp) (t : FixedBitSet) (w : List Bool), Reaches t w →
        op.InRange v w → ∃ u, op.run s t = .ok u := by
  have hold := h.holds
  refine ⟨hold.len, ?_, fun i hi => get_holds hold hi, cardinality_holds hold,
    nextSetBit_holds hold, fun t w ht => beq_holds hold ht.holds,
    fun op hin => op.returns hold hin, fun op t w ht hin => op.returns hold ht.holds hin⟩
  rw [ghostBitsClear_iff s.room, hold.len]
  intro p hp
  exact hold.bit_ge hp

/-- A run with a mask over two words and an operand of another length. -/
theorem reaches_exact_mask : ∃ s t u other : FixedBitSet,
    FixedBitSet.new 70 = .ok s ∧ s.orMask 62 7#64 3 = .ok t ∧
      FixedBitSet.new 71 = .ok other ∧ t.xor other = .ok u ∧ u.cardinality = 3 ∧
      ghostBitsClear u.words u.numBits = true := by
  refine ⟨_, _, _, _, rfl, rfl, rfl, rfl, ?_⟩
  have hmask : (Op.orMask 62 7#64 3).Meets (List.replicate 70 false) :=
    show MaskFits (List.replicate 70 false) 62 7#64 3 by decide
  have hxor : BinOp.xor.Meets
      ((Op.orMask 62 7#64 3).plain (List.replicate 70 false))
      (List.replicate 71 false) := by
    intro p _ _
    exact getD_replicate_false 71 p
  have hexact := reaches_exact
    (.binOp (.op (.new (n := 70) rfl) _ rfl hmask) (.new (n := 71) rfl) .xor rfl hxor)
  exact ⟨hexact.2.2.2.1.trans (by decide), hexact.2.1⟩

/-- `xor` with an operand that is longer inside the last word, and `or_mask`
with mask bits past its length, set ghost bits. -/
theorem xor_orMask_ghost :
    (∃ s other t : FixedBitSet, ∃ w, Reaches s (List.replicate 10 false) ∧
      Reaches other w ∧ BinOp.xor.run s other = .ok t ∧
      (BinOp.xor.plain (List.replicate 10 false) w).count true = 0 ∧
      ghostBitsClear t.words t.numBits = false ∧ t.cardinality = 1) ∧
    ∃ s t : FixedBitSet, Reaches s (List.replicate 10 false) ∧
      s.orMask 0 31#64 2 = .ok t ∧
      ((Op.orMask 0 31#64 2).plain (List.replicate 10 false)).count true = 2 ∧
      t.cardinality = 5 := by
  refine ⟨⟨_, _, _, _, .new rfl, .op (.new (n := 20) rfl) (.set 15) rfl trivial, rfl,
    ?_⟩, _, _, .new rfl, rfl, ?_⟩
  · exact ⟨by decide, by decide, by decide⟩
  · exact ⟨by decide, by decide⟩

end FixedBitSet

end LuceneRust.Util
