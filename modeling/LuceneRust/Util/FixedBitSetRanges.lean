import LuceneRust.Util.FixedBitSetRuns

/-!
# The range kernels of `FixedBitSet`

`members v lo hi` enumerates the set bits of a plain vector in a range, one
index at a time.  The kernels that work a word at a time find the same bits:

* `prevSetBit_eq`, `nextSetBitInRange_eq` and `nextClearBitInRange_eq`
  for the scans,
* `cardinalityRange_eq`, `intoArray_eq` and `forEachInRange_eq` for
  the walks, by `members_eq`: the members are the bits of the words in range.
* `ranges_exact` puts the kernels together.
-/

namespace LuceneRust.Util

open RustSem WordTape
open Packed (Call)

namespace FixedBitSet

variable {s t source dest : FixedBitSet} {v w : List Bool} {lo hi : Nat}

/-- The set bits of a plain vector in a range, in order. -/
def members (v : List Bool) (lo hi : Nat) : List Nat :=
  (List.range' lo (hi - lo)).filter fun p => v.getD p false

/-- The clear bits of a plain vector in a range, in order. -/
def gaps (v : List Bool) (lo hi : Nat) : List Nat :=
  (List.range' lo (min hi v.length - lo)).filter fun p => !v.getD p false

theorem mem_members {p : Nat} : p ∈ members v lo hi ↔ (lo ≤ p ∧ p < hi) ∧ v.getD p false = true := by
  rw [members, List.mem_filter, List.mem_range'_1]
  refine and_congr_left fun _ => ?_
  omega

theorem members_sorted (v : List Bool) (lo hi : Nat) : (members v lo hi).Pairwise (· < ·) :=
  (List.pairwise_lt_range' ..).filter _

/-! ## Scans -/

/-- A search for a clear bit is one for a set bit in the complement. -/
theorem nextClearFrom_eq (rest : List U64) : ∀ (i : Nat) (word : U64),
    nextClearFrom i word rest = nextSetFrom i (~~~word) (rest.map (~~~ ·)) := by
  have hne (word : U64) : word ≠ BitVec.allOnes 64 ↔ ~~~word ≠ 0#64 := by
    rw [Ne, Ne, not_iff_not, ← BitVec.not_allOnes, BitVec.not_inj]
  induction rest with
  | nil =>
    intro i word
    rw [nextClearFrom, List.map_nil, nextSetFrom]
    exact if_congr (hne word) rfl rfl
  | cons w rest ih =>
    intro i word
    rw [nextClearFrom, List.map_cons, nextSetFrom, ih]
    exact if_congr (hne word) rfl rfl

theorem nextClearBitInWords_firstAt {words : List U64} {start : Nat}
    (h : start < 64 * words.length) :
    nextClearBitInWords words start =
      .ok ((nextSetBitInWords (words.map (~~~ ·)) start).getD (64 * words.length)) := by
  have hword : start / 64 < words.length := by omega
  rw [nextClearBitInWords, if_neg (by omega), nextSetBitInWords, List.getElem?_map,
    List.getElem?_eq_getElem hword, expect_some, ok_bind, nextClearFrom_eq,
    Option.map_some, Option.bind_some, List.map_drop, BitVec.not_or, BitVec.not_not]

theorem lsbAt_map_not {words : List U64} {p : Nat} (h : p < 64 * words.length) :
    lsbAt (words.map (~~~ ·)) p = !lsbAt words p := by
  have hword : p / 64 < words.length := by omega
  rw [lsbAt, lsbAt, List.getD_eq_getElem?_getD, List.getD_eq_getElem?_getD, List.getElem?_map,
    List.getElem?_eq_getElem hword, Option.map_some, Option.getD_some, Option.getD_some,
    BitVec.getLsbD_not, decide_eq_true (Nat.mod_lt p (by decide)), Bool.true_and]

/-- The words that hold the bits below `n`. -/
theorem slice_words {n : Nat} (hn : n ≤ s.numBits) :
    slice s.words 0 (bits2words n) = some (s.words.take (bits2words n)) := by
  rw [slice_eq_some (Nat.zero_le _) (by rw [s.room]; exact bits2words_mono hn), List.drop_zero,
    Nat.sub_zero]

theorem lsbAt_take {words : List U64} {n p : Nat} (h : p < 64 * n) :
    lsbAt (words.take n) p = lsbAt words p := by
  rw [lsbAt, lsbAt, List.getD_eq_getElem?_getD, List.getD_eq_getElem?_getD,
    List.getElem?_take_of_lt (by omega)]

/-- There are no members past the end. -/
theorem members_min (v : List Bool) (lo hi : Nat) :
    members v lo (min hi v.length) = members v lo hi := by
  refine (members_sorted ..).eq_of_mem_iff (members_sorted ..) fun p => ?_
  rw [mem_members, mem_members]
  refine and_congr_left fun hp => ?_
  have hlen : p < v.length := by
    by_contra hge
    rw [getD_of_ge (Nat.not_lt.1 hge)] at hp
    cases hp
  omega

theorem nextSetBitInRange_eq (h : s.Shows v) (start upperBound : Nat) :
    s.nextSetBitInRange start upperBound = .ok (members v start upperBound).head? := by
  rw [nextSetBitInRange, h.len, ← members_min]
  generalize hub : min upperBound v.length = ub
  have hle : ub ≤ s.numBits := by
    rw [h.len]
    omega
  split
  next hstart =>
    rw [members, Nat.sub_eq_zero_of_le hstart]
    rfl
  next hstart =>
    rw [slice_words hle, expect_some, ok_bind]
    have hfirst := nextSetBitInWords_firstAt (s.words.take (bits2words ub)) start
    have hhead := @FirstAt.head? _ _ (ub - start) _ hfirst
    rw [show start + (ub - start) = ub by omega] at hhead
    rw [← hhead, members]
    refine congrArg (fun l => Outcome.ok (List.head? l)) (List.filter_congr fun p hp => ?_)
    rw [List.mem_range'_1] at hp
    have hp64 := le_bits2words ub
    rw [lsbAt_take (by omega), h.bit p (by omega)]

theorem nextClearBitInRange_eq (h : s.Shows v) (start upperBound : Nat) :
    s.nextClearBitInRange start upperBound = .ok (gaps v start upperBound).head? := by
  rw [nextClearBitInRange, h.len, gaps]
  generalize hub : min upperBound v.length = ub
  have hle : ub ≤ s.numBits := by
    rw [h.len]
    omega
  split
  next hstart =>
    rw [Nat.sub_eq_zero_of_le hstart]
    rfl
  next hstart =>
    have hub64 := le_bits2words ub
    have hlen : (s.words.take (bits2words ub)).length = bits2words ub := by
      rw [List.length_take, s.room, Nat.min_eq_left (bits2words_mono hle)]
    dsimp only
    rw [slice_words hle, expect_some, ok_bind,
      nextClearBitInWords_firstAt (by omega), ok_bind, hlen]
    have hfirst := nextSetBitInWords_firstAt ((s.words.take (bits2words ub)).map (~~~ ·)) start
    have hhead := @FirstAt.head? _ _ (ub - start) _ hfirst
    rw [show start + (ub - start) = ub by omega] at hhead
    have hfilter : (List.range' start (ub - start)).filter (fun p => !v.getD p false) =
        (List.range' start (ub - start)).filter
          (lsbAt ((s.words.take (bits2words ub)).map (~~~ ·))) := by
      refine List.filter_congr fun p hp => ?_
      rw [List.mem_range'_1] at hp
      rw [lsbAt_map_not (by omega), lsbAt_take (by omega), h.bit p (by omega)]
    rw [hfilter, hhead]
    refine congrArg Outcome.ok ?_
    cases nextSetBitInWords ((s.words.take (bits2words ub)).map (~~~ ·)) start with
    | none => rw [Option.getD_none, if_neg (by omega), Option.filter_none]
    | some r => simp [Option.filter_some]

/-- The words below `i`, scanned backwards. -/
theorem prevSetFrom_lastAt {words : List U64} : ∀ {i : Nat}, i ≤ words.length →
    ∃ r, prevSetFrom words i = .ok r ∧ LastAt (lsbAt words) (64 * i) r
  | 0, _ => ⟨none, rfl, fun j hj => absurd hj (Nat.not_lt_zero j)⟩
  | i + 1, hi => by
    have hword : i < words.length := hi
    have hbits (k : Nat) (hk : k < 64) : lsbAt words (64 * i + k) = words[i].getLsbD k := by
      rw [lsbAt_word _ _ hk, List.getD_eq_getElem?_getD, List.getElem?_eq_getElem hword,
        Option.getD_some]
    rw [prevSetFrom, List.getElem?_eq_getElem hword, expect_some, ok_bind]
    by_cases hzero : words[i] = 0#64
    · rw [if_neg (not_not.2 hzero)]
      obtain ⟨r, hr, hlast⟩ := prevSetFrom_lastAt hword.le
      refine ⟨r, hr, hlast.skip (by omega) fun j hj hji => ?_⟩
      rw [show j = 64 * i + (j - 64 * i) by omega, hbits _ (by omega), hzero]
      exact BitVec.getLsbD_zero
    · rw [if_pos hzero]
      obtain ⟨hclz, -, hbit, habove⟩ := lastAt_clz hzero
      refine ⟨_, rfl, by omega, ?_, fun j hj hji => ?_⟩
      · rw [show 64 * i + 63 - words[i].clz.toNat = 64 * i + (63 - words[i].clz.toNat) by omega,
          hbits _ (by omega)]
        exact hbit
      · rw [show j = 64 * i + (j - 64 * i) by omega, hbits _ (by omega)]
        exact habove _ (by omega) (by omega)

theorem prevSetBit_eq (h : s.Shows v) {index : Nat} (hi : index < v.length) :
    s.prevSetBit index = .ok (members v 0 (index + 1)).getLast? := by
  have hword := h.word_lt hi
  have hbits (k : Nat) (hk : k < 64) :
      lsbAt s.words (64 * (index / 64) + k) = s.words[index / 64].getLsbD k := by
    rw [lsbAt_word _ _ hk, List.getD_eq_getElem?_getD, List.getElem?_eq_getElem hword,
      Option.getD_some]
  -- the word of `index` holds the bits up to `index` at its top
  have htop (k : Nat) (hk : k ≤ index % 64) :
      (s.words[index / 64] <<< (63 - index % 64)).getLsbD (63 - index % 64 + k) =
        lsbAt s.words (64 * (index / 64) + k) := by
    rw [hbits k (by omega), BitVec.getLsbD_shiftLeft, decide_eq_true (by omega),
      decide_eq_false (by omega), show 63 - index % 64 + k - (63 - index % 64) = k by omega]
    rfl
  suffices hlast : ∃ r, s.prevSetBit index = .ok r ∧ LastAt (lsbAt s.words) (index + 1) r by
    obtain ⟨r, hr, hlast⟩ := hlast
    rw [hr, members, Nat.sub_zero, ← List.range_eq_range', ← hlast.getLast?]
    exact congrArg (fun l => Outcome.ok (List.getLast? l))
      (List.filter_congr fun p hp => h.bit p (by rw [List.mem_range] at hp; omega))
  rw [prevSetBit, guardOk_pos (by rw [h.len]; exact hi), ok_bind]
  dsimp only
  rw [List.getElem?_eq_getElem hword, expect_some, ok_bind]
  by_cases hzero : s.words[index / 64] <<< (63 - index % 64) = 0#64
  · rw [if_neg (not_not.2 hzero)]
    obtain ⟨r, hr, hlast⟩ := prevSetFrom_lastAt hword.le
    refine ⟨r, hr, hlast.skip (by omega) fun j hj hji => ?_⟩
    rw [show j = 64 * (index / 64) + (j - 64 * (index / 64)) by omega, ← htop _ (by omega), hzero]
    exact BitVec.getLsbD_zero
  · rw [if_pos hzero]
    obtain ⟨hclz, -, hbit, habove⟩ := lastAt_clz hzero
    generalize (s.words[index / 64] <<< (63 - index % 64)).clz.toNat = c at hclz hbit habove
    -- the bits below those of the word are zeros
    have hc : c ≤ index % 64 := by
      by_contra hlt
      rw [BitVec.getLsbD_shiftLeft, decide_eq_true (by omega : 63 - c < 63 - index % 64)] at hbit
      simp at hbit
    refine ⟨_, rfl, by omega, ?_, fun j hj hji => ?_⟩
    · rw [show 64 * (index / 64) + index % 64 - c = 64 * (index / 64) + (index % 64 - c) by omega,
        ← htop _ (by omega), show 63 - index % 64 + (index % 64 - c) = 63 - c by omega]
      exact hbit
    · rw [show j = 64 * (index / 64) + (j - 64 * (index / 64)) by omega, ← htop _ (by omega)]
      exact habove _ (by omega) (by omega)

/-! ## Walks -/

/-- A word loses the bits outside the range. -/
theorem wordInRange_getLsbD {i k : Nat} (hlo : lo / 64 ≤ i) (hhi : i ≤ (hi - 1) / 64) (hlt : lo < hi)
    (word : U64) (hk : k < 64) : (wordInRange lo hi i word).getLsbD k =
      (word.getLsbD k && decide (lo ≤ 64 * i + k ∧ 64 * i + k < hi)) := by
  have htail (bits : U64) : (if i = (hi - 1) / 64 then
      bits &&& (BitVec.allOnes 64 >>> (63 - (hi - 1) % 64)) else bits).getLsbD k =
      (bits.getLsbD k && decide (64 * i + k < hi)) := by
    split
    next heq =>
      rw [BitVec.getLsbD_and, getLsbD_allOnes_ushiftRight]
      congr 1
      rw [decide_eq_decide]
      omega
    next hne => rw [decide_eq_true (by omega : 64 * i + k < hi), Bool.and_true]
  have hhead : (if i = lo / 64 then word &&& fromBit (lo % 64) else word).getLsbD k =
      (word.getLsbD k && decide (lo ≤ 64 * i + k)) := by
    split
    next heq =>
      rw [BitVec.getLsbD_and, getLsbD_fromBit hk]
      congr 1
      rw [decide_eq_decide]
      omega
    next hne => rw [decide_eq_true (by omega : lo ≤ 64 * i + k), Bool.and_true]
  rw [wordInRange, htail, hhead, Bool.and_assoc, Bool.decide_and]

/-- The indices of the words in a range. -/
def wordIndices (lo hi : Nat) : List Nat := List.range' (lo / 64) ((hi - 1) / 64 + 1 - lo / 64)

/-- The members of a word. -/
def wordMembers (s : FixedBitSet) (lo hi i : Nat) : List Nat :=
  (wordBits (wordInRange lo hi i (s.words.getD i 0))).map fun k => (i <<< 6) ||| k

theorem word_index_or {i k : Nat} (hk : k < 64) : (i <<< 6) ||| k = 64 * i + k := by
  rw [← Nat.shiftLeft_add_eq_or_of_lt (show k < 2 ^ 6 from hk), Nat.shiftLeft_eq]
  omega

theorem mem_wordMembers (h : s.Shows v) (hlt : lo < hi) (hhi : hi ≤ v.length) {i p : Nat}
    (hi' : i ∈ wordIndices lo hi) :
    p ∈ wordMembers s lo hi i ↔ p / 64 = i ∧ p ∈ members v lo hi := by
  rw [wordIndices, List.mem_range'_1] at hi'
  rw [wordMembers, List.mem_map]
  constructor
  · rintro ⟨k, hk, rfl⟩
    have hk64 := wordBits_lt hk
    rw [mem_wordBits, wordInRange_getLsbD (by omega) (by omega) hlt _ hk64, ← lsbAt_word _ _ hk64,
      Bool.and_eq_true, decide_eq_true_eq] at hk
    rw [h.bit _ (by omega)] at hk
    rw [word_index_or hk64]
    exact ⟨by omega, mem_members.2 ⟨hk.2, hk.1⟩⟩
  · rintro ⟨rfl, hp⟩
    obtain ⟨hrange, hbit⟩ := mem_members.1 hp
    have hk64 : p % 64 < 64 := Nat.mod_lt _ (by decide)
    refine ⟨p % 64, ?_, by rw [word_index_or hk64]; omega⟩
    rw [mem_wordBits, wordInRange_getLsbD (by omega) (by omega) hlt _ hk64, ← lsbAt_word _ _ hk64,
      show 64 * (p / 64) + p % 64 = p by omega, h.bit p (by omega), hbit, decide_eq_true hrange]
    rfl

/-- The members are those of the words in the range, one word after the
other. -/
theorem members_eq (h : s.Shows v) (hlt : lo < hi) (hhi : hi ≤ v.length) :
    members v lo hi = (wordIndices lo hi).flatMap (wordMembers s lo hi) := by
  have hsorted : ((wordIndices lo hi).flatMap (wordMembers s lo hi)).Pairwise (· < ·) := by
    rw [List.pairwise_flatMap]
    constructor
    · intro i hi'
      refine List.pairwise_map.2 ((wordBits_sorted _).imp_of_mem fun hj hk hjk => ?_)
      rw [word_index_or (wordBits_lt hj), word_index_or (wordBits_lt hk)]
      omega
    · refine (List.pairwise_lt_range' ..).imp_of_mem fun {i j} hi' hj' hij p hp q hq => ?_
      obtain ⟨hpi, -⟩ := (mem_wordMembers h hlt hhi hi').1 hp
      obtain ⟨hqj, -⟩ := (mem_wordMembers h hlt hhi hj').1 hq
      omega
  refine (members_sorted ..).eq_of_mem_iff hsorted fun p => ?_
  rw [List.mem_flatMap]
  constructor
  · intro hp
    obtain ⟨hrange, -⟩ := mem_members.1 hp
    have hindex : p / 64 ∈ wordIndices lo hi := by
      rw [wordIndices, List.mem_range'_1]
      omega
    exact ⟨p / 64, hindex, (mem_wordMembers h hlt hhi hindex).2 ⟨rfl, hp⟩⟩
  · rintro ⟨i, hi', hp⟩
    exact ((mem_wordMembers h hlt hhi hi').1 hp).2

theorem length_wordMembers (i : Nat) :
    (wordMembers s lo hi i).length = countOnes (wordInRange lo hi i (s.words.getD i 0)) := by
  rw [wordMembers, List.length_map, length_wordBits]

theorem getD_of_lt {words : List U64} {i : Nat} (h : i < words.length) :
    words.getD i 0 = words[i] := by
  rw [List.getD_eq_getElem?_getD, List.getElem?_eq_getElem h, Option.getD_some]

theorem map_getD_range' {words : List U64} {i n : Nat} (h : i + n ≤ words.length) :
    (List.range' i n).map (fun j => words.getD j 0) = (words.drop i).take n := by
  refine List.ext_getElem (by simp; omega) fun j hj hj' => ?_
  rw [List.length_map, List.length_range'] at hj
  rw [List.getElem_map, List.getElem_range', List.getElem_take, List.getElem_drop, Nat.one_mul,
    getD_of_lt (by omega)]

theorem cardinalityRange_eq (h : s.Shows v) (hlo : lo ≤ hi) (hhi : hi ≤ v.length) :
    s.cardinalityRange lo hi = .ok (members v lo hi).length := by
  rw [cardinalityRange, guardOk_pos ⟨hlo, by rw [h.len]; exact hhi⟩, ok_bind]
  split
  next heq =>
    rw [members, heq, Nat.sub_self]
    rfl
  next hne =>
    have hlt : lo < hi := by omega
    have hlast : (hi - 1) / 64 < s.words.length := h.word_lt (by omega)
    have hfirst : lo / 64 < s.words.length := h.word_lt (by omega)
    have hmask : (64 - hi % 64) % 64 = 63 - (hi - 1) % 64 := by omega
    rw [members_eq h hlt hhi, List.length_flatMap, List.map_congr_left fun i _ => length_wordMembers i,
      rangeMasks]
    dsimp only
    rw [hmask, List.getElem?_eq_getElem hfirst, expect_some, ok_bind]
    split
    next heq =>
      have hindices : wordIndices lo hi = [lo / 64] := by
        rw [wordIndices, ← heq, Nat.add_sub_cancel_left]
        rfl
      rw [hindices, List.map_singleton, List.sum_singleton, wordInRange, if_pos rfl, if_pos heq,
        getD_of_lt hfirst]
    next hne =>
      have hbetween : lo / 64 + 1 + ((hi - 1) / 64 - (lo / 64 + 1)) = (hi - 1) / 64 := by omega
      have hindices : wordIndices lo hi = lo / 64 ::
          (List.range' (lo / 64 + 1) ((hi - 1) / 64 - (lo / 64 + 1)) ++ [(hi - 1) / 64]) := by
        have hsucc := @List.range'_1_concat (lo / 64 + 1) ((hi - 1) / 64 - (lo / 64 + 1))
        rw [hbetween] at hsucc
        rw [← hsucc, ← List.range'_succ, wordIndices]
        exact congrArg (List.range' (lo / 64)) (by omega)
      have hwhole : (List.range' (lo / 64 + 1) ((hi - 1) / 64 - (lo / 64 + 1))).map
          (fun i => countOnes (wordInRange lo hi i (s.words.getD i 0))) =
          ((s.words.drop (lo / 64 + 1)).take ((hi - 1) / 64 - (lo / 64 + 1))).map countOnes := by
        rw [← map_getD_range' (by omega), List.map_map]
        refine List.map_congr_left fun i hi' => ?_
        rw [List.mem_range'_1] at hi'
        rw [wordInRange, if_neg (by omega), if_neg (by omega)]
        rfl
      rw [slice_eq_some (by omega) hlast.le, List.getElem?_eq_getElem hlast, expect_some,
        expect_some, ok_bind, ok_bind, hindices, List.map_cons,
        List.map_append, hwhole, List.sum_cons, List.sum_append, List.map_singleton,
        List.sum_singleton, wordInRange, if_pos rfl, if_neg hne, wordInRange, if_neg (Ne.symm hne),
        if_pos rfl, getD_of_lt hfirst, getD_of_lt hlast, Nat.add_assoc]
      rfl

/-- A loop over the bits of a word gives the consumer each of them. -/
theorem iterate_forEachPass (base : BitVec 32) (i : Nat) : ∀ (n : Nat) (bits : U64)
    (given : List (BitVec 32)), (wordBits bits).length < n →
    iterate (forEachPass base i) n (bits, given) = (do
      let vs ← ((wordBits bits).map fun k => (i <<< 6) ||| k).mapM (addBase base)
      .ok (given ++ vs) : Call _)
  | 0, _, _, hn => absurd hn (Nat.not_lt_zero _)
  | n + 1, bits, given, hn => by
    by_cases hzero : bits = 0#64
    · subst hzero
      rw [@iterate_leave _ _ _ _ n _ given rfl, wordBits_zero, List.map_nil, List.mapM_nil,
        Outcome.pure_eq, ok_bind, List.append_nil]
    · have hcons := wordBits_cons hzero
      rw [hcons, List.length_cons] at hn
      rw [iterate, forEachPass, if_pos hzero, hcons, List.map_cons, List.mapM_cons]
      cases addBase base ((i <<< 6) ||| bits.ctz.toNat) with
      | err e => rfl
      | panic => rfl
      | ok v =>
        dsimp only [ok_bind]
        rw [iterate_forEachPass base i n _ _ (by omega)]
        simp only [ok_bind, bind_assoc, Outcome.pure_eq, List.append_assoc,
          List.singleton_append]

theorem forEachWord_forEach (base : BitVec 32) : ∀ (ws : List Nat) (given : List (BitVec 32)),
    (∀ i ∈ ws, i < s.words.length) →
    forEachWord s lo hi (fun w bits given => do
      let given ← iterate (forEachPass base w) 65 (bits, given)
      .ok (true, given)) ws given = (do
      let vs ← (ws.flatMap (wordMembers s lo hi)).mapM (addBase base)
      .ok (given ++ vs) : Call _)
  | [], given, _ => by
    rw [forEachWord, List.flatMap_nil, List.mapM_nil, Outcome.pure_eq, ok_bind,
      List.append_nil]
  | i :: ws, given, hws => by
    rw [List.forall_mem_cons] at hws
    have hbits : (wordBits (wordInRange lo hi i (s.words.getD i 0))).length < 65 :=
      Nat.lt_succ_of_le ((List.length_filter_le _ _).trans (List.length_range ..).le)
    rw [forEachWord, List.getElem?_eq_getElem hws.1, expect_some, ok_bind,
      ← getD_of_lt hws.1, iterate_forEachPass base i 65 _ given hbits, ← wordMembers,
      List.flatMap_cons, List.mapM_append]
    simp only [bind_assoc, ok_bind, Outcome.pure_eq, if_true,
      forEachWord_forEach base ws _ hws.2, List.append_assoc]

theorem wordIndices_lt (h : s.Shows v) (hlt : lo < hi) (hhi : hi ≤ v.length) :
    ∀ i ∈ wordIndices lo hi, i < s.words.length := by
  intro i hi'
  rw [wordIndices, List.mem_range'_1] at hi'
  have hlast := h.word_lt (show hi - 1 < v.length by omega)
  omega

theorem forEachInRange_eq (h : s.Shows v) (hlo : lo ≤ hi) (hhi : hi ≤ v.length)
    (base : BitVec 32) : s.forEachInRange lo hi base = (members v lo hi).mapM (addBase base) := by
  rw [forEachInRange, guardOk_pos ⟨hlo, by rw [h.len]; exact hhi⟩, ok_bind,
    forEachWordInRange]
  split
  next hle =>
    rw [members, Nat.sub_eq_zero_of_le hle]
    rfl
  next hlt =>
    have hlt' : lo < hi := Nat.lt_of_not_le hlt
    rw [← wordIndices, forEachWord_forEach base _ _ (wordIndices_lt h hlt' hhi), members_eq h hlt' hhi]
    simp only [List.nil_append]
    exact bind_pure _

/-- A loop over the bits of a word stops when the array is full. -/
theorem iterate_intoArrayPass (base : BitVec 32) (i : Nat) : ∀ (n : Nat) (bits : U64)
    (out room : List (BitVec 32)), (wordBits bits).length < n →
    iterate (intoArrayPass base i) n (bits, out.length, out ++ room) = (do
      let vs ← (((wordBits bits).map fun k => (i <<< 6) ||| k).take room.length).mapM (addBase base)
      .ok ((out ++ vs).length, (out ++ vs) ++ room.drop vs.length) : Call _)
  | 0, _, _, _, hn => absurd hn (Nat.not_lt_zero _)
  | n + 1, bits, out, room, hn => by
    cases room with
    | nil =>
      rw [@iterate_leave _ _ _ _ n _ (out.length, out ++ []) ?_, List.length_nil, List.take_zero,
        List.mapM_nil, Outcome.pure_eq, ok_bind, List.append_nil, List.drop_nil,
        List.append_nil]
      rw [intoArrayPass, if_neg (by simp)]
    | cons slot room =>
      by_cases hzero : bits = 0#64
      · subst hzero
        rw [@iterate_leave _ _ _ _ n _ (out.length, out ++ slot :: room) ?_, wordBits_zero, List.map_nil,
          List.take_nil, List.mapM_nil, Outcome.pure_eq, ok_bind, List.append_nil,
          List.length_nil, List.drop_zero]
        rw [intoArrayPass, if_neg (by simp)]
      · have hcons := wordBits_cons hzero
        rw [hcons, List.length_cons] at hn
        rw [iterate, intoArrayPass, if_pos ⟨hzero, by simp⟩, hcons, List.map_cons, List.length_cons,
          List.take_succ_cons, List.mapM_cons]
        cases addBase base ((i <<< 6) ||| bits.ctz.toNat) with
        | err e => rfl
        | panic => rfl
        | ok v =>
          have hset : (out ++ slot :: room).set out.length v = (out ++ [v]) ++ room := by
            rw [List.set_append_right _ _ (Nat.le_refl _), Nat.sub_self, List.set_cons_zero,
              List.append_assoc, List.singleton_append]
          have hnext := iterate_intoArrayPass base i n (bits &&& (bits - 1#64)) (out ++ [v]) room
            (by omega)
          rw [List.length_append, List.length_singleton] at hnext
          dsimp only [ok_bind]
          rw [hset, hnext]
          simp only [ok_bind, bind_assoc, Outcome.pure_eq, List.append_assoc,
            List.singleton_append, List.length_cons, List.drop_succ_cons]

theorem forEachWord_intoArray (base : BitVec 32) : ∀ (ws : List Nat) (out room : List (BitVec 32)),
    (∀ i ∈ ws, i < s.words.length) →
    forEachWord s lo hi (fun w bits (n, array) => do
      let (n, array) ← iterate (intoArrayPass base w) 65 (bits, n, array)
      .ok (decide (n < array.length), n, array)) ws (out.length, out ++ room) = (do
      let vs ← ((ws.flatMap (wordMembers s lo hi)).take room.length).mapM (addBase base)
      .ok ((out ++ vs).length, (out ++ vs) ++ room.drop vs.length) : Call _)
  | [], out, room, _ => by
    rw [forEachWord, List.flatMap_nil, List.take_nil, List.mapM_nil, Outcome.pure_eq,
      ok_bind, List.append_nil, List.length_nil, List.drop_zero]
  | i :: ws, out, room, hws => by
    rw [List.forall_mem_cons] at hws
    have hbits : (wordBits (wordInRange lo hi i (s.words.getD i 0))).length < 65 :=
      Nat.lt_succ_of_le ((List.length_filter_le _ _).trans (List.length_range ..).le)
    rw [forEachWord, List.getElem?_eq_getElem hws.1, expect_some, ok_bind,
      ← getD_of_lt hws.1]
    dsimp only
    rw [iterate_intoArrayPass base i 65 _ out room hbits, ← wordMembers, List.flatMap_cons,
      List.take_append, List.mapM_append]
    cases hvs : ((wordMembers s lo hi i).take room.length).mapM (addBase base) with
    | err e => rfl
    | panic => rfl
    | ok vs =>
      have hlen := Outcome.mapM_length hvs
      rw [List.length_take] at hlen
      simp only [ok_bind]
      by_cases hmore : vs.length < room.length
      · rw [if_pos (by rw [decide_eq_true_eq, List.length_append, List.length_append,
          List.length_append, List.length_drop]; omega),
          forEachWord_intoArray base ws (out ++ vs) (room.drop vs.length) hws.2, List.length_drop,
          show room.length - (wordMembers s lo hi i).length = room.length - vs.length by omega]
        simp only [bind_assoc, ok_bind, Outcome.pure_eq, List.append_assoc,
          List.drop_drop, List.length_append]
      · rw [if_neg (by rw [decide_eq_true_eq, List.length_append, List.length_append,
          List.length_append, List.length_drop]; omega),
          show room.length - (wordMembers s lo hi i).length = 0 by omega, List.take_zero,
          List.mapM_nil, Outcome.pure_eq, ok_bind, Outcome.pure_eq, ok_bind,
          List.append_nil]

theorem intoArray_eq (h : s.Shows v) (hlo : lo ≤ hi) (hhi : hi ≤ v.length)
    (base : BitVec 32) (array : List (BitVec 32)) :
    s.intoArray lo hi base array = (do
      let vs ← ((members v lo hi).take array.length).mapM (addBase base)
      .ok (vs.length, vs ++ array.drop vs.length)) := by
  rw [intoArray, guardOk_pos ⟨hlo, by rw [h.len]; exact hhi⟩, ok_bind,
    forEachWordInRange]
  split
  next hle =>
    rw [members, Nat.sub_eq_zero_of_le hle, List.range'_zero, List.filter_nil, List.take_nil]
    rfl
  next hlt =>
    have hlt' : lo < hi := Nat.lt_of_not_le hlt
    rw [← wordIndices, members_eq h hlt' hhi]
    exact forEachWord_intoArray base _ [] array (wordIndices_lt h hlt' hhi)

/-! ## The kernels together -/

/-- A combination of ranges of two sets: the bits of `dest` in the range are
combined with those of `v`, and no other bit of its words is changed. -/
def Combines (φ : Bool → Bool → Bool) (v : List Bool) (sf : Nat) (dest : FixedBitSet) (df n : Nat)
    (x : Call FixedBitSet) : Prop :=
  ∃ t, x = .ok t ∧ t.numBits = dest.numBits ∧ ∀ p, lsbAt t.words p =
    if df ≤ p ∧ p < df + n then φ (lsbAt dest.words p) (v.getD (sf + (p - df)) false)
    else lsbAt dest.words p

theorem combines_rangeOp {head : U64 → U64 → Nat → Nat → U64} {word : U64 → U64 → U64}
    {φ : Bool → Bool → Bool} (hhead : HeadSpec head φ) (hword : Bitwise word φ)
    (h : source.Shows v) {sf df n : Nat} (hs : sf + n ≤ v.length) (hd : df + n ≤ dest.numBits) :
    Combines φ v sf dest df n (rangeOp source sf dest df n head word) := by
  obtain ⟨t, ht, hnum, hbits⟩ := rangeOp_ok hhead hword (by rw [h.len]; exact hs) hd
  refine ⟨t, ht, hnum, fun p => ?_⟩
  rw [hbits]
  split
  next hp => rw [h.bit _ (by omega)]
  next => rfl

/-- `apply_mask` on `bitSet`, which shows `w`: the bits with a clear
counterpart are cleared, and a bit at or past the end of `s` is an error. -/
def MaskExact (s : FixedBitSet) (v : List Bool) (bitSet : FixedBitSet) (w : List Bool)
    (offset : Nat) : Prop :=
  ∃ t r, s.applyMask bitSet offset = .ok (t, r) ∧ t.Shows (plainApplyMask v w offset) ∧
    ((∃ e, r = .error e) ↔ ∃ p, v.length - offset ≤ p ∧ w.getD p false = true)

/-- From `k` on, the bits of `bitSet` are clear up to its end, and one is set
behind it. -/
def OnlyGhosts (bitSet : FixedBitSet) (w : List Bool) (k : Nat) : Prop :=
  k < w.length ∧ (∀ p, k ≤ p → w.getD p false = false) ∧
    ∃ p, w.length ≤ p ∧ lsbAt bitSet.words p = true

/-- Ghost bits are what `apply_mask` takes for bits of the set. -/
theorem maskExact_iff (h : s.Shows v) {bitSet : FixedBitSet} (hb : bitSet.Shows w) (offset : Nat) :
    MaskExact s v bitSet w offset ↔ ¬ OnlyGhosts bitSet w (v.length - offset) := by
  obtain ⟨t, r, ht, hnum, hbits, herr⟩ := applyMask_ok h bitSet offset
  rw [hb.len] at herr
  constructor
  · rintro ⟨t', r', ht', -, hiff⟩ ⟨hlt, hclear, p, hp, hbit⟩
    rw [ht, Outcome.ok.injEq, Prod.mk.injEq] at ht'
    obtain ⟨q, hq, hset⟩ := hiff.1 (by
      rw [← ht'.2]
      exact herr.2 ⟨hlt, p, by omega, hbit⟩)
    rw [hclear q hq] at hset
    cases hset
  · intro hghost
    refine ⟨t, r, ht, ⟨?_, ?_⟩, ?_⟩
    · rw [hnum, hb.len, plainApplyMask, List.length_mapIdx]
    · intro p hp
      rw [plainApplyMask, List.length_mapIdx] at hp
      rw [hbits, hb.len, plainApplyMask, getD_mapIdx, if_pos hp, hb.bit p hp]
      simp only [hp, true_and]
    · rw [herr]
      constructor
      · rintro ⟨hlt, p, hp, hbit⟩
        by_contra hnone
        have hclear : ∀ q, v.length - offset ≤ q → w.getD q false = false := by
          intro q hq
          by_contra hset
          exact hnone ⟨q, hq, Bool.not_eq_false _ ▸ hset⟩
        refine hghost ⟨hlt, hclear, p, ?_, hbit⟩
        by_contra hin
        rw [hb.bit p (by omega), hclear p hp] at hbit
        cases hbit
      · rintro ⟨p, hp, hbit⟩
        have hlt : p < w.length := by
          by_contra hge
          rw [getD_of_ge (by omega)] at hbit
          cases hbit
        exact ⟨by omega, p, hp, by rw [hb.bit p hlt]; exact hbit⟩

/-- The kernels that work a word at a time do what their definitions by
enumeration say, bit by bit, and `apply_mask` unless a ghost bit is taken for
one of the set. -/
structure RangesExact (s : FixedBitSet) (v : List Bool) : Prop where
  orRange : ∀ (dest : FixedBitSet) (sf df n : Nat), sf + n ≤ v.length → df + n ≤ dest.numBits →
    Combines (· || ·) v sf dest df n (orRange s sf dest df n)
  andRange : ∀ (dest : FixedBitSet) (sf df n : Nat), sf + n ≤ v.length → df + n ≤ dest.numBits →
    Combines (· && ·) v sf dest df n (andRange s sf dest df n)
  cardinalityRange : ∀ lo hi, lo ≤ hi → hi ≤ v.length →
    s.cardinalityRange lo hi = .ok (members v lo hi).length
  intoArray : ∀ lo hi base array, lo ≤ hi → hi ≤ v.length →
    s.intoArray lo hi base array = (do
      let vs ← ((members v lo hi).take array.length).mapM (addBase base)
      .ok (vs.length, vs ++ array.drop vs.length))
  forEachInRange : ∀ lo hi base, lo ≤ hi → hi ≤ v.length →
    s.forEachInRange lo hi base = (members v lo hi).mapM (addBase base)
  nextSetBitInRange : ∀ start upperBound,
    s.nextSetBitInRange start upperBound = .ok (members v start upperBound).head?
  nextClearBitInRange : ∀ start upperBound,
    s.nextClearBitInRange start upperBound = .ok (gaps v start upperBound).head?
  prevSetBit : ∀ index < v.length,
    s.prevSetBit index = .ok (members v 0 (index + 1)).getLast?
  applyMask : ∀ (bitSet : FixedBitSet) (w : List Bool) (offset : Nat), bitSet.Shows w →
    (MaskExact s v bitSet w offset ↔ ¬ OnlyGhosts bitSet w (v.length - offset))

/-- The range kernels are exact on every set. -/
theorem ranges_exact (h : s.Shows v) : s.RangesExact v := by
  refine ⟨?_, ?_, ?_, ?_, ?_, ?_, ?_, ?_, ?_⟩
  · intro dest sf df n hs hd
    exact combines_rangeOp headSpec_or bitwise_or h hs hd
  · intro dest sf df n hs hd
    exact combines_rangeOp headSpec_and bitwise_and h hs hd
  · intro lo hi hlo hhi
    exact cardinalityRange_eq h hlo hhi
  · intro lo hi base array hlo hhi
    exact intoArray_eq h hlo hhi base array
  · intro lo hi base hlo hhi
    exact forEachInRange_eq h hlo hhi base
  · exact nextSetBitInRange_eq h
  · exact nextClearBitInRange_eq h
  · intro index hi
    exact prevSetBit_eq h hi
  · intro bitSet w offset hb
    exact maskExact_iff h hb offset

/-- A set of three bits, the last two set. -/
theorem ranges_exact_three : RangesExact ⟨[6#64], 3, rfl⟩ [false, true, true] :=
  ranges_exact ⟨rfl, by decide⟩

/-- A set of ten clear bits, on which `xor` has left a ghost bit, is refused
by a mask of five bits. -/
theorem applyMask_ghost : ∃ live zero longer bitSet t : FixedBitSet, ∃ e,
    FixedBitSet.new 5 = .ok live ∧ FixedBitSet.new 10 = .ok zero ∧
      (do let u ← FixedBitSet.new 20; u.set 15) = .ok longer ∧ zero.xor longer = .ok bitSet ∧
      (∀ i < 10, bitSet.get i = .ok false) ∧ live.applyMask bitSet 0 = .ok (t, .error e) :=
  ⟨_, _, _, _, _, _, rfl, rfl, rfl, rfl, by decide, rfl⟩

end FixedBitSet

end LuceneRust.Util
