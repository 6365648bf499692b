import LuceneRust.Util.SparseFixedBitSet

/-!
# What a `SparseFixedBitSet` holds

A set of indices is a predicate `P`.  `denseBlock P k` are the 64 words of its
block `k`, zeros included, and `BlockHolds` says that an index word and the
stored words are the compressed form of a dense block: the non-zero words in
order, and zeros behind them.  `Holds s P` says so of every block.

The operations that change a word are `orLong_holds` and `and_holds`; each of
them replaces, inserts or removes one stored word.  The range operations and
the unions are built from these two.
-/

namespace LuceneRust.Util

open RustSem WordTape Compressed
open Packed (Call divCeil)

/-! ## Dense words -/

/-- Word `w` of a set. -/
def wordOf (P : Nat → Bool) (w : Nat) : U64 := ofBits (fun b => P (64 * w + b)) 64

/-- The words of block `k` of a set. -/
def denseBlock (P : Nat → Bool) (k : Nat) : List U64 :=
  (List.range 64).map fun j => wordOf P (64 * k + j)

theorem wordOf_getLsbD (P : Nat → Bool) (w : Nat) {b : Nat} (hb : b < 64) :
    (wordOf P w).getLsbD b = P (64 * w + b) := by
  rw [wordOf, getLsbD_ofBits]
  simp [hb]

theorem wordOf_eq_zero_iff {P : Nat → Bool} {w : Nat} :
    wordOf P w = 0#64 ↔ ∀ b < 64, P (64 * w + b) = false := by
  constructor
  · intro h b hb
    rw [← wordOf_getLsbD P w hb, h]
    simp
  · intro h
    apply BitVec.eq_of_getLsbD_eq
    intro b hb
    rw [wordOf_getLsbD P w hb, h b hb]
    simp

/-- A zero word has no indices. -/
theorem eq_false_of_wordOf {P : Nat → Bool} {w p : Nat} (h : wordOf P w = 0#64)
    (hp : p / 64 = w) : P p = false := by
  have := wordOf_eq_zero_iff.1 h (p % 64) (Nat.mod_lt p (by decide))
  rwa [show 64 * w + p % 64 = p by omega] at this

theorem wordOf_congr {P Q : Nat → Bool} {w : Nat}
    (h : ∀ p, p / 64 = w → P p = Q p) : wordOf P w = wordOf Q w := by
  apply BitVec.eq_of_getLsbD_eq
  intro b hb
  rw [wordOf_getLsbD P w hb, wordOf_getLsbD Q w hb, h _ (by omega)]

@[simp] theorem denseBlock_length (P : Nat → Bool) (k : Nat) :
    (denseBlock P k).length = 64 := by
  simp [denseBlock]

theorem denseBlock_getD (P : Nat → Bool) (k : Nat) {j : Nat} (hj : j < 64) :
    (denseBlock P k).getD j 0 = wordOf P (64 * k + j) := by
  rw [denseBlock, List.getD_eq_getElem?_getD, List.getElem?_map,
    List.getElem?_range hj]
  rfl

theorem denseBlock_congr {P Q : Nat → Bool} {k : Nat}
    (h : ∀ p, p / 4096 = k → P p = Q p) : denseBlock P k = denseBlock Q k := by
  apply List.map_congr_left
  intro j hj
  have := List.mem_range.1 hj
  exact wordOf_congr fun p hp => h p (by omega)

/-- The change of one word of a set. -/
theorem denseBlock_set {P Q : Nat → Bool} {k j : Nat}
    (h : ∀ p, p / 64 ≠ 64 * k + j → Q p = P p) :
    denseBlock Q k = (denseBlock P k).set j (wordOf Q (64 * k + j)) := by
  apply List.ext_getElem (by simp)
  intro i hi hi'
  have hi64 : i < 64 := by simpa using hi
  rw [List.getElem_set]
  split
  · rename_i hij
    subst hij
    simp [denseBlock]
  · rename_i hij
    simp only [denseBlock, List.getElem_map, List.getElem_range]
    exact wordOf_congr fun p hp => h p (by omega)

/-! ## One block -/

/-- An index word and some stored words are the compressed form of the dense
words `ws`. -/
structure BlockHolds (index : U64) (block : Option (List U64)) (ws : List U64) :
    Prop where
  idx : Indexes index ws
  none : index = 0#64 → block = none
  some : index ≠ 0#64 → ∃ n, block = some (compress ws ++ List.replicate n 0#64)

namespace BlockHolds

variable {index v : U64} {block : Option (List U64)} {slots ws : List U64} {j : Nat}

theorem index_ne_zero (h : BlockHolds index block ws) (hj : j < 64)
    (hne : ws.getD j 0 ≠ 0#64) : index ≠ 0#64 := by
  intro h0
  exact hne (h.idx.eq_zero_iff.1 h0 j hj)

/-- A stored word is found at its rank. -/
theorem stored (h : BlockHolds index block ws) (hj : j < 64)
    (hne : ws.getD j 0 ≠ 0#64) :
    ∃ slots, block = .some slots ∧ slots[rank ws j]? = .some (ws.getD j 0) := by
  obtain ⟨n, hn⟩ := h.some (h.index_ne_zero hj hne)
  refine ⟨_, hn, ?_⟩
  have hlen : j < ws.length := by rw [h.idx.len]; exact hj
  rw [List.getElem?_append_left (rank_lt hlen hne)]
  exact compress_getElem? hlen hne

/-- A stored word is replaced. -/
theorem replace (h : BlockHolds index (.some slots) ws) (hj : j < 64)
    (hne : ws.getD j 0 ≠ 0#64) (hv : v ≠ 0#64) :
    BlockHolds index (.some (slots.set (rank ws j) v)) (ws.set j v) := by
  have hlen : j < ws.length := by rw [h.idx.len]; exact hj
  refine ⟨h.idx.set_same hj hv hne,
    fun h0 => absurd h0 (h.index_ne_zero hj hne), fun hi => ?_⟩
  obtain ⟨n, hn⟩ := h.some hi
  cases hn
  refine ⟨n, ?_⟩
  rw [List.set_append_left _ _ (rank_lt hlen hne),
    compress_set_replace hlen hne hv]

end BlockHolds

theorem le_oversize {n : Nat} (hn : n ≤ 64) : n ≤ oversize n := by
  simp only [oversize]
  split <;> omega

/-- `insert_word` into a free slot, or into a larger array. -/
theorem insertWord_ok (as bs : List U64) (hne : as ++ bs ≠ [])
    (hnz : ∀ a ∈ as ++ bs, a ≠ 0#64) (hlen : (as ++ bs).length < 64) (n : Nat)
    (v : U64) :
    ∃ m, SparseFixedBitSet.insertWord ((as ++ bs) ++ List.replicate n 0#64)
        as.length v = .ok ((as ++ v :: bs) ++ List.replicate m 0#64) := by
  rw [List.length_append] at hlen
  rw [SparseFixedBitSet.insertWord]
  cases n with
  | zero =>
    -- no free slot: the block grows
    have hover := le_oversize (n := as.length + bs.length + 1) (by omega)
    obtain ⟨k, hk⟩ : ∃ k, oversize (as.length + bs.length + 1) =
        as.length + (k + 1) := 
      ⟨oversize (as.length + bs.length + 1) - (as.length + 1), by omega⟩
    have hgrown : splice (List.replicate (oversize (as.length + bs.length + 1)) 0#64)
        0 as = as ++ 0#64 :: List.replicate k 0#64 := by
      have h := splice_append [] (List.replicate (as.length + (k + 1)) 0#64) as
      simpa [hk, List.drop_replicate, List.replicate_succ] using h
    have hset : (as ++ 0#64 :: List.replicate k 0#64).set as.length v =
        (as ++ [v]) ++ List.replicate k 0#64 := by
      rw [List.set_append_right _ _ (Nat.le_refl _), Nat.sub_self]
      simp
    have hdone := splice_append (as ++ [v]) (List.replicate k 0#64) bs
    rw [List.length_append, List.length_singleton] at hdone
    obtain ⟨a, ha⟩ : ∃ a, (as ++ bs).getLast? = some a :=
      ⟨_, List.getLast?_eq_some_getLast hne⟩
    have hlast : a ≠ 0#64 := hnz a (List.mem_of_getLast? ha)
    refine ⟨k - bs.length, ?_⟩
    rw [List.replicate_zero, List.append_nil, ha, expect_some,
      ok_bind, if_neg hlast, List.length_append]
    dsimp only
    rw [guardOk_pos ⟨by omega, hover⟩, ok_bind, List.take_left,
      List.drop_left, hgrown, hset, hdone, List.drop_replicate]
    simp
  | succ n =>
    -- the free slot at the end: the words behind move by one
    obtain ⟨x, tail, htail⟩ : ∃ x tail,
        bs ++ List.replicate (n + 1) 0#64 = x :: tail := by
      cases bs with
      | nil => exact ⟨_, _, List.replicate_succ⟩
      | cons b bs => exact ⟨_, _, rfl⟩
    have htlen : tail.length = bs.length + n := by
      have := congrArg List.length htail
      simp only [List.length_append, List.length_replicate, List.length_cons] at this
      omega
    have hblock : (as ++ bs) ++ List.replicate (n + 1) 0#64 = (as ++ [x]) ++ tail := by
      rw [List.append_assoc, htail]
      simp
    have hfront : (bs ++ List.replicate (n + 1) 0#64).take (bs.length + n) =
        bs ++ List.replicate n 0#64 := by
      rw [List.take_append, List.take_of_length_le (by omega),
        Nat.add_sub_cancel_left, List.take_replicate, Nat.min_eq_left (by omega)]
    have hmove := splice_append (as ++ [x]) tail (bs ++ List.replicate n 0#64)
    rw [List.length_append, List.length_singleton] at hmove
    have hlast : ((as ++ bs) ++ List.replicate (n + 1) 0#64).getLast? = some 0#64 := by
      rw [List.replicate_succ', ← List.append_assoc, List.getLast?_concat]
    have hblen : ((as ++ bs) ++ List.replicate (n + 1) 0#64).length =
        as.length + bs.length + (n + 1) := by
      rw [List.length_append, List.length_append, List.length_replicate]
    have hsrc : (((as ++ bs) ++ List.replicate (n + 1) 0#64).drop as.length).take
        (as.length + bs.length + (n + 1) - 1 - as.length) =
          bs ++ List.replicate n 0#64 := by
      rw [List.append_assoc, List.drop_left, ← hfront,
        show as.length + bs.length + (n + 1) - 1 - as.length = bs.length + n by omega]
    refine ⟨n, ?_⟩
    rw [hlast, expect_some, ok_bind, if_pos rfl, hblen,
      guardOk_pos (by omega), ok_bind,
      copyWithin_ok (by omega) (by omega), ok_bind, hsrc, hblock, hmove]
    have hdrop : tail.drop (bs ++ List.replicate n 0#64).length = [] := by
      apply List.drop_of_length_le
      simp [htlen]
    rw [hdrop, List.append_nil, guardOk_pos (by simp), ok_bind,
      List.append_assoc, List.set_append_right _ _ (Nat.le_refl _), Nat.sub_self]
    simp

/-- The shift of `remove_long`: the words behind a word move down. -/
theorem removeWord_ok (as bs : List U64) (x : U64) (n : Nat) :
    ∃ block, (copyWithin ((as ++ x :: bs) ++ List.replicate n 0#64)
        (as.length + 1) (as.length + bs.length - as.length) as.length :
        Call (List U64)) = .ok block ∧ as.length + bs.length < block.length ∧
      block.set (as.length + bs.length) 0#64 =
        (as ++ bs) ++ List.replicate (n + 1) 0#64 := by
  have hsrc : (((as ++ x :: bs) ++ List.replicate n 0#64).drop (as.length + 1)).take
      (as.length + bs.length - as.length) = bs := by
    rw [Nat.add_sub_cancel_left, ← List.drop_drop, List.append_assoc, List.drop_left]
    simp
  obtain ⟨y, hy⟩ : ∃ y, (x :: bs ++ List.replicate n 0#64).drop bs.length =
      y :: List.replicate n 0#64 := by
    have hlen : bs.length < (x :: bs).length := by simp
    refine ⟨(x :: bs)[bs.length], ?_⟩
    rw [List.drop_append_of_le_length (by simp), List.drop_eq_getElem_cons hlen,
      List.drop_of_length_le (by simp)]
    rfl
  refine ⟨(as ++ bs) ++ y :: List.replicate n 0#64, ?_, ?_, ?_⟩
  · rw [copyWithin_ok (by simp; omega) (by simp; omega), hsrc, List.append_assoc,
      splice_append, hy]
  · simp
  · rw [← List.length_append, List.set_append_right _ _ (Nat.le_refl _), Nat.sub_self,
      List.set_cons_zero, List.replicate_succ]

namespace BlockHolds

variable {index v : U64} {block : Option (List U64)} {slots ws : List U64} {j : Nat}

/-- A word is inserted into a block that stores some words. -/
theorem insert (h : BlockHolds index block ws) (hi : index ≠ 0#64) (hj : j < 64)
    (h0 : ws.getD j 0 = 0#64) (hv : v ≠ 0#64) :
    ∃ slots slots', block = .some slots ∧
      SparseFixedBitSet.insertWord slots (rank ws j) v = .ok slots' ∧
      BlockHolds (index ||| oneBit j) (.some slots') (ws.set j v) := by
  have hlen : j < ws.length := by rw [h.idx.len]; exact hj
  obtain ⟨n, hn⟩ := h.some hi
  have hcut := compress_cut hlen h0
  have hfull : (compress ws).length < 64 := h.idx.len ▸ compress_length_lt hlen h0
  rw [hcut] at hfull
  obtain ⟨m, hm⟩ := insertWord_ok (compress (ws.take j)) (compress (ws.drop (j + 1)))
    (hcut ▸ h.idx.compress_ne_nil hi)
    (fun a ha => ne_zero_of_mem_compress (hcut ▸ ha)) hfull n v
  rw [← hcut] at hm
  have hidx := h.idx.set_or hj hv
  refine ⟨_, _, hn, hm, hidx, fun h0 => ?_, fun _ => ⟨m, ?_⟩⟩
  · have hset := (hidx.eq_zero_iff.1 h0) j hj
    rw [getD_set ws hlen, if_pos rfl] at hset
    exact absurd hset hv
  · rw [compress_set_split hlen, if_neg hv]
    rfl

/-- The first word of a block. -/
theorem insertFirst (h : BlockHolds index block ws) (hi : index = 0#64) (hj : j < 64)
    (hv : v ≠ 0#64) : BlockHolds (oneBit j) (.some [v]) (ws.set j v) := by
  have hlen : j < ws.length := by rw [h.idx.len]; exact hj
  have hzero := h.idx.eq_zero_iff.1 hi
  have hnil : compress ws = [] := by
    rw [← List.length_eq_zero_iff, ← h.idx.countOnes_eq_length, hi]
    rfl
  have hidx := h.idx.set_or hj hv
  rw [hi, BitVec.zero_or] at hidx
  rw [compress_cut hlen (hzero j hj), List.append_eq_nil_iff] at hnil
  refine ⟨hidx, fun h0 => ?_, fun _ => ⟨0, ?_⟩⟩
  · have hset := (hidx.eq_zero_iff.1 h0) j hj
    rw [getD_set ws hlen, if_pos rfl] at hset
    exact absurd hset hv
  · rw [compress_set_split hlen, if_neg hv, hnil.1, hnil.2]
    rfl

/-- The last word of a block goes. -/
theorem removeLast (h : BlockHolds index block ws) (hj : j < 64)
    (hi : (index &&& ~~~oneBit j) = 0#64) :
    BlockHolds (index &&& ~~~oneBit j) .none (ws.set j 0#64) :=
  ⟨h.idx.set_remove hj, fun _ => rfl, fun hne => absurd hi hne⟩

/-- A word goes, and others stay. -/
theorem remove (h : BlockHolds index block ws) (hj : j < 64)
    (hne : ws.getD j 0 ≠ 0#64) (hi : (index &&& ~~~oneBit j) ≠ 0#64) :
    ∃ slots moved, block = .some slots ∧
      rank ws j ≤ countOnes (index &&& ~~~oneBit j) ∧
      (copyWithin slots (rank ws j + 1) (countOnes (index &&& ~~~oneBit j) - rank ws j)
        (rank ws j) : Call (List U64)) = .ok moved ∧
      countOnes (index &&& ~~~oneBit j) < moved.length ∧
      BlockHolds (index &&& ~~~oneBit j)
        (.some (moved.set (countOnes (index &&& ~~~oneBit j)) 0#64))
        (ws.set j 0#64) := by
  have hlen : j < ws.length := by rw [h.idx.len]; exact hj
  obtain ⟨n, hn⟩ := h.some (h.index_ne_zero hj hne)
  have hidx := h.idx.set_remove hj
  have hcut : compress (ws.set j 0#64) =
      compress (ws.take j) ++ compress (ws.drop (j + 1)) := by
    rw [compress_set_split hlen, if_pos rfl, List.nil_append]
  have hones : countOnes (index &&& ~~~oneBit j) =
      (compress (ws.take j)).length + (compress (ws.drop (j + 1))).length := by
    rw [hidx.countOnes_eq_length, hcut, List.length_append]
  obtain ⟨moved, hcopy, hmlen, hset⟩ := removeWord_ok (compress (ws.take j))
    (compress (ws.drop (j + 1))) (ws.getD j 0) n
  have hslots : compress ws = compress (ws.take j) ++
      ws.getD j 0 :: compress (ws.drop (j + 1)) := by
    rw [compress_split hlen, if_neg hne]
    rfl
  rw [hslots] at hn
  refine ⟨_, moved, hn, ?_, ?_, ?_, hidx, fun h0 => absurd h0 hi, fun _ => ⟨n + 1, ?_⟩⟩
  · rw [hones, rank]
    exact Nat.le_add_right _ _
  · rw [hones, rank]
    exact hcopy
  · rw [hones]
    exact hmlen
  · rw [hones, hset, hcut]

end BlockHolds

/-! ## The whole set -/

namespace SparseFixedBitSet

/-- The set holds the indices of `P`. -/
structure Holds (s : SparseFixedBitSet) (P : Nat → Bool) : Prop where
  bound : ∀ p, P p = true → p < s.length
  block : ∀ k < blockCount s.length,
    BlockHolds (s.indices.getD k 0) (s.bits.getD k none) (denseBlock P k)
  count : s.nonZeroLongCount = popcount s.indices

variable {s t : SparseFixedBitSet} {P Q : Nat → Bool} {k j : Nat}

theorem div_lt_blockCount {p length : Nat} (h : p < length) :
    p / 4096 < blockCount length := by
  have := Packed.le_mul_divCeil length (by decide : 0 < 4096)
  unfold blockCount
  omega

theorem Holds.congr (h : s.Holds P) (hPQ : ∀ p, P p = Q p) : s.Holds Q :=
  (funext hPQ : P = Q) ▸ h

theorem indexAt_ok (hk : k < blockCount s.length) :
    s.indexAt k = .ok (s.indices.getD k 0) := by
  rw [indexAt, List.getD_eq_getElem?_getD,
    List.getElem?_eq_getElem (by rw [s.indicesRoom]; exact hk)]
  rfl

theorem bitsAt_eq (hk : k < blockCount s.length) :
    s.bits[k]? = some (s.bits.getD k none) := by
  rw [List.getD_eq_getElem?_getD,
    List.getElem?_eq_getElem (by rw [s.bitsRoom]; exact hk)]
  rfl

theorem blockAt_ok (hk : k < blockCount s.length) {slots : List U64}
    (h : s.bits.getD k none = some slots) : s.blockAt k = .ok slots := by
  rw [blockAt, bitsAt_eq hk, expect_some, ok_bind, h,
    expect_some]

/-- A stored word and where it stands. -/
theorem Holds.stored (h : s.Holds P) (hk : k < blockCount s.length) (hj : j < 64)
    (hne : wordOf P (64 * k + j) ≠ 0#64) :
    ∃ slots, s.bits.getD k none = some slots ∧ s.blockAt k = .ok slots ∧
      slots[rank (denseBlock P k) j]? = some (wordOf P (64 * k + j)) := by
  rw [← denseBlock_getD P k hj] at hne ⊢
  obtain ⟨slots, hslots, hget⟩ := (h.block k hk).stored hj hne
  exact ⟨slots, hslots, blockAt_ok hk hslots, hget⟩

theorem Holds.and_oneBit_eq_zero (h : s.Holds P) (hk : k < blockCount s.length)
    (hj : j < 64) : (s.indices.getD k 0 &&& oneBit j) = 0#64 ↔
      wordOf P (64 * k + j) = 0#64 := by
  rw [(h.block k hk).idx.and_oneBit_eq_zero hj, denseBlock_getD P k hj]

theorem Holds.ordOf_eq (h : s.Holds P) (hk : k < blockCount s.length) (hj : j < 64) :
    ordOf (s.indices.getD k 0) (oneBit j) = rank (denseBlock P k) j :=
  (h.block k hk).idx.countOnes_and hj

/-- A block replaced by the compressed form of its new words. -/
theorem putBlock_holds (h : s.Holds P) (hk : k < blockCount s.length)
    {index : U64} {block : Option (List U64)} {count : Nat}
    (hblock : BlockHolds index block (denseBlock Q k))
    (hother : ∀ p, p / 4096 ≠ k → Q p = P p)
    (hbound : ∀ p, Q p = true → p < s.length)
    (hcount : count + countOnes (s.indices.getD k 0) =
      s.nonZeroLongCount + countOnes index) :
    (s.putBlock k index block count).Holds Q := by
  have hkI : k < s.indices.length := by rw [s.indicesRoom]; exact hk
  have hkB : k < s.bits.length := by rw [s.bitsRoom]; exact hk
  refine ⟨hbound, ?_, ?_⟩
  · intro i hi
    have hget : (s.bits.set k block).getD i none =
        if i = k then block else s.bits.getD i none := by
      rw [List.getD_eq_getElem?_getD, List.getElem?_set]
      by_cases hik : i = k
      · subst hik
        simp [hkB]
      · rw [if_neg (Ne.symm hik), if_neg hik, List.getD_eq_getElem?_getD]
    show BlockHolds ((s.indices.set k index).getD i 0) ((s.bits.set k block).getD i none) _
    rw [getD_set s.indices hkI, hget]
    by_cases hik : i = k
    · subst hik
      rw [if_pos rfl, if_pos rfl]
      exact hblock
    · rw [if_neg hik, if_neg hik,
        denseBlock_congr (P := Q) (Q := P) fun p hp => hother p (by omega)]
      exact h.block i hi
  · show count = popcount (s.indices.set k index)
    have := popcount_set hkI index
    rw [← h.count] at this
    omega

/-! ## The change of one word -/

/-- The bits `nb` set in word `w`. -/
def orBits (P : Nat → Bool) (w : Nat) (nb : U64) (p : Nat) : Bool :=
  P p || (decide (p / 64 = w) && nb.getLsbD (p % 64))

/-- Word `w` masked by `m`. -/
def andBits (P : Nat → Bool) (w : Nat) (m : U64) (p : Nat) : Bool :=
  P p && (!decide (p / 64 = w) || m.getLsbD (p % 64))

theorem wordOf_orBits (P : Nat → Bool) (w : Nat) (nb : U64) :
    wordOf (orBits P w nb) w = wordOf P w ||| nb := by
  apply BitVec.eq_of_getLsbD_eq
  intro b hb
  rw [BitVec.getLsbD_or, wordOf_getLsbD _ _ hb, wordOf_getLsbD _ _ hb, orBits,
    show (64 * w + b) / 64 = w by omega, show (64 * w + b) % 64 = b by omega]
  simp

theorem wordOf_andBits (P : Nat → Bool) (w : Nat) (m : U64) :
    wordOf (andBits P w m) w = wordOf P w &&& m := by
  apply BitVec.eq_of_getLsbD_eq
  intro b hb
  rw [BitVec.getLsbD_and, wordOf_getLsbD _ _ hb, wordOf_getLsbD _ _ hb, andBits,
    show (64 * w + b) / 64 = w by omega, show (64 * w + b) % 64 = b by omega]
  simp

theorem orBits_of_ne {w p : Nat} {nb : U64} (h : p / 64 ≠ w) :
    orBits P w nb p = P p := by
  simp [orBits, h]

theorem andBits_of_ne {w p : Nat} {m : U64} (h : p / 64 ≠ w) :
    andBits P w m p = P p := by
  simp [andBits, h]

/-- The call returns a set of the same length that holds `Q`. -/
def Yields (s : SparseFixedBitSet) (x : Call SparseFixedBitSet) (Q : Nat → Bool) :
    Prop :=
  ∃ t, x = .ok t ∧ t.length = s.length ∧ t.Holds Q

/-- A block put in the place of the block that holds word `j`. -/
theorem putWord_yields (h : s.Holds P) (hk : k < blockCount s.length) (hj : j < 64)
    (hother : ∀ p, p / 64 ≠ 64 * k + j → Q p = P p)
    (hbound : ∀ p, Q p = true → p < s.length) {index : U64}
    {block : Option (List U64)} {count : Nat}
    (hblock : BlockHolds index block
      ((denseBlock P k).set j (wordOf Q (64 * k + j))))
    (hcount : count + (if wordOf P (64 * k + j) = 0#64 then 0 else 1) =
      s.nonZeroLongCount + (if wordOf Q (64 * k + j) = 0#64 then 0 else 1)) :
    Yields s (.ok (s.putBlock k index block count)) Q := by
  refine ⟨_, rfl, rfl, ?_⟩
  have hones := (h.block k hk).idx.countOnes_set
    (by rw [denseBlock_length]; exact hj) hblock.idx
  rw [denseBlock_getD P k hj] at hones
  rw [← denseBlock_set hother] at hblock
  exact putBlock_holds h hk hblock (fun p hp => hother p (by omega)) hbound (by omega)

/-- `insert` of a word that is not stored. -/
theorem insert_yields (h : s.Holds P) (hk : k < blockCount s.length) (hj : j < 64)
    (hother : ∀ p, p / 64 ≠ 64 * k + j → Q p = P p)
    (hbound : ∀ p, Q p = true → p < s.length)
    (h0 : wordOf P (64 * k + j) = 0#64) (hne : wordOf Q (64 * k + j) ≠ 0#64) :
    Yields s (s.insert k (oneBit j) (wordOf Q (64 * k + j)) (s.indices.getD k 0)) Q := by
  have hblock := h.block k hk
  have hcount : s.nonZeroLongCount + 1 +
      (if wordOf P (64 * k + j) = 0#64 then 0 else 1) =
        s.nonZeroLongCount + (if wordOf Q (64 * k + j) = 0#64 then 0 else 1) := by
    rw [if_pos h0, if_neg hne]
  rw [insert]
  split
  · rename_i hi
    rw [bitsAt_eq hk, expect_some, ok_bind,
      guardOk_pos (hblock.none hi), ok_bind]
    exact putWord_yields h hk hj hother hbound (hblock.insertFirst hi hj hne) hcount
  · rename_i hi
    obtain ⟨slots, slots', hslots, hins, hnew⟩ := hblock.insert hi hj
      (by rw [denseBlock_getD P k hj]; exact h0) hne
    rw [indexAt_ok hk, ok_bind, blockAt_ok hk hslots, ok_bind,
      h.ordOf_eq hk hj, hins, ok_bind]
    exact putWord_yields h hk hj hother hbound hnew hcount

/-- `or_long`. -/
theorem orLong_yields (h : s.Holds P) (hk : k < blockCount s.length) (hj : j < 64)
    {nb : U64}
    (hbits : ∀ b < 64, nb.getLsbD b = true → 64 * (64 * k + j) + b < s.length) :
    Yields s (s.orLong k j nb) (orBits P (64 * k + j) nb) := by
  have hother : ∀ p, p / 64 ≠ 64 * k + j → orBits P (64 * k + j) nb p = P p :=
    fun p hp => orBits_of_ne hp
  have hbound : ∀ p, orBits P (64 * k + j) nb p = true → p < s.length := by
    intro p hp
    simp only [orBits, Bool.or_eq_true, Bool.and_eq_true, decide_eq_true_eq] at hp
    rcases hp with hp | ⟨hw, hb⟩
    · exact h.bound p hp
    · have := hbits (p % 64) (Nat.mod_lt p (by decide)) hb
      omega
  have hword := wordOf_orBits P (64 * k + j) nb
  rw [orLong]
  split
  · rename_i hnb
    subst hnb
    refine ⟨s, rfl, rfl, h.congr fun p => ?_⟩
    simp [orBits]
  rename_i hnb
  have hne : wordOf (orBits P (64 * k + j) nb) (64 * k + j) ≠ 0#64 := by
    rw [hword]
    intro h0
    exact hnb (BitVec.or_eq_zero_iff.1 h0).2
  rw [indexAt_ok hk, ok_bind]
  dsimp only
  split
  · rename_i hset
    rw [ne_eq, h.and_oneBit_eq_zero hk hj] at hset
    obtain ⟨slots, hslots, hblock, hget⟩ := h.stored hk hj hset
    rw [hblock, ok_bind, h.ordOf_eq hk hj, hget, expect_some,
      ok_bind, ← hword]
    have hold := h.block k hk
    rw [hslots] at hold
    refine putWord_yields h hk hj hother hbound
      (hold.replace hj (by rw [denseBlock_getD P k hj]; exact hset) hne) ?_
    rw [if_neg hset, if_neg hne]
  · rename_i hset
    rw [ne_eq, not_not, h.and_oneBit_eq_zero hk hj] at hset
    have hval : nb = wordOf (orBits P (64 * k + j) nb) (64 * k + j) := by
      rw [hword, hset, BitVec.zero_or]
    have := insert_yields h hk hj hother hbound hset hne
    rwa [← hval] at this

/-- `remove_long` of a word that is stored. -/
theorem removeLong_yields (h : s.Holds P) (hk : k < blockCount s.length) (hj : j < 64)
    (hother : ∀ p, p / 64 ≠ 64 * k + j → Q p = P p)
    (hbound : ∀ p, Q p = true → p < s.length)
    (hne : wordOf P (64 * k + j) ≠ 0#64) (h0 : wordOf Q (64 * k + j) = 0#64) :
    Yields s (s.removeLong k j (s.indices.getD k 0) (rank (denseBlock P k) j)) Q := by
  have hblock := h.block k hk
  have hne' : (denseBlock P k).getD j 0 ≠ 0#64 := by rw [denseBlock_getD P k hj]; exact hne
  have hpos : 1 ≤ s.nonZeroLongCount := by
    have hkI : k < s.indices.length := by rw [s.indicesRoom]; exact hk
    have hone := hblock.idx.countOnes_eq_length
    have hrank := rank_lt (by rw [denseBlock_length]; exact hj) hne'
    have hset := popcount_set hkI 0#64
    rw [h.count]
    have : countOnes 0#64 = 0 := rfl
    omega
  have hcount : s.nonZeroLongCount - 1 +
      (if wordOf P (64 * k + j) = 0#64 then 0 else 1) =
        s.nonZeroLongCount + (if wordOf Q (64 * k + j) = 0#64 then 0 else 1) := by
    rw [if_neg hne, if_pos h0]
    omega
  rw [removeLong]
  dsimp only
  rw [sub_of_le hpos, ok_bind]
  split
  · rename_i hi
    have hlast := hblock.removeLast hj hi
    rw [← h0] at hlast
    exact putWord_yields h hk hj hother hbound hlast hcount
  · rename_i hi
    obtain ⟨slots, moved, hslots, hle, hcopy, hlen, hnew⟩ := hblock.remove hj hne' hi
    rw [← h0] at hnew
    rw [blockAt_ok hk hslots, ok_bind, guardOk_pos hle, ok_bind,
      hcopy, ok_bind, guardOk_pos hlen, ok_bind, ← h0]
    exact putWord_yields h hk hj hother hbound hnew hcount

/-- `and`. -/
theorem and_yields (h : s.Holds P) (hk : k < blockCount s.length) (hj : j < 64)
    (m : U64) : Yields s (s.and k j m) (andBits P (64 * k + j) m) := by
  have hother : ∀ p, p / 64 ≠ 64 * k + j → andBits P (64 * k + j) m p = P p :=
    fun p hp => andBits_of_ne hp
  have hbound : ∀ p, andBits P (64 * k + j) m p = true → p < s.length := by
    intro p hp
    simp only [andBits, Bool.and_eq_true] at hp
    exact h.bound p hp.1
  have hword := wordOf_andBits P (64 * k + j) m
  rw [and, indexAt_ok hk, ok_bind]
  split
  · rename_i hset
    rw [ne_eq, h.and_oneBit_eq_zero hk hj] at hset
    obtain ⟨slots, hslots, hblock, hget⟩ := h.stored hk hj hset
    dsimp only
    rw [hblock, ok_bind, h.ordOf_eq hk hj, hget, expect_some,
      ok_bind, ← hword]
    split
    · rename_i h0
      exact removeLong_yields h hk hj hother hbound hset h0
    · rename_i hne
      have hold := h.block k hk
      rw [hslots] at hold
      refine putWord_yields h hk hj hother hbound
        (hold.replace hj (by rw [denseBlock_getD P k hj]; exact hset) hne) ?_
      rw [if_neg hset, if_neg hne]
  · rename_i hset
    rw [ne_eq, not_not, h.and_oneBit_eq_zero hk hj, wordOf_eq_zero_iff] at hset
    refine ⟨s, rfl, rfl, h.congr fun p => ?_⟩
    by_cases hp : p / 64 = 64 * k + j
    · have := hset (p % 64) (Nat.mod_lt p (by decide))
      rw [show 64 * (64 * k + j) + p % 64 = p by omega] at this
      simp [andBits, this]
    · exact (andBits_of_ne hp).symm

end SparseFixedBitSet

end LuceneRust.Util
