import LuceneRust.Codecs.IndexedDisi
import LuceneRust.Store.RoundTrip
import Mathlib.Data.List.Sort
import Mathlib.Data.Finset.Card
import Mathlib.Data.Finset.Range

/-!
# The blocks of a set of documents

`Block` is what the documents of one range of 65,536 are, whatever the
encoding: the index of the range and the low halves of the ids.  A region is
the bytes of some blocks in order, then those of the sentinel.

* `Block.words`, `rankTable`, `Block.bytes`: what a block is on disk.
* `Block.popcount_take`: the rank of a document in its block, from the words.
* `createRank_eq`, `writePayload_eq`: the writer writes these bytes.
* `writeWithDenseRankPower_eq`: the region of a set of documents, with its
  jump table.
-/

namespace LuceneRust.Codecs.IndexedDisi

open RustSem WordTape

/-! ## Blocks -/

/-- The documents of one range of 65,536. -/
structure Block where
  index : Nat
  lows : List Nat
  sorted : lows.Pairwise (· < ·)
  low_lt : ∀ l ∈ lows, l < 65536
  pos : 0 < lows.length
  index_lt : index < 32768

namespace Block

variable (b : Block)

/-- The documents, in order. -/
def docs : List Nat := b.lows.map fun l => 65536 * b.index + l

/-- A word of the bit set of a DENSE block. -/
def word (i : Nat) : U64 := ofBits (fun j => decide (64 * i + j ∈ b.lows)) 64

/-- The bit set of a DENSE block. -/
def words : List U64 := (List.range 1024).map b.word

@[simp] theorem words_length : b.words.length = 1024 := by
  rw [words, List.length_map, List.length_range]

theorem mem_docs {d : Nat} : d ∈ b.docs ↔ ∃ l ∈ b.lows, 65536 * b.index + l = d :=
  List.mem_map

theorem docs_sorted : b.docs.Pairwise (· < ·) :=
  List.pairwise_map.2 (b.sorted.imp fun h => Nat.add_lt_add_left h _)

@[simp] theorem docs_length : b.docs.length = b.lows.length := List.length_map ..

/-- A document of the block is in its range. -/
theorem docs_range {d : Nat} (h : d ∈ b.docs) :
    65536 * b.index ≤ d ∧ d < 65536 * (b.index + 1) := by
  obtain ⟨l, hl, rfl⟩ := b.mem_docs.1 h
  have hlt := b.low_lt l hl
  omega

/-- A document of the range is in the block if its low half is. -/
theorem mem_docs_iff {d : Nat} (h : d / 65536 = b.index) : d ∈ b.docs ↔ d % 65536 ∈ b.lows := by
  rw [mem_docs]
  constructor
  · rintro ⟨l, hl, rfl⟩
    have hlt := b.low_lt l hl
    rwa [show (65536 * b.index + l) % 65536 = l by omega]
  · intro hmem
    exact ⟨d % 65536, hmem, by omega⟩

theorem lows_subset : b.lows.toFinset ⊆ Finset.range 65536 := by
  intro l hl
  rw [List.mem_toFinset] at hl
  rw [Finset.mem_range]
  exact b.low_lt l hl

theorem nodup : b.lows.Nodup := b.sorted.imp fun h => h.ne

theorem card_lows : b.lows.toFinset.card = b.lows.length :=
  List.toFinset_card_of_nodup b.nodup

theorem length_le : b.lows.length ≤ 65536 := by
  have hcard := Finset.card_le_card b.lows_subset
  rwa [card_lows, Finset.card_range] at hcard

/-- A block of 65,536 documents has them all. -/
theorem mem_of_full (h : b.lows.length = 65536) {l : Nat} (hl : l < 65536) : l ∈ b.lows := by
  have heq : b.lows.toFinset = Finset.range 65536 :=
    Finset.eq_of_subset_of_card_le b.lows_subset (by rw [card_lows, Finset.card_range, h])
  rw [← List.mem_toFinset, heq, Finset.mem_range]
  exact hl

/-- The low halves of a block of 65,536 documents. -/
theorem lows_of_full (h : b.lows.length = 65536) : b.lows = List.range 65536 :=
  b.sorted.eq_of_mem_iff List.pairwise_lt_range fun l =>
    ⟨fun hl => List.mem_range.2 (b.low_lt l hl), fun hl => b.mem_of_full h (List.mem_range.1 hl)⟩

/-! ### Bits -/

theorem getLsbD_word {i j : Nat} (hj : j < 64) :
    (b.word i).getLsbD j = decide (64 * i + j ∈ b.lows) := by
  rw [word, getLsbD_ofBits, decide_eq_true hj, Bool.true_and]

theorem words_getElem? {i : Nat} (hi : i < 1024) : b.words[i]? = some (b.word i) := by
  rw [words, List.getElem?_map, List.getElem?_range hi, Option.map_some]

theorem lsbAt_words (p : Nat) : lsbAt b.words p = decide (p ∈ b.lows) := by
  by_cases hp : p < 65536
  · rw [lsbAt, List.getD_eq_getElem?_getD, b.words_getElem? (by omega), Option.getD_some,
      b.getLsbD_word (Nat.mod_lt p (by decide)), Nat.div_add_mod]
  · rw [lsbAt_of_ge (by rw [words_length]; omega), eq_comm, decide_eq_false_iff_not]
    exact fun h => hp (b.low_lt p h)

theorem lsbAt_take_words {n p : Nat} (hn : n ≤ 1024) (hp : p < 64 * n) :
    lsbAt (b.words.take n) p = decide (p ∈ b.lows) := by
  have hbit := lsbAt_take_append b.words [] p (n := n) (by rw [words_length]; exact hn)
  rwa [List.append_nil, if_pos hp, lsbAt_words] at hbit

/-- The bits of the words before one are the documents before its first one. -/
theorem popcount_take {n : Nat} (hn : n ≤ 1024) :
    popcount (b.words.take n) = b.lows.countP (· < 64 * n) := by
  have hlen : (b.words.take n).length = n := by
    rw [List.length_take, words_length]
    omega
  rw [popcount_eq, hlen, List.countP_eq_length_filter, List.countP_eq_length_filter]
  refine congrArg List.length ((List.pairwise_lt_range.filter _).eq_of_mem_iff
    (b.sorted.filter _) fun p => ?_)
  rw [List.mem_filter, List.mem_filter, List.mem_range, decide_eq_true_iff]
  constructor
  · rintro ⟨hp, hbit⟩
    rw [b.lsbAt_take_words hn hp, decide_eq_true_iff] at hbit
    exact ⟨hbit, hp⟩
  · rintro ⟨hmem, hp⟩
    exact ⟨hp, (b.lsbAt_take_words hn hp).trans (decide_eq_true hmem)⟩

end Block

/-! ## The rank table -/

/-- One byte of a rank table: every entry is two, and counts the bits of the
words before its own. -/
def rankByte (power : Nat) (words : List U64) (i : Nat) : U8 :=
  let ones := popcount (words.take ((i / 2) <<< (power - 6)))
  if i % 2 = 0 then BitVec.ofNat 8 (ones >>> 8) else BitVec.ofNat 8 (ones &&& 0xFF)

/-- The rank table of a bit set. -/
def rankTable (power : Nat) (words : List U64) : List U8 :=
  (List.range (denseBlockLongs >>> (power - 7))).map (rankByte power words)

theorem popcount_take_succ {words : List U64} {n : Nat} (hn : n < words.length) :
    popcount (words.take (n + 1)) = popcount (words.take n) + countOnes words[n] := by
  rw [List.take_succ_eq_append_getElem hn, popcount, popcount, List.map_append, List.sum_append]
  rfl

/-- The entries that a table of `2 ^ q` bytes per 1,024 has. -/
theorem rankTable_size {q : Nat} (hq : q ≤ 8) :
    ∃ k, 1024 >>> q = 2 * k ∧ k * (2 * 2 ^ q) = 1024 := by
  refine ⟨2 ^ (9 - q), ?_, ?_⟩ <;> interval_cases q <;> rfl

/-- What is written after the words that were visited. -/
structure RankInv (power : Nat) (words : List U64) (n : Nat) (s : List U8 × Nat) : Prop where
  length : s.1.length = denseBlockLongs >>> (power - 7)
  ones : s.2 = popcount (words.take n)
  entry : ∀ i < s.1.length, (i / 2) <<< (power - 6) < n → s.1[i]? = some (rankByte power words i)

theorem createRankPass_inv {power n : Nat} {words : List U64} {s : List U8 × Nat}
    (hpower : 7 ≤ power ∧ power ≤ 15) (hlen : words.length = denseBlockLongs)
    (h : RankInv power words n s) (hn : n < words.length) :
    ∃ s', createRankPass power s (words[n], n) = .ok s' ∧ RankInv power words (n + 1) s' := by
  obtain ⟨rank, ones⟩ := s
  obtain ⟨hrank, hones, hentry⟩ := h
  obtain ⟨k, hk, hk'⟩ := rankTable_size (q := power - 7) (by omega)
  have hpow : 2 ^ (power - 6) = 2 * 2 ^ (power - 7) := by
    rw [show power - 6 = power - 7 + 1 by omega, Nat.pow_succ']
  dsimp only at hrank hones hentry
  rw [denseBlockLongs] at hlen hrank
  have hmark : n &&& (1 <<< (power - 6)) - 1 = n % (2 * 2 ^ (power - 7)) := by
    rw [Nat.one_shiftLeft, Nat.and_two_pow_sub_one_eq_mod, hpow]
  have hshift : ∀ i, i <<< (power - 6) = i * (2 * 2 ^ (power - 7)) := fun i => by
    rw [Nat.shiftLeft_eq, hpow]
  have hpos : 0 < 2 ^ (power - 7) := Nat.two_pow_pos _
  have hones' : ones + countOnes words[n] = popcount (words.take (n + 1)) := by
    rw [popcount_take_succ hn, hones]
  rw [createRankPass, hmark, Nat.shiftRight_eq_div_pow]
  generalize 2 ^ (power - 7) = p at *
  split
  next hmod =>
    -- the word is the first one of an entry
    obtain ⟨e, he⟩ := Nat.dvd_of_mod_eq_zero hmod
    have hdiv : n / p = 2 * e := by
      rw [he, Nat.mul_right_comm, Nat.mul_div_cancel _ hpos]
    have hlt : e < k := by
      have hlt : e * (2 * p) < k * (2 * p) := by
        rw [hk', mul_comm, ← he]
        omega
      exact lt_of_mul_lt_mul_right hlt (Nat.zero_le _)
    rw [hdiv, guardOk_pos (by omega), ok_bind]
    refine ⟨_, rfl, by rw [List.length_set, List.length_set, hrank]; rfl, hones', fun i hi hle => ?_⟩
    rw [List.length_set, List.length_set] at hi
    have htake : (i / 2 = e) → popcount (words.take ((i / 2) <<< (power - 6))) = ones := by
      rintro rfl
      rw [hshift, mul_comm, ← he, hones]
    rw [hshift] at hle
    rw [List.getElem?_set, List.getElem?_set]
    rcases Nat.lt_trichotomy (i / 2) e with hlt' | heq | hgt
    · rw [if_neg (by omega), if_neg (by omega)]
      refine hentry i hi ?_
      rw [hshift, he, mul_comm (2 * p)]
      exact Nat.mul_lt_mul_of_pos_right hlt' (by omega)
    · rw [rankByte, htake heq]
      by_cases hodd : i % 2 = 0
      · rw [if_neg (by omega), if_pos (by omega), if_pos (by omega), if_pos hodd]
      · rw [if_pos (by omega), if_pos (by rw [List.length_set]; omega), if_neg hodd]
    · have hge := Nat.mul_le_mul_right (2 * p) hgt
      rw [Nat.succ_mul] at hge
      rw [he, mul_comm (2 * p)] at hle
      omega
  next hmod =>
    refine ⟨_, rfl, hrank, hones', fun i hi hle => hentry i hi (lt_of_le_of_ne (by omega) ?_)⟩
    rintro heq
    rw [hshift] at heq
    exact hmod (by rw [← heq, Nat.mul_mod_left])

/-- The writer's table. -/
theorem createRank_eq {power : Nat} {words : List U64} (hpower : 7 ≤ power ∧ power ≤ 15)
    (hlen : words.length = denseBlockLongs) :
    createRank words power = .ok (rankTable power words) := by
  obtain ⟨⟨rank, ones⟩, hloop, hinv⟩ := foldlM_visited
    (f := createRankPass power) (fun seen s => RankInv power words seen.length s) words.zipIdx
    (fun seen a s hsplit h => by
      obtain ⟨rest, hrest⟩ := hsplit
      have hlt : seen.length < words.length := by
        rw [← List.length_zipIdx (l := words) (i := 0), hrest, List.length_append,
          List.length_cons]
        omega
      have ha : words.zipIdx[seen.length]? = some a := by
        rw [hrest, List.getElem?_append_right (Nat.le_refl _), Nat.sub_self, List.getElem?_cons_zero]
      rw [List.getElem?_zipIdx, List.getElem?_eq_getElem hlt, Option.map_some, Nat.zero_add,
        Option.some.injEq] at ha
      rw [← ha, List.length_append]
      exact createRankPass_inv hpower hlen h hlt)
    (List.replicate (denseBlockLongs >>> (power - 7)) 0#8, 0)
    ⟨List.length_replicate, rfl, fun i _ h => absurd h (Nat.not_lt_zero _)⟩
  obtain ⟨hrank, -, hentry⟩ := hinv
  rw [List.length_zipIdx] at hentry
  rw [createRank, guardOk_pos hlen, ok_bind]
  dsimp only
  rw [hloop, ok_bind]
  refine congrArg Outcome.ok (List.ext_getElem? fun i => ?_)
  by_cases hi : i < rank.length
  · have hsize : (i / 2) <<< (power - 6) < words.length := by
      obtain ⟨k, hk, hk'⟩ := rankTable_size (q := power - 7) (by omega)
      dsimp only at hrank
      rw [denseBlockLongs] at hlen hrank
      rw [Nat.shiftLeft_eq, show power - 6 = (power - 7) + 1 by omega, Nat.pow_succ', hlen, ← hk']
      exact Nat.mul_lt_mul_of_pos_right (by omega)
        (Nat.mul_pos (by decide) (Nat.two_pow_pos _))
    rw [hentry i hi hsize, rankTable, List.getElem?_map,
      List.getElem?_range (by rw [← hrank]; exact hi)]
    rfl
  · rw [List.getElem?_eq_none (Nat.le_of_not_lt hi), List.getElem?_eq_none]
    rw [rankTable, List.length_map, List.length_range, ← hrank]
    exact Nat.le_of_not_lt hi

/-! ## The bytes of a block -/

/-- The rank table of a DENSE block, if it has one. -/
def rankPart (power : U8) (words : List U64) : List U8 :=
  if power = noRank then [] else rankTable power.toNat words

namespace Block

variable (power : U8) (b : Block)

/-- The documents, as the writer takes them. -/
def ids : List Int := b.docs.map fun d : Nat => (d : Int)

/-- What a block holds behind its header. -/
def payload : List U8 :=
  if b.lows.length ≤ maxArrayLength then b.lows.flatMap fun l => toLeBytes 2 (BitVec.ofNat 16 l)
  else if b.lows.length = blockSize then []
  else rankPart power b.words ++ b.words.flatMap (toLeBytes 8)

/-- A block on disk. -/
def bytes : List U8 :=
  toLeBytes 2 (BitVec.ofNat 16 b.index) ++ toLeBytes 2 (BitVec.ofNat 16 (b.lows.length - 1)) ++
    b.payload power

end Block

theorem foldl_append_flatMap {α : Type} (f : α → List U8) : ∀ (l : List α) (out : List U8),
    l.foldl (fun out a => out ++ f a) out = out ++ l.flatMap f
  | [], out => (List.append_nil out).symm
  | a :: l, out => by
    rw [List.foldl_cons, foldl_append_flatMap f l, List.flatMap_cons, List.append_assoc]

/-- The writer's bit set. -/
theorem foldlM_setRel (b : Block) :
    b.ids.foldlM (setRel ((65536 * b.index : Nat) : Int)) (List.replicate denseBlockLongs 0#64) =
      .ok b.words := by
  obtain ⟨ws, hloop, hlen, hbits⟩ := foldlM_visited
    (f := setRel ((65536 * b.index : Nat) : Int))
    (fun seen ws => ws.length = 1024 ∧
      ∀ p : Nat, lsbAt ws p = decide (((65536 * b.index + p : Nat) : Int) ∈ seen)) b.ids
    (fun seen d ws hsplit h => by
      obtain ⟨rest, hrest⟩ := hsplit
      obtain ⟨hlen, hbits⟩ := h
      have hmem : d ∈ b.ids := by
        rw [hrest]
        exact List.mem_append_right _ (List.mem_cons_self ..)
      obtain ⟨_, hdoc, rfl⟩ := List.mem_map.1 hmem
      obtain ⟨l, hl, rfl⟩ := b.mem_docs.1 hdoc
      have hlt := b.low_lt l hl
      have hrel : (((65536 * b.index + l : Nat) : Int) - (65536 * b.index : Nat)).toNat = l := by
        omega
      rw [setRel, hrel, guardOk_pos (by omega), ok_bind]
      refine ⟨_, rfl, by rw [List.length_modify, hlen], fun p => ?_⟩
      have hp : p % 64 < 64 := Nat.mod_lt p (by decide)
      rw [lsbAt_modify_mask (by omega) bitwise_or Bool.or_false, getLsbD_oneBit hp, hbits]
      refine Bool.eq_iff_iff.2 ?_
      rw [Bool.or_eq_true, Bool.and_eq_true, decide_eq_true_iff, decide_eq_true_iff,
        decide_eq_true_iff, decide_eq_true_iff, List.mem_append, List.mem_singleton]
      refine or_congr_right ?_
      omega)
    (List.replicate denseBlockLongs 0#64)
    ⟨List.length_replicate, fun p => by rw [lsbAt_zero, decide_eq_false List.not_mem_nil]⟩
  rw [hloop]
  refine congrArg Outcome.ok (eq_of_lsbAt (by rw [hlen, b.words_length]) fun p => ?_)
  rw [hbits, b.lsbAt_words]
  refine decide_eq_decide.2 ?_
  rw [Block.ids, List.mem_map]
  constructor
  · rintro ⟨d, hd, heq⟩
    obtain ⟨l, hl, rfl⟩ := b.mem_docs.1 hd
    rwa [show p = l by omega]
  · intro hp
    exact ⟨_, b.mem_docs.2 ⟨p, hp, rfl⟩, rfl⟩

/-- The power that the writer takes. -/
def Legal (power : U8) : Prop := power = noRank ∨ (7 ≤ power.toNat ∧ power.toNat ≤ 15)

theorem writePayload_eq {power : U8} (hpower : Legal power) (b : Block) (out : List U8) :
    writePayload power ((65536 * b.index : Nat) : Int) b.ids out =
      .ok (out ++ b.payload power) := by
  have hlen : b.ids.length = b.lows.length := by
    rw [Block.ids, List.length_map, b.docs_length]
  rw [writePayload, hlen, Block.payload]
  split
  next =>
    have hfold := foldl_append_flatMap
      (fun d : Int => toLeBytes 2 (BitVec.ofInt 16 (d - (65536 * b.index : Nat)))) b.ids out
    refine congrArg Outcome.ok (hfold.trans (congrArg (out ++ ·) ?_))
    rw [Block.ids, Block.docs, List.flatMap_map, List.flatMap_map]
    refine List.flatMap_congr fun l _ => ?_
    rw [← BitVec.ofInt_natCast, Int.natCast_add, add_sub_cancel_left]
  next =>
    split
    next => rw [List.append_nil]
    next =>
      have hwords : ∀ out : List U8, b.words.foldl Store.writeI64 out =
          out ++ b.words.flatMap (toLeBytes 8) := foldl_append_flatMap (toLeBytes 8) b.words
      rw [foldlM_setRel, ok_bind]
      by_cases hno : power = noRank
      · rw [if_neg (not_not_intro hno), rankPart, if_pos hno, hwords, List.nil_append]
      · rw [if_pos hno, rankPart, if_neg hno, createRank_eq (hpower.resolve_left hno) b.words_length,
          ok_bind, hwords, List.append_assoc]

/-- The bytes that a reader skips. -/
theorem denseRankBytes_eq {power : U8} (hpower : Legal power) (words : List U64) :
    denseRankBytes power = .ok (rankPart power words).length := by
  rw [denseRankBytes, rankPart]
  split
  next => rfl
  next hno =>
    rw [if_neg (not_not_intro (hpower.resolve_left hno)), rankTable, List.length_map,
      List.length_range]

theorem rankTable_length_le (power : Nat) (words : List U64) :
    (rankTable power words).length ≤ 1024 := by
  rw [rankTable, List.length_map, List.length_range]
  exact Nat.shiftRight_le _ _

theorem length_flatMap_le {α : Type} {f : α → List U8} {n : Nat} : ∀ {l : List α},
    (∀ a ∈ l, (f a).length ≤ n) → (l.flatMap f).length ≤ l.length * n
  | [], _ => Nat.zero_le _
  | a :: l, h => by
    rw [List.forall_mem_cons] at h
    have hle := length_flatMap_le h.2
    rw [List.flatMap_cons, List.length_append, List.length_cons, Nat.succ_mul]
    omega

/-- The most that a block takes. -/
theorem Block.bytes_length_le (power : U8) (b : Block) : (b.bytes power).length ≤ 9220 := by
  rw [bytes, List.length_append, List.length_append, toLeBytes_length, toLeBytes_length, payload]
  split
  next h =>
    have hle := length_flatMap_le (f := fun l => toLeBytes 2 (BitVec.ofNat 16 l)) (l := b.lows)
      (n := 2) fun l _ => (toLeBytes_length 2 _).le
    rw [maxArrayLength] at h
    omega
  next =>
    split
    next => decide
    next =>
      have hrank : (rankPart power b.words).length ≤ 1024 := by
        rw [rankPart]
        split
        · decide
        · exact rankTable_length_le _ _
      have hle := length_flatMap_le (f := toLeBytes 8) (l := b.words) (n := 8)
        fun w _ => (toLeBytes_length 8 w).le
      rw [b.words_length] at hle
      rw [List.length_append]
      omega

end LuceneRust.Codecs.IndexedDisi
