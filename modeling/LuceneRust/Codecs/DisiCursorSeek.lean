import LuceneRust.Codecs.DisiCursorSpec

/-!
# Seeks, lookups and windows of a `DisiCursor`

`Ready` is what holds of a cursor over a region between two calls, whether its
jump table is used or not, and every call keeps it.

* `Covers.at_block`: what a block says about the documents of its range.
* `advanceBlock_sought`: a seek ends at the first block that is not before the
  target, by the table as by the walk.
* `advanceExact_ready`, `advanceExactInBlock_ready`: a lookup answers with the
  rank of the document.
* `windowBits_ready`: a window has the bits of its documents.
-/

namespace LuceneRust.Codecs.IndexedDisi

open RustSem WordTape
open Store (Result)

/-! ## The documents of a region -/

/-- The blocks of a set of documents, in order. -/
structure Covers (bs : List Block) (ns : List Nat) : Prop where
  ordered : Ordered bs
  docs : bs.flatMap Block.docs = ns
  sorted : ns.Pairwise (· < ·)
  lt : ∀ d ∈ ns, d < 2147483647

section

variable {bs : List Block} {ns : List Nat}

/-- Every list of documents that the writer takes is in blocks. -/
theorem Covers.length_le (h : Covers bs ns) : ns.length ≤ 2147483647 := by
  have hsub : ns.toFinset ⊆ Finset.range 2147483647 := by
    intro d hd
    exact Finset.mem_range.2 (h.lt d (List.mem_toFinset.1 hd))
  have hcard := Finset.card_le_card hsub
  rwa [List.toFinset_card_of_nodup (h.sorted.imp fun hlt => hlt.ne), Finset.card_range] at hcard

theorem Covers.block_lt (h : Covers bs ns) {b : Block} (hb : b ∈ bs) {d : Nat} (hd : d ∈ b.docs) :
    d < 2147483647 :=
  h.lt d (h.docs ▸ List.mem_flatMap.2 ⟨b, hb, hd⟩)

/-- The blocks behind one are behind its range, or the sentinel. -/
theorem Covers.separate (h : Covers bs ns) :
    (bs ++ [sentinel]).Pairwise fun b c => b.index < c.index ∨ c = sentinel :=
  List.pairwise_append.2 ⟨h.ordered.imp Or.inl, List.pairwise_singleton _ _, fun _ _ _ hc =>
    Or.inr (List.mem_singleton.1 hc)⟩

theorem sentinel_docs : sentinel.docs = [2147483647] := rfl

/-- The rank of a place is at most the number of documents. -/
theorem Covers.rank_le (h : Covers bs ns) (k : Nat) :
    rank (bs ++ [sentinel]) k ≤ ns.length + 1 := by
  have hlen : rank (bs ++ [sentinel]) k + (((bs ++ [sentinel]).drop k).flatMap Block.docs).length =
      ((bs ++ [sentinel]).flatMap Block.docs).length := by
    rw [rank, ← List.length_append, ← List.flatMap_append, List.take_append_drop]
  rw [List.flatMap_append, h.docs, List.flatMap_singleton, List.length_append, sentinel_docs,
    List.length_singleton] at hlen
  omega

theorem Covers.rank_prefix (h : Covers bs ns) {k : Nat} (hk : k ≤ bs.length) :
    rank (bs ++ [sentinel]) k ≤ ns.length := by
  have hlen : ((bs.take k).flatMap Block.docs).length +
      ((bs.drop k).flatMap Block.docs).length = (bs.flatMap Block.docs).length := by
    rw [← List.length_append, ← List.flatMap_append, List.take_append_drop]
  rw [h.docs] at hlen
  rw [rank, List.take_append_of_le_length hk]
  omega

/-- What a block says about the documents of a range, when the blocks before it
are before the range. -/
theorem Covers.at_block (h : Covers bs ns) {k t : Nat} {b : Block}
    (hget : (bs ++ [sentinel])[k]? = some b) (ht : t < 2147483647) (hle : t / 65536 ≤ b.index)
    (hbefore : ∀ c ∈ (bs ++ [sentinel]).take k, c.index < t / 65536) :
    (t ∈ ns ↔ t ∈ b.docs) ∧
      ns.countP (· < t) = rank (bs ++ [sentinel]) k + b.docs.countP (· < t) := by
  obtain ⟨hk, hb⟩ := List.getElem?_eq_some_iff.1 hget
  have hall : ns ++ [2147483647] = ((bs ++ [sentinel]).take k).flatMap Block.docs ++
      (b.docs ++ ((bs ++ [sentinel]).drop (k + 1)).flatMap Block.docs) := by
    rw [← h.docs, ← sentinel_docs, ← List.flatMap_singleton Block.docs sentinel,
      ← List.flatMap_append, ← hb, ← List.flatMap_cons, ← List.drop_eq_getElem_cons hk,
      ← List.flatMap_append, List.take_append_drop]
  have hpre : ∀ d ∈ ((bs ++ [sentinel]).take k).flatMap Block.docs, d < t := by
    intro d hd
    obtain ⟨c, hc, hd⟩ := List.mem_flatMap.1 hd
    have hrange := c.docs_range hd
    have hlt := hbefore c hc
    omega
  have hpost : ∀ d ∈ ((bs ++ [sentinel]).drop (k + 1)).flatMap Block.docs, t < d := by
    intro d hd
    obtain ⟨c, hc, hd⟩ := List.mem_flatMap.1 hd
    have hsep := h.separate
    rw [← List.take_append_drop k (bs ++ [sentinel]), List.drop_eq_getElem_cons hk, hb] at hsep
    rcases (List.pairwise_cons.1 (List.pairwise_append.1 hsep).2.1).1 c hc with hlt | rfl
    · have hrange := c.docs_range hd
      omega
    · rw [sentinel_docs, List.mem_singleton] at hd
      omega
  have hmem : t ∈ ns ↔ t ∈ ns ++ [2147483647] := by
    rw [List.mem_append, List.mem_singleton]
    exact ⟨Or.inl, fun h => h.resolve_right ht.ne⟩
  have hcount : ns.countP (· < t) = (ns ++ [2147483647]).countP (· < t) := by
    rw [List.countP_append, List.countP_singleton, if_neg (by rw [decide_eq_true_iff]; omega),
      Nat.add_zero]
  refine ⟨?_, ?_⟩
  · rw [hmem, hall, List.mem_append, List.mem_append]
    constructor
    · rintro (h | h | h)
      · exact absurd (hpre t h) (Nat.lt_irrefl t)
      · exact h
      · exact absurd (hpost t h) (Nat.lt_irrefl t)
    · exact fun h => Or.inr (Or.inl h)
  · have hnone : (((bs ++ [sentinel]).drop (k + 1)).flatMap Block.docs).countP (· < t) = 0 :=
      List.countP_eq_zero.2 fun d hd => by
        rw [decide_eq_true_iff]
        exact Nat.not_lt.2 (hpost d hd).le
    rw [hcount, hall, List.countP_append, List.countP_append,
      List.countP_eq_length.2 fun d hd => decide_eq_true (hpre d hd), hnone]
    rfl

end

/-- The rank of a document in its block. -/
theorem Block.countP_docs (b : Block) {t : Nat} (ht : t / 65536 = b.index) :
    b.docs.countP (· < t) = b.lows.countP (· < t % 65536) := by
  rw [docs, List.countP_map]
  refine List.countP_congr fun l _ => ?_
  rw [Function.comp_apply, decide_eq_true_iff, decide_eq_true_iff]
  omega

/-! ## The cursor between two calls -/

/-- The cursor is over the region of some blocks, with the writer's table or
with none. -/
structure OnRegion (power : U8) (bs : List Block) (c : DisiCursor) : Prop where
  data : ∃ tail, c.data = region power bs ++ tail
  denseRankPower : c.denseRankPower = power
  table : c.jumpTable = [] ∨ (c.jumpTable = tableBytes power bs ∧
    c.jumpTableEntryCount = (tableCount bs : Int) ∧ 0 < tableCount bs)

/-- The cursor is at the block of index `k`, which is the first one that is
not before the last document asked for. -/
structure Standing (power : U8) (bs : List Block) (c : DisiCursor) (k : Nat) (b : Block) :
    Prop where
  loaded : Loaded power (bs ++ [sentinel]) k b c
  positioned : Positioned b (rank (bs ++ [sentinel]) k) c.doc c
  nonneg : 0 ≤ c.doc
  le : c.doc < ((65536 * (b.index + 1) : Nat) : Int)
  before : ∀ d ∈ (bs ++ [sentinel]).take k, ((65536 * (d.index + 1) : Nat) : Int) ≤ c.doc

/-- No block is read yet. -/
structure AtStart (c : DisiCursor) : Prop where
  block : c.block = -1
  blockEnd : c.blockEnd = 0
  next : c.nextBlockIndex = -1
  doc : c.doc = -1

/-- What holds of a cursor between two calls. -/
structure Ready (power : U8) (bs : List Block) (c : DisiCursor) : Prop where
  region : OnRegion power bs c
  place : c.doc = noMoreDocs ∨ AtStart c ∨ ∃ k b, Standing power bs c k b

theorem OnRegion.moved {power : U8} {bs : List Block} {c c' : DisiCursor}
    (h : OnRegion power bs c) (hm : c.Moved c') : OnRegion power bs c' where
  data := by rw [hm.data]; exact h.data
  denseRankPower := hm.denseRankPower.trans h.denseRankPower
  table := by rw [hm.jumpTable, hm.jumpTableEntryCount]; exact h.table

/-- A cursor over another last document. -/
theorem OnRegion.doc {power : U8} {bs : List Block} {c : DisiCursor} (h : OnRegion power bs c)
    (doc : Int) : OnRegion power bs { c with doc := doc } :=
  ⟨h.data, h.denseRankPower, h.table⟩

/-! ## Seeking -/

/-- The place of the first block that is not before an index. -/
def placeOf (bs : List Block) (j : Nat) : Nat := (bs.takeWhile fun b => b.index < j).length

section

variable {power : U8} {bs : List Block} {ns : List Nat} {c : DisiCursor} {j : Nat}

theorem take_placeOf (bs : List Block) (j : Nat) :
    (bs ++ [sentinel]).take (placeOf bs j) = bs.takeWhile fun b => b.index < j := by
  have hprefix := List.takeWhile_prefix (l := bs) fun b => decide (b.index < j)
  rw [placeOf, List.take_append_of_le_length hprefix.length_le]
  exact (List.prefix_iff_eq_take.1 hprefix).symm

theorem placeOf_before {b : Block} (hb : b ∈ (bs ++ [sentinel]).take (placeOf bs j)) :
    b.index < j := by
  rw [take_placeOf] at hb
  exact of_decide_eq_true (List.mem_takeWhile_imp (p := fun b : Block => decide (b.index < j)) hb)

theorem placeOf_get (hj : j < 32768) : ∀ bs : List Block,
    ∃ b, (bs ++ [sentinel])[placeOf bs j]? = some b ∧ j ≤ b.index
  | [] => ⟨sentinel, rfl, Nat.le_of_lt_succ hj⟩
  | b :: bs => by
    by_cases hb : b.index < j
    · obtain ⟨c, hget, hle⟩ := placeOf_get hj bs
      refine ⟨c, ?_, hle⟩
      rw [placeOf, List.takeWhile_cons, if_pos (decide_eq_true hb), List.length_cons]
      exact hget
    · refine ⟨b, ?_, Nat.le_of_not_lt hb⟩
      rw [placeOf, List.takeWhile_cons, if_neg (by rw [decide_eq_true_iff]; exact hb)]
      rfl

/-! ### By the jump table -/

theorem jumpAt_eq (power : U8) (bs : List Block) (j : Nat) : jumpAt power bs j =
    ((rank (bs ++ [sentinel]) (placeOf bs j) : Int),
      (offset power (bs ++ [sentinel]) (placeOf bs j) : Int)) := by
  rw [jumpAt, rank, offset, take_placeOf]

theorem toInt_ofInt32 {n : Nat} (h : n < 2 ^ 31) : (BitVec.ofInt 32 (n : Int)).toInt = (n : Int) := by
  have hnat : (BitVec.ofNat 32 n).toNat = n := by
    rw [BitVec.toNat_ofNat]
    omega
  rw [BitVec.ofInt_natCast, BitVec.toInt_eq_toNat_of_lt (by rw [hnat]; omega), hnat]

theorem readI32At_eq {pre post : List U8} {n pos : Nat} (h : n < 2 ^ 31) (hpos : pre.length = pos) :
    readI32At (pre ++ (toLeBytes 4 (BitVec.ofInt 32 (n : Int)) ++ post)) pos = .ok (n : Int) := by
  have hslice := slice_append_right pre (toLeBytes 4 (BitVec.ofInt 32 (n : Int))) post
  rw [hpos, toLeBytes_length] at hslice
  rw [readI32At, hslice, okOr_some, ok_bind,
    fromLeBytes_toLeBytes 4 _ (by decide), toInt_ofInt32 h]

theorem jumpBytes_length (jump : Int × Int) : (jumpBytes jump).length = 8 := by
  rw [jumpBytes, List.length_append, toLeBytes_length, toLeBytes_length]

/-- An entry of the jump table. -/
theorem readJump {rank' offset' : Nat} (hj : j < tableCount bs)
    (hjump : jumpAt power bs j = ((rank' : Int), (offset' : Int))) (hrank : rank' < 2 ^ 31)
    (hoffset : offset' < 2 ^ 31) :
    readI32At (tableBytes power bs) (j * 8) = .ok (rank' : Int) ∧
      readI32At (tableBytes power bs) (j * 8 + 4) = .ok (offset' : Int) := by
  have hlen : (((List.range (tableCount bs)).take j).flatMap fun j =>
      jumpBytes (jumpAt power bs j)).length = j * 8 := by
    rw [List.length_flatMap, List.map_congr_left fun j _ => jumpBytes_length _, List.map_const',
      List.sum_replicate_nat, List.length_take, List.length_range, Nat.min_eq_left hj.le]
  have hsplit : tableBytes power bs = (((List.range (tableCount bs)).take j).flatMap fun j =>
      jumpBytes (jumpAt power bs j)) ++ (toLeBytes 4 (BitVec.ofInt 32 (rank' : Int)) ++
        (toLeBytes 4 (BitVec.ofInt 32 (offset' : Int)) ++
          ((List.range (tableCount bs)).drop (j + 1)).flatMap fun j =>
            jumpBytes (jumpAt power bs j))) := by
    have hget : (List.range (tableCount bs)).drop j =
        j :: (List.range (tableCount bs)).drop (j + 1) := by
      rw [List.drop_eq_getElem_cons (by rw [List.length_range]; exact hj), List.getElem_range]
    have hbytes : toLeBytes 4 (BitVec.ofInt 32 (rank' : Int)) ++
        toLeBytes 4 (BitVec.ofInt 32 (offset' : Int)) = jumpBytes (jumpAt power bs j) := by
      rw [hjump, jumpBytes]
    have hflat : ∀ f : Nat → List U8, (List.range (tableCount bs)).flatMap f =
        ((List.range (tableCount bs)).take j).flatMap f ++
          (f j ++ ((List.range (tableCount bs)).drop (j + 1)).flatMap f) := fun f => by
      rw [← List.flatMap_cons, ← hget, ← List.flatMap_append, List.take_append_drop]
    rw [tableBytes, ← List.append_assoc (toLeBytes 4 _), hbytes]
    exact hflat _
  constructor
  · rw [hsplit]
    exact readI32At_eq hrank hlen
  · rw [hsplit, ← List.append_assoc]
    exact readI32At_eq hoffset (by rw [List.length_append, hlen, toLeBytes_length])

/-! ### To a block -/

/-- What a seek to the range of index `j` ends in. -/
structure Sought (power : U8) (bs : List Block) (j : Nat) (c c' : DisiCursor) (k : Nat)
    (b : Block) : Prop where
  loaded : Loaded power (bs ++ [sentinel]) k b c'
  positioned : Positioned b (rank (bs ++ [sentinel]) k) c.doc c'
  moved : c.Moved c'
  le : j ≤ b.index
  before : ∀ d ∈ (bs ++ [sentinel]).take k, d.index < j

/-- The header at a place before which all of the blocks are before `j`. -/
theorem readBlockHeader_at (hpower : Legal power) (hc : Covers bs ns) (hr : OnRegion power bs c)
    {k : Nat} {b : Block} (hget : (bs ++ [sentinel])[k]? = some b)
    (hend : c.blockEnd = offset power (bs ++ [sentinel]) k)
    (hnext : c.nextBlockIndex = (rank (bs ++ [sentinel]) k : Int) - 1) :
    ∃ c', c.readBlockHeader = .ok c' ∧ Loaded power (bs ++ [sentinel]) k b c' ∧ c.Moved c' ∧
      ∀ doc, doc < ((65536 * b.index : Nat) : Int) →
        Positioned b (rank (bs ++ [sentinel]) k) doc c' := by
  obtain ⟨tail, hdata⟩ := hr.data
  have hrank := hc.rank_le (k + 1)
  have hlen := hc.length_le
  obtain ⟨c', hread, hloaded, hpos, hmoved⟩ := readBlockHeader_loaded hpower hget hdata
    hr.denseRankPower hend hnext (by omega)
  exact ⟨c', hread, hloaded, hmoved, hpos⟩

/-- The walk over the headers. -/
theorem iterate_advanceBlockPass (hpower : Legal power) (hc : Covers bs ns) (hj : j < 32768) :
    ∀ (n k : Nat) (c : DisiCursor) (fuel : Nat), k + n = placeOf bs j → n < fuel →
    OnRegion power bs c → c.blockEnd = offset power (bs ++ [sentinel]) k →
    c.nextBlockIndex = (rank (bs ++ [sentinel]) k : Int) - 1 →
    c.doc < ((65536 * j : Nat) : Int) →
    ∃ c' b, iterate (DisiCursor.advanceBlockPass ((65536 * j : Nat) : Int)) fuel c = .ok c' ∧
      Sought power bs j c c' (placeOf bs j) b
  | 0, k, c, fuel + 1, hk, _, hr, hend, hnext, hdoc => by
    obtain rfl : k = placeOf bs j := hk
    obtain ⟨b, hget, hle⟩ := placeOf_get hj bs
    obtain ⟨c', hread, hloaded, hmoved, hpos⟩ := readBlockHeader_at hpower hc hr hget hend hnext
    refine ⟨c', b, iterate_leave ?_, hloaded, hpos _ (by omega), hmoved, hle, fun d hd =>
      placeOf_before hd⟩
    rw [DisiCursor.advanceBlockPass, hread, ok_bind, hloaded.block, if_pos (by omega)]
  | n + 1, k, c, fuel + 1, hk, hfuel, hr, hend, hnext, hdoc => by
    have hlt : k < (bs ++ [sentinel]).length := by
      obtain ⟨b, hget, -⟩ := placeOf_get hj bs
      have hlt := (List.getElem?_eq_some_iff.1 hget).1
      omega
    have hget := List.getElem?_eq_getElem hlt
    have hbefore : ((bs ++ [sentinel])[k]).index < j :=
      placeOf_before (List.mem_take_iff_getElem.2 ⟨k, by omega, rfl⟩)
    obtain ⟨c₁, hread, hloaded, hmoved, -⟩ := readBlockHeader_at hpower hc hr hget hend hnext
    obtain ⟨c', b, hloop, hsought⟩ := iterate_advanceBlockPass hpower hc hj n (k + 1) c₁ fuel
      (by omega) (by omega) (hr.moved hmoved) hloaded.blockEnd hloaded.next
      (by rw [hmoved.doc]; exact hdoc)
    refine ⟨c', b, ?_, hsought.loaded, hmoved.doc ▸ hsought.positioned,
      ⟨hsought.moved.data.trans hmoved.data, hsought.moved.jumpTable.trans hmoved.jumpTable,
        hsought.moved.jumpTableEntryCount.trans hmoved.jumpTableEntryCount,
        hsought.moved.denseRankPower.trans hmoved.denseRankPower,
        hsought.moved.doc.trans hmoved.doc⟩, hsought.le, hsought.before⟩
    have hpass : DisiCursor.advanceBlockPass ((65536 * j : Nat) : Int) c = .ok (.inl c₁) := by
      rw [DisiCursor.advanceBlockPass, hread, ok_bind, hloaded.block, if_neg (by omega)]
    rw [iterate_continue hpass, hloop]

/-- A seek ends at the first block that is not before the target, by the table
as by the walk. -/
theorem advanceBlock_sought (hpower : Legal power) (hc : Covers bs ns) (hj : j < 32768)
    (hr : OnRegion power bs c) {k : Nat} (hk : k ≤ placeOf bs j)
    (hend : c.blockEnd = offset power (bs ++ [sentinel]) k)
    (hnext : c.nextBlockIndex = (rank (bs ++ [sentinel]) k : Int) - 1)
    (hdoc : c.doc < ((65536 * j : Nat) : Int)) :
    ∃ c' k b, c.advanceBlock ((65536 * j : Nat) : Int) = .ok c' ∧ Sought power bs j c c' k b := by
  have hshift : ((65536 * j : Nat) : Int) >>> (16 : Nat) = (j : Int) := by
    rw [Int.shiftRight_eq_div_pow]
    omega
  rw [DisiCursor.advanceBlock, hshift]
  dsimp only
  split
  next hjump =>
    obtain ⟨htable, hcount, hpos⟩ := hr.table.resolve_left hjump.1
    have hlast : tableCount bs = lastBlock bs + 1 := by
      rw [tableCount] at hpos ⊢
      split
      next h =>
        rw [if_pos h] at hpos
        cases hpos
      next => rfl
    obtain ⟨e, he, hentry, hplace⟩ : ∃ e, e < tableCount bs ∧
        (if (j : Int) < c.jumpTableEntryCount then (j : Int).toNat
          else (c.jumpTableEntryCount - 1).toNat) = e ∧ placeOf bs e = placeOf bs j := by
      rw [hcount]
      split
      next h => exact ⟨j, by omega, Int.toNat_natCast j, rfl⟩
      next h =>
        refine ⟨lastBlock bs, by omega, by omega, ?_⟩
        rw [placeOf, placeOf, takeWhile_index_all fun b hb => hc.ordered.lt_last hb,
          takeWhile_index_all fun b hb => (hc.ordered.lt_last hb).trans (by omega)]
    have hjumpAt := jumpAt_eq power bs e
    rw [hplace] at hjumpAt
    have hrank := hc.rank_prefix (k := placeOf bs j) (List.takeWhile_prefix _).length_le
    have hlen := hc.length_le
    have hoffset : offset power (bs ++ [sentinel]) (placeOf bs j) ≤ 302120960 := by
      rw [offset, take_placeOf]
      exact Ordered.bytes_length_le (hc.ordered.sublist (List.takeWhile_sublist _))
    obtain ⟨hread, hread'⟩ := readJump he hjumpAt (by omega) (by omega)
    obtain ⟨b, hget, hle⟩ := placeOf_get hj bs
    rw [hentry, htable, hread, ok_bind, hread', ok_bind,
      if_neg (Int.not_lt.2 (Int.natCast_nonneg _)), Int.toNat_natCast]
    obtain ⟨c', hread, hloaded, hmoved, hpositioned⟩ := readBlockHeader_at (c := { c with
        nextBlockIndex := (rank (bs ++ [sentinel]) (placeOf bs j) : Int) - 1,
        blockEnd := offset power (bs ++ [sentinel]) (placeOf bs j) }) hpower hc
      ⟨hr.data, hr.denseRankPower, hr.table⟩ hget rfl rfl
    rw [htable] at hread
    exact ⟨c', _, b, hread, hloaded, hpositioned _ (by omega), ⟨hmoved.data, hmoved.jumpTable,
      hmoved.jumpTableEntryCount, hmoved.denseRankPower, hmoved.doc⟩, hle, fun d hd =>
      placeOf_before hd⟩
  next =>
    obtain ⟨tail, hdata⟩ := hr.data
    have hle : placeOf bs j ≤ bs.length := (List.takeWhile_prefix _).length_le
    have hfuel := length_le_region power bs tail
    rw [← hdata] at hfuel
    obtain ⟨c', b, hloop, hsought⟩ := iterate_advanceBlockPass hpower hc hj (placeOf bs j - k) k c
      (c.data.length + 1) (by omega) (by omega) hr hend hnext hdoc
    exact ⟨c', _, b, hloop, hsought⟩

/-! ## `advance_exact` -/

/-- Where a lookup of a document leaves the cursor: at the first block that is
not before the document, with its rank if the block is not SPARSE or has it. -/
structure Landed (power : U8) (bs : List Block) (ns : List Nat) (t : Nat) (c : DisiCursor)
    (k : Nat) (b : Block) : Prop where
  standing : Standing power bs c k b
  doc : c.doc = (t : Int)
  le : t / 65536 ≤ b.index
  before : ∀ d ∈ (bs ++ [sentinel]).take k, d.index < t / 65536
  index : b.index = t / 65536 → (t ∈ ns ∨ b.method ≠ .sparse) →
    c.index = (ns.countP (· < t) : Int)

/-- The answer of `advance_exact`. -/
def rankIn (ns : List Nat) (t : Nat) : Option Nat :=
  if t ∈ ns then some (ns.countP (· < t)) else none

theorem blockStart_eq (t : Nat) : DisiCursor.blockStart (t : Int) = ((65536 * (t / 65536) : Nat) : Int) := by
  rw [DisiCursor.blockStart]
  omega

/-- A lookup in the block that a seek ended at. -/
theorem lookUp_landed (hpower : Legal power) (hc : Covers bs ns) (hr : OnRegion power bs c)
    {k t : Nat} {b : Block} (ht : t < 2147483647)
    (hloaded : Loaded power (bs ++ [sentinel]) k b c)
    (hpos : Positioned b (rank (bs ++ [sentinel]) k) c.doc c) (hdoc : c.doc ≤ (t : Int))
    (hle : t / 65536 ≤ b.index) (hbefore : ∀ d ∈ (bs ++ [sentinel]).take k, d.index < t / 65536) :
    ∃ c', c.lookUp (t : Int) = .ok (decide (t ∈ ns), c') ∧ c.Moved c' ∧
      Landed power bs ns t { c' with doc := (t : Int) } k b ∧
      (t ∈ ns → c'.index = (ns.countP (· < t) : Int)) := by
  obtain ⟨hmem, hcount⟩ := hc.at_block hloaded.get ht hle hbefore
  have hbefore' : ∀ d ∈ (bs ++ [sentinel]).take k, ((65536 * (d.index + 1) : Nat) : Int) ≤ t := by
    intro d hd
    have hlt := hbefore d hd
    omega
  rw [DisiCursor.lookUp, blockStart_eq, hloaded.block]
  by_cases hin : b.index = t / 65536
  · rw [if_pos (by rw [hin])]
    have hdecomp : 65536 * b.index + t % 65536 = t := by omega
    have hlow : t % 65536 < 65536 := Nat.mod_lt t (by decide)
    obtain ⟨c', hlook, hsame, hpos', hindex⟩ := advanceExactWithinBlock_spec hpower
      hr.denseRankPower hloaded hpos hlow (by rw [hdecomp]; exact hdoc)
    rw [hdecomp] at hlook hpos'
    have hlows : t ∈ ns ↔ t % 65536 ∈ b.lows := hmem.trans (b.mem_docs_iff hin.symm)
    have hindex' : t ∈ ns ∨ b.method ≠ .sparse → c'.index = (ns.countP (· < t) : Int) := by
      intro h
      rw [hcount, b.countP_docs hin.symm, Int.natCast_add]
      exact hindex (h.imp hlows.1 id)
    exact ⟨c', by rw [hlook, decide_eq_decide.2 hlows], hsame.moved,
      ⟨⟨(hloaded.same hsame).setDoc _, hpos'.setDoc _, Int.natCast_nonneg t, by dsimp only; omega,
        hbefore'⟩, rfl, hle, hbefore, fun _ => hindex'⟩, fun h => hindex' (Or.inl h)⟩
  · have hnot : t ∉ ns := by
      rw [hmem]
      intro h
      have hrange := b.docs_range h
      omega
    rw [if_neg (by omega), decide_eq_false hnot]
    exact ⟨c, rfl, ⟨rfl, rfl, rfl, rfl, rfl⟩, ⟨⟨hloaded.setDoc _,
      (hpos.before hdoc (by omega)).setDoc _, Int.natCast_nonneg t, by dsimp only; omega, hbefore'⟩,
      rfl, hle, hbefore, fun h => absurd h hin⟩, fun h => absurd h hnot⟩

/-- `advance_exact` answers with the rank of the document. -/
theorem advanceExact_landed (hpower : Legal power) (hc : Covers bs ns) (hr : Ready power bs c)
    {t : Nat} (ht : t < 2147483647) (hdoc : c.doc ≤ (t : Int)) :
    ∃ c' k b, c.advanceExact (t : Int) = .ok (rankIn ns t, c') ∧ OnRegion power bs c' ∧
      Landed power bs ns t c' k b := by
  have hne : ¬(t : Int) = noMoreDocs := by
    rw [noMoreDocs]
    omega
  have hseek : ∃ c' k b, c.seekBlock ((65536 * (t / 65536) : Nat) : Int) = .ok c' ∧
      Sought power bs (t / 65536) c c' k b := by
    rw [DisiCursor.seekBlock]
    rcases hr.place with hend | hstart | ⟨k, b, hstand⟩
    · rw [hend, noMoreDocs] at hdoc
      omega
    · rw [if_pos (by rw [hstart.block]; omega)]
      exact advanceBlock_sought hpower hc (by omega) hr.region (Nat.zero_le _) hstart.blockEnd
        hstart.next (by rw [hstart.doc]; omega)
    · rw [hstand.loaded.block]
      split
      next hlt =>
        have hle := hstand.le
        obtain ⟨hk, hb⟩ := List.getElem?_eq_some_iff.1 hstand.loaded.get
        refine advanceBlock_sought hpower hc (by omega) hr.region (k := k + 1) ?_
          hstand.loaded.blockEnd hstand.loaded.next (by omega)
        by_contra hgt
        obtain ⟨d, hget, hd⟩ := placeOf_get (j := t / 65536) (by omega) bs
        rcases Nat.lt_succ_iff_lt_or_eq.1 (Nat.not_le.1 hgt) with hlt' | heq
        · obtain ⟨hp, rfl⟩ := List.getElem?_eq_some_iff.1 hget
          have hbefore := hstand.before _ (List.mem_take_iff_getElem.2
            ⟨placeOf bs (t / 65536), by omega, rfl⟩)
          omega
        · rw [heq, hstand.loaded.get] at hget
          cases hget
          omega
      next hge =>
        refine ⟨c, k, b, rfl, hstand.loaded, hstand.positioned, ⟨rfl, rfl, rfl, rfl, rfl⟩,
          by omega, fun d hd => ?_⟩
        have hbefore := hstand.before d hd
        omega
  obtain ⟨c₁, k, b, hseek, hsought⟩ := hseek
  obtain ⟨c₂, hlook, hmoved, hlanded, hindex⟩ := lookUp_landed hpower hc
    (hr.region.moved hsought.moved) ht hsought.loaded (by rw [hsought.moved.doc]; exact
      hsought.positioned) (by rw [hsought.moved.doc]; exact hdoc) hsought.le hsought.before
  refine ⟨{ c₂ with doc := (t : Int) }, k, b, ?_,
    ((hr.region.moved hsought.moved).moved hmoved).doc _, hlanded⟩
  rw [DisiCursor.advanceExact, guardOk_pos (Int.natCast_nonneg t), ok_bind,
    guardOk_pos hdoc, ok_bind, if_neg hne, blockStart_eq, hseek, ok_bind,
    hlook, ok_bind]
  dsimp only
  rw [DisiCursor.ordinal, rankIn]
  by_cases hmem : t ∈ ns
  · rw [decide_eq_true hmem, if_pos rfl, if_pos hmem, hindex hmem, Int.toNat_natCast]
  · rw [decide_eq_false hmem, if_neg Bool.false_ne_true, if_neg hmem]

theorem Landed.ready {t k : Nat} {b : Block} (h : Landed power bs ns t c k b)
    (hr : OnRegion power bs c) : Ready power bs c :=
  ⟨hr, Or.inr (Or.inr ⟨k, b, h.standing⟩)⟩

/-- `advance_exact` of any document that is not behind the cursor. -/
theorem advanceExact_ready (hpower : Legal power) (hc : Covers bs ns) (hr : Ready power bs c)
    {t : Nat} (ht : (t : Int) ≤ noMoreDocs) (hdoc : c.doc ≤ (t : Int)) :
    ∃ c', c.advanceExact (t : Int) = .ok (rankIn ns t, c') ∧ Ready power bs c' ∧
      c'.doc = (t : Int) := by
  by_cases hmax : (t : Int) = noMoreDocs
  · refine ⟨{ c with doc := (t : Int) }, ?_, ⟨hr.region.doc _, Or.inl hmax⟩, rfl⟩
    have hnot : t ∉ ns := by
      intro hmem
      have hlt := hc.lt t hmem
      rw [noMoreDocs] at hmax
      omega
    rw [DisiCursor.advanceExact, guardOk_pos (Int.natCast_nonneg t), ok_bind,
      guardOk_pos hdoc, ok_bind, if_pos hmax, rankIn, if_neg hnot]
  · rw [noMoreDocs] at ht hmax
    obtain ⟨c', k, b, hlook, hr', hlanded⟩ := advanceExact_landed hpower hc hr (by omega) hdoc
    exact ⟨c', hlook, hlanded.ready hr', hlanded.doc⟩

/-- `advance_exact_in_block` gives the same answer, when it gives one. -/
theorem advanceExactInBlock_ready (hpower : Legal power) (hc : Covers bs ns)
    (hr : Ready power bs c) {doc : Int} (hmax : doc ≤ noMoreDocs) :
    ∃ r c', c.advanceExactInBlock doc = .ok (r, c') ∧ Ready power bs c' ∧
      ∀ a, r = some a → 0 ≤ doc ∧ a = rankIn ns doc.toNat := by
  rw [DisiCursor.advanceExactInBlock]
  split
  next => exact ⟨none, c, rfl, hr, fun _ h => nomatch h⟩
  next hguard =>
    rw [not_or, not_or, Int.not_lt, not_not] at hguard
    obtain ⟨hdoc, hne, hblock⟩ := hguard
    rw [noMoreDocs] at hmax hne
    rcases hr.place with hend | hstart | ⟨k, b, hstand⟩
    · rw [hend, noMoreDocs] at hdoc
      omega
    · rw [DisiCursor.blockStart, hstart.block] at hblock
      omega
    · have hnonneg := hstand.nonneg
      obtain ⟨t, rfl⟩ := Int.eq_ofNat_of_zero_le (hnonneg.trans hdoc)
      have hin := hblock
      rw [blockStart_eq, hstand.loaded.block] at hin
      obtain ⟨c', hlook, hmoved, hlanded, hindex⟩ := lookUp_landed hpower hc hr.region (t := t)
        (by omega) hstand.loaded hstand.positioned hdoc (by omega) fun d hd => by
          have hbefore := hstand.before d hd
          omega
      rw [DisiCursor.lookUp, if_pos hblock.symm] at hlook
      rw [hlook, ok_bind]
      refine ⟨_, _, rfl, hlanded.ready ((hr.region.moved hmoved).doc _), fun a ha => ?_⟩
      refine ⟨Int.natCast_nonneg t, ?_⟩
      rw [← Option.some.inj ha, DisiCursor.ordinal, rankIn, Int.toNat_natCast]
      by_cases hmem : t ∈ ns
      · rw [decide_eq_true hmem, if_pos rfl, if_pos hmem, hindex hmem, Int.toNat_natCast]
      · rw [decide_eq_false hmem, if_neg Bool.false_ne_true, if_neg hmem]

/-! ## Windows -/

/-- A window has the bits of its documents, and `ord` is the rank of the first
one. -/
structure Window (ns : List Nat) (start : Nat) (words : List U64) (ord : Int) : Prop where
  bits : ∀ p, p < 64 * words.length → (lsbAt words p = true ↔ start + p ∈ ns)
  rank : (∃ p, p < 64 * words.length ∧ start + p ∈ ns) → ord = (ns.countP (· < start) : Int)

theorem lsbAt_allOnes {n p : Nat} (hp : p < 64 * n) :
    lsbAt (List.replicate n (BitVec.allOnes 64)) p = true := by
  rw [lsbAt, List.getD_eq_getElem?_getD, List.getElem?_replicate, if_pos (by omega),
    Option.getD_some, BitVec.getLsbD_allOnes]
  exact decide_eq_true (Nat.mod_lt p (by decide))

/-- The words of a window of a DENSE block. -/
theorem windowWords_eq {k n : Nat} {b : Block} {t : Nat}
    (hloaded : Loaded power bs k b c) (hm : b.method = .dense)
    (hfits : t % 65536 / 64 + n ≤ 1024) :
    c.windowWords (t : Int) n = .ok ((b.words.drop (t % 65536 / 64)).take n) := by
  have hfirst : ((t : Int) % 65536).toNat >>> 6 = t % 65536 / 64 := by
    rw [Nat.shiftRight_eq_div_pow]
    omega
  have hslice : slice c.denseBitmap (t % 65536 / 64 * 8) ((t % 65536 / 64 + n) * 8) =
      some (((b.words.drop (t % 65536 / 64)).take n).flatMap (toLeBytes 8)) := by
    have h := slice_bitmap b (Nat.le_add_right (t % 65536 / 64) n) hfits
    rw [Nat.add_sub_cancel_left] at h
    rw [(hloaded.dense hm).2.1]
    exact h
  rw [DisiCursor.windowWords, hfirst, hslice, expect_some, ok_bind,
    chunks_flatMap (by decide) fun v => toLeBytes_length 8 v, List.map_map]
  refine congrArg Outcome.ok ((List.map_congr_left fun w _ => ?_).trans (List.map_id _))
  rw [Function.comp_apply, fromLeBytes_toLeBytes 8 w (by decide), id]

/-- The window of a place where a lookup of its first document landed. -/
theorem window_of_landed (hc : Covers bs ns) {t k : Nat} {b : Block}
    (h : Landed power bs ns t c k b) (words : List U64)
    (hmax : t + 64 * words.length ≤ 2147483647) (hn : 0 < words.length) (halign : t % 64 = 0)
    (hblock : (t + 64 * words.length - 1) / 65536 = t / 65536) :
    ∃ r words', c.windowHere (t : Int) words = .ok (r, words', c) ∧
      words'.length = words.length ∧ ∀ ord, r = some ord → Window ns t words' ord := by
  have hmem : ∀ p, p < 64 * words.length → (t + p ∈ ns ↔ t + p ∈ b.docs) := fun p hp => by
    have hrange : (t + p) / 65536 = t / 65536 := by omega
    exact (hc.at_block h.standing.loaded.get (by omega) (by rw [hrange]; exact h.le)
      (by rw [hrange]; exact h.before)).1
  rw [DisiCursor.windowHere, blockStart_eq, h.standing.loaded.block, h.standing.loaded.method]
  by_cases hin : b.index = t / 65536
  · rw [if_neg (by rw [hin]; exact not_not_intro rfl)]
    have hlows : ∀ p, p < 64 * words.length → (t + p ∈ ns ↔ t % 65536 + p ∈ b.lows) := fun p hp => by
      rw [hmem p hp, b.mem_docs_iff (by omega), show (t + p) % 65536 = t % 65536 + p by omega]
    rcases b.method_cases power with ⟨hm, -, -⟩ | ⟨hm, -, hall, -⟩ | ⟨hm, -, -, -⟩
    · rw [hm]
      exact ⟨none, words, rfl, rfl, fun _ h => by cases h⟩
    · have hindex := h.index hin (Or.inr (by rw [hm]; intro hsparse; cases hsparse))
      rw [blockSize] at hall
      rw [hm]
      refine ⟨_, _, rfl, List.length_replicate, fun ord hord => ⟨fun p hp => ?_, fun _ => ?_⟩⟩
      · rw [List.length_replicate] at hp
        rw [lsbAt_allOnes hp, hlows p hp]
        exact ⟨fun _ => b.mem_of_full hall (by omega), fun _ => rfl⟩
      · rw [← Option.some.inj hord, hindex]
    · have hindex := h.index hin (Or.inr (by rw [hm]; intro hsparse; cases hsparse))
      have hfits : t % 65536 / 64 + words.length ≤ 1024 := by omega
      rw [hm]
      dsimp only
      rw [windowWords_eq h.standing.loaded hm hfits, ok_bind]
      have hlen : ((b.words.drop (t % 65536 / 64)).take words.length).length = words.length := by
        rw [List.length_take, List.length_drop, b.words_length]
        omega
      refine ⟨_, _, rfl, hlen, fun ord hord => ⟨fun p hp => ?_, fun _ => ?_⟩⟩
      · rw [hlen] at hp
        have hbit := lsbAt_take_append (b.words.drop (t % 65536 / 64)) [] p (n := words.length) (by
          rw [List.length_drop, b.words_length]
          omega)
        rw [List.append_nil, if_pos hp, lsbAt_drop, b.lsbAt_words,
          show 64 * (t % 65536 / 64) + p = t % 65536 + p by omega] at hbit
        rw [hbit, decide_eq_true_iff, hlows p hp]
      · rw [← Option.some.inj hord, hindex]
  · rw [if_pos (by omega)]
    have hnot : ∀ p, p < 64 * words.length → t + p ∉ ns := fun p hp hdoc => by
      have hrange := b.docs_range ((hmem p hp).1 hdoc)
      have hle := h.le
      omega
    refine ⟨_, _, rfl, List.length_replicate, fun ord _ => ⟨fun p hp => ?_, fun hbit => ?_⟩⟩
    · rw [List.length_replicate] at hp
      rw [lsbAt_zero]
      exact ⟨fun h => absurd h Bool.false_ne_true, fun hdoc => absurd hdoc (hnot p hp)⟩
    · obtain ⟨p, hp, hdoc⟩ := hbit
      rw [List.length_replicate] at hp
      exact absurd hdoc (hnot p hp)

/-- A window, from any cursor. -/
theorem windowBits_ready (hpower : Legal power) (hc : Covers bs ns) (hr : Ready power bs c)
    (start : Int) (words : List U64) :
    ∃ r words' c', c.windowBits start words = .ok (r, words', c') ∧ Ready power bs c' ∧
      ∀ ord, r = some ord → 0 ≤ start ∧ words'.length = words.length ∧
        Window ns start.toNat words' ord := by
  have hrefuse : ∃ r words' c', (.ok (none, words, c) : Result (Option Int × List U64 × DisiCursor)) =
      .ok (r, words', c') ∧ Ready power bs c' ∧ ∀ ord, r = some ord → 0 ≤ start ∧
        words'.length = words.length ∧ Window ns start.toNat words' ord :=
    ⟨none, words, c, rfl, hr, fun _ h => nomatch h⟩
  rw [DisiCursor.windowBits]
  dsimp only
  split
  next => exact hrefuse
  next hspan =>
    split
    next => exact hrefuse
    next hguard =>
      split
      next => exact hrefuse
      next hblock =>
        rw [not_or, Int.not_lt, Int.not_lt, noMoreDocs] at hspan
        rw [not_or, not_or, not_or, Int.not_lt, Int.not_lt, not_not] at hguard
        obtain ⟨hn, hnonneg, halign, hdoc⟩ := hguard
        obtain ⟨t, rfl⟩ := Int.eq_ofNat_of_zero_le hnonneg
        rw [not_not, DisiCursor.blockStart, DisiCursor.blockStart] at hblock
        obtain ⟨c', k, b, hlook, hr', hlanded⟩ := advanceExact_landed hpower hc hr (t := t)
          (by omega) hdoc
        obtain ⟨r, words', hhere, hlen, hwindow⟩ := window_of_landed hc hlanded words
          (by omega) (Nat.pos_of_ne_zero hn) (by omega) (by omega)
        refine ⟨r, words', c', ?_, hlanded.ready hr', fun ord hord => ⟨hnonneg, hlen, ?_⟩⟩
        · rw [hlook, ok_bind]
          exact hhere
        · rw [Int.toNat_natCast]
          exact hwindow ord hord

end

end LuceneRust.Codecs.IndexedDisi
