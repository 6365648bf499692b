import LuceneRust.Codecs.IndexedDisiBlocks
import Mathlib.Data.List.TakeWhile

/-!
# The region that the writer writes

* `jumpAt`: the entry of a block in the jump table, the rank and the offset of
  the first block that is not before it.
* `writePass_written`: one turn of the writer writes one block.
* `writeWithDenseRankPower_eq`: the writer writes the blocks of the documents,
  the sentinel and the table.
-/

namespace LuceneRust.Codecs.IndexedDisi

open RustSem WordTape
open Store (writeI16)

/-! ## The jump table -/

/-- The blocks are in order. -/
def Ordered (bs : List Block) : Prop := bs.Pairwise fun b c => b.index < c.index

/-- One past the index of the last block. -/
def lastBlock (bs : List Block) : Nat := (bs.getLast?.map fun b => b.index + 1).getD 0

/-- The entry of a block: the documents and the bytes before the first block
that is not before it. -/
def jumpAt (power : U8) (bs : List Block) (j : Nat) : Int × Int :=
  let before := bs.takeWhile fun b => b.index < j
  (((before.flatMap Block.docs).length : Nat), ((before.flatMap (Block.bytes power)).length : Nat))

section

variable {power : U8} {bs : List Block}

theorem lastBlock_concat (bs : List Block) (b : Block) : lastBlock (bs ++ [b]) = b.index + 1 := by
  rw [lastBlock, List.getLast?_concat]
  rfl

theorem Ordered.lt_last (h : Ordered bs) {b : Block} (hb : b ∈ bs) : b.index < lastBlock bs := by
  rcases List.eq_nil_or_concat' bs with rfl | ⟨cs, c, rfl⟩
  · cases hb
  · rw [lastBlock_concat]
    rcases List.mem_append.1 hb with hb | hb
    · exact Nat.lt_succ_of_lt ((List.pairwise_append.1 h).2.2 b hb c (List.mem_singleton_self c))
    · rw [List.mem_singleton.1 hb]
      exact Nat.lt_succ_self _

theorem Ordered.concat (h : Ordered bs) {b : Block} (hb : lastBlock bs ≤ b.index) :
    Ordered (bs ++ [b]) :=
  List.pairwise_append.2 ⟨h, List.pairwise_singleton _ b, fun _ hc _ hd => by
    rw [List.mem_singleton.1 hd]
    exact (h.lt_last hc).trans_le hb⟩

/-- No more blocks than indices. -/
theorem Ordered.length_le (h : Ordered bs) : bs.length ≤ lastBlock bs := by
  have hsub : (bs.map Block.index).toFinset ⊆ Finset.range (lastBlock bs) := by
    intro i hi
    obtain ⟨b, hb, rfl⟩ := List.mem_map.1 (List.mem_toFinset.1 hi)
    exact Finset.mem_range.2 (h.lt_last hb)
  have hnodup : (bs.map Block.index).Nodup := (List.pairwise_map.2 h).imp fun hlt => hlt.ne
  have hcard := Finset.card_le_card hsub
  rwa [List.toFinset_card_of_nodup hnodup, List.length_map, Finset.card_range] at hcard

theorem lastBlock_le (bs : List Block) : lastBlock bs ≤ 32768 := by
  rcases List.eq_nil_or_concat' bs with rfl | ⟨cs, c, rfl⟩
  · exact Nat.zero_le _
  · rw [lastBlock_concat]
    exact c.index_lt

/-- The bytes of the blocks are few enough for an `i32`. -/
theorem Ordered.bytes_length_le (h : Ordered bs) :
    (bs.flatMap (Block.bytes power)).length ≤ 302120960 := by
  have hbytes := length_flatMap_le (f := Block.bytes power) (l := bs) (n := 9220)
    fun b _ => b.bytes_length_le power
  have hlen := h.length_le
  have hlast := lastBlock_le bs
  omega

/-- Past all of the blocks, an entry is at their end. -/
theorem takeWhile_index_all {j : Nat} (h : ∀ b ∈ bs, b.index < j) :
    bs.takeWhile (fun b => b.index < j) = bs :=
  List.takeWhile_eq_self_iff.2 fun b hb => decide_eq_true (h b hb)

/-- The entries of one block more. -/
theorem jumps_concat (h : Ordered bs) {b : Block} (hb : lastBlock bs ≤ b.index) :
    (List.range (b.index + 1)).map (jumpAt power (bs ++ [b])) =
      (List.range (lastBlock bs)).map (jumpAt power bs) ++
        List.replicate (b.index + 1 - lastBlock bs)
          (((bs.flatMap Block.docs).length : Int), ((bs.flatMap (Block.bytes power)).length : Int)) := by
  have hsum : b.index + 1 = lastBlock bs + (b.index + 1 - lastBlock bs) := by omega
  rw [hsum, List.range_add, List.map_append, Nat.add_sub_cancel_left]
  refine congrArg₂ (· ++ ·) (List.map_congr_left fun j hj => ?_) ?_
  · rw [List.mem_range] at hj
    rcases List.eq_nil_or_concat' bs with rfl | ⟨cs, c, rfl⟩
    · exact absurd hj (Nat.not_lt_zero _)
    · rw [lastBlock_concat] at hj
      rw [jumpAt, jumpAt, List.takeWhile_append, if_neg]
      intro hlen
      have hall := (List.takeWhile_prefix (fun b : Block => decide (b.index < j))).eq_of_length hlen
      have hmem : c ∈ (cs ++ [c]).takeWhile fun b : Block => b.index < j := by
        rw [hall]
        exact List.mem_append_right _ (List.mem_singleton_self c)
      have hlt : c.index < j := of_decide_eq_true
        (List.mem_takeWhile_imp (p := fun b : Block => decide (b.index < j)) hmem)
      omega
  · refine List.eq_replicate_iff.2 ⟨?_, fun e he => ?_⟩
    · rw [List.length_map, List.length_map, List.length_range]
    · obtain ⟨j, hj, rfl⟩ := List.mem_map.1 he
      obtain ⟨i, hi, rfl⟩ := List.mem_map.1 hj
      rw [List.mem_range] at hi
      have hall : ∀ c ∈ bs, c.index < lastBlock bs + i := fun c hc =>
        (h.lt_last hc).trans_le (Nat.le_add_right _ _)
      have hend : [b].takeWhile (fun c : Block => c.index < lastBlock bs + i) = [] :=
        List.takeWhile_cons_of_neg (by rw [decide_eq_true_iff]; omega)
      rw [jumpAt, List.takeWhile_append, takeWhile_index_all hall, if_pos rfl, hend,
        List.append_nil]

end

/-! ## One block -/

/-- The documents from `n` on that are in its range. -/
theorem takeWhile_range {n : Nat} {ns : List Nat} (h : (n :: ns).Pairwise (· < ·)) {d : Nat}
    (hd : d ∈ (n :: ns).takeWhile fun d => d < 65536 * (n / 65536 + 1)) :
    d / 65536 = n / 65536 := by
  have hlt : d < 65536 * (n / 65536 + 1) := of_decide_eq_true
    (List.mem_takeWhile_imp (p := fun d : Nat => decide (d < 65536 * (n / 65536 + 1))) hd)
  have hge : n ≤ d := by
    rcases List.mem_cons.1 ((List.takeWhile_subset _) hd) with rfl | hmem
    · exact Nat.le_refl d
    · exact (List.rel_of_pairwise_cons h hmem).le
  omega

/-- The documents behind the range of `n`. -/
theorem dropWhile_range {e : Nat} : ∀ {ns : List Nat}, ns.Pairwise (· < ·) →
    ∀ d ∈ ns.dropWhile fun d => d < e, e ≤ d
  | [], _, _, hd => nomatch hd
  | n :: ns, h, d, hd => by
    rw [List.dropWhile_cons] at hd
    split at hd
    next => exact dropWhile_range (List.pairwise_cons.1 h).2 d hd
    next hn =>
      rw [decide_eq_true_iff] at hn
      rcases List.mem_cons.1 hd with rfl | hmem
      · exact Nat.le_of_not_lt hn
      · have hlt := List.rel_of_pairwise_cons h hmem
        omega

theorem exists_block {n : Nat} {ns : List Nat} (h : (n :: ns).Pairwise (· < ·))
    (hlt : n < 2147483647) : ∃ b : Block, b.index = n / 65536 ∧
      b.docs = (n :: ns).takeWhile fun d => d < 65536 * (n / 65536 + 1) := by
  have hsorted := h.sublist (List.takeWhile_sublist fun d => decide (d < 65536 * (n / 65536 + 1)))
  refine ⟨⟨n / 65536, ((n :: ns).takeWhile fun d => d < 65536 * (n / 65536 + 1)).map (· % 65536),
    List.pairwise_map.2 (hsorted.imp_of_mem fun ha hb hab => ?_), fun l hl => ?_, ?_, by omega⟩,
    rfl, ?_⟩
  · have ha' := takeWhile_range h ha
    have hb' := takeWhile_range h hb
    omega
  · obtain ⟨d, -, rfl⟩ := List.mem_map.1 hl
    exact Nat.mod_lt d (by decide)
  · rw [List.length_map, List.takeWhile_cons_of_pos (by rw [decide_eq_true_iff]; omega)]
    exact Nat.succ_pos _
  · rw [Block.docs, List.map_map]
    refine (List.map_congr_left fun d hd => ?_).trans (List.map_id _)
    have hdiv := takeWhile_range h hd
    show 65536 * (n / 65536) + d % 65536 = d
    omega

/-! ## The loop -/

/-- What the writer wrote of some blocks. -/
structure Written (power : U8) (bs : List Block) (s : WriteState) : Prop where
  ordered : Ordered bs
  out : s.out = bs.flatMap (Block.bytes power)
  jumps : s.jumps = (List.range (lastBlock bs)).map (jumpAt power bs)
  last : s.lastBlock = lastBlock bs
  total : s.totalCardinality = ((bs.flatMap Block.docs).length : Int)

/-- The state of the writer between two blocks. -/
structure WriteInv (power : U8) (ns : List Nat) (s : WriteState) (bs : List Block)
    (rest : List Nat) : Prop where
  written : Written power bs s
  docs : s.docs = rest.map fun d : Nat => (d : Int)
  split : bs.flatMap Block.docs ++ rest = ns
  behind : ∀ d ∈ rest, lastBlock bs ≤ d / 65536

section

variable {power : U8} {ns : List Nat}

/-- The entries of one more block. -/
theorem Written.addJumps {bs : List Block} {s : WriteState} (h : Written power bs s) (j : Nat) :
    addJumps s.jumps s.out.length s.totalCardinality s.lastBlock j = .ok
      ((List.range (lastBlock bs)).map (jumpAt power bs) ++
        List.replicate (j - lastBlock bs)
          (((bs.flatMap Block.docs).length : Int),
            ((bs.flatMap (Block.bytes power)).length : Int))) := by
  have hsmall : (bs.flatMap (Block.bytes power)).length ≤ 302120960 := h.ordered.bytes_length_le
  rw [IndexedDisi.addJumps, h.jumps, h.last, h.out, h.total, List.length_map, List.length_range,
    guardOk_pos rfl, ok_bind, guardOk_pos (by rw [noMoreDocs]; omega),
    ok_bind]

/-- One turn of the writer writes one block. -/
theorem writePass_written (hpower : Legal power) (hsorted : ns.Pairwise (· < ·))
    (hlt : ∀ d ∈ ns, d < 2147483647) {s : WriteState} {bs : List Block} {rest : List Nat}
    (h : WriteInv power ns s bs rest) :
    (∃ s' bs' rest', writePass power s = .ok (.inl s') ∧ WriteInv power ns s' bs' rest' ∧
      s'.docs.length < s.docs.length) ∨
    (writePass power s = .ok (.inr s) ∧ rest = []) := by
  cases rest with
  | nil =>
    refine Or.inr ⟨?_, rfl⟩
    rw [writePass, h.docs]
    rfl
  | cons n rest =>
    have hrest : (n :: rest).Pairwise (· < ·) := by
      have hns := hsorted
      rw [← h.split] at hns
      exact (List.pairwise_append.1 hns).2.1
    have hn : n < 2147483647 := hlt n (by
      rw [← h.split]
      exact List.mem_append_right _ (List.mem_cons_self ..))
    obtain ⟨b, hindex, hdocs⟩ := exists_block hrest hn
    have hlast : lastBlock bs ≤ b.index := hindex ▸ h.behind n (List.mem_cons_self ..)
    have hblock : (BitVec.ofInt 16 ((n : Int) >>> (16 : Nat))).toNat = b.index := by
      rw [← Int.natCast_shiftRight, BitVec.ofInt_natCast, BitVec.toNat_ofNat,
        Nat.shiftRight_eq_div_pow, hindex]
      omega
    have hword : BitVec.ofInt 16 ((n : Int) >>> (16 : Nat)) = BitVec.ofNat 16 b.index := by
      rw [← hblock, BitVec.ofNat_toNat, BitVec.setWidth_eq]
    have hbase : b.index <<< 16 = 65536 * b.index := (Nat.shiftLeft_eq _ _).trans (Nat.mul_comm _ _)
    have hend : ∀ d : Nat, ((d : Int) < ((65536 * b.index : Nat) : Int) + (blockSize : Nat)) ↔
        d < 65536 * (n / 65536 + 1) := fun d => by
      rw [← hindex, blockSize]
      omega
    have hfun : ((fun d : Int => decide (d < ((65536 * b.index : Nat) : Int) + (blockSize : Nat))) ∘
        fun d : Nat => (d : Int)) = fun d : Nat => decide (d < 65536 * (n / 65536 + 1)) :=
      funext fun d => by rw [Function.comp_apply, decide_eq_decide]; exact hend d
    have htake : (s.docs.takeWhile fun d => d < ((65536 * b.index : Nat) : Int) + (blockSize : Nat)) =
        b.ids := by
      rw [h.docs, List.takeWhile_map, hfun, Block.ids, hdocs]
    have hdrop : (s.docs.dropWhile fun d => d < ((65536 * b.index : Nat) : Int) + (blockSize : Nat)) =
        ((n :: rest).dropWhile fun d => d < 65536 * (n / 65536 + 1)).map fun d : Nat => (d : Int) := by
      rw [h.docs, List.dropWhile_map, hfun]
    have hlen : b.ids.length = b.lows.length := by
      rw [Block.ids, List.length_map, b.docs_length]
    refine Or.inl ⟨⟨_, (bs ++ [b]).flatMap (Block.bytes power),
      (List.range (b.index + 1)).map (jumpAt power (bs ++ [b])), b.index + 1,
      s.totalCardinality + b.lows.length⟩, bs ++ [b],
      (n :: rest).dropWhile fun d => d < 65536 * (n / 65536 + 1), ?_,
      ⟨⟨h.written.ordered.concat hlast, rfl, ?_, ?_, ?_⟩, rfl, ?_, fun d hd => ?_⟩, ?_⟩
    · have hs := h.docs
      rw [List.map_cons] at hs
      rw [writePass, hs]
      dsimp only
      rw [← hs, hblock, hbase, htake, hdrop, hlen, hword, h.written.addJumps, ok_bind,
        writePayload_eq hpower, ok_bind, ← jumps_concat h.written.ordered hlast,
        h.written.out, List.append_assoc, List.append_assoc, ← List.append_assoc (toLeBytes 2 _),
        List.flatMap_append, List.flatMap_singleton]
      rfl
    · rw [lastBlock_concat]
    · rw [lastBlock_concat]
    · dsimp only
      rw [h.written.total, List.flatMap_append, List.flatMap_singleton, List.length_append,
        b.docs_length, Int.natCast_add]
    · rw [List.flatMap_append, List.flatMap_singleton, List.append_assoc, hdocs,
        List.takeWhile_append_dropWhile, h.split]
    · have hge := dropWhile_range hrest d hd
      rw [lastBlock_concat]
      omega
    · dsimp only
      rw [h.docs, List.length_map, List.length_map, List.dropWhile_cons_of_pos (by
        rw [decide_eq_true_iff]; omega), List.length_cons]
      exact Nat.lt_succ_of_le (List.dropWhile_sublist _).length_le

end

/-! ## The region -/

/-- The block of `NO_MORE_DOCS`. -/
def sentinel : Block where
  index := 32767
  lows := [65535]
  sorted := List.pairwise_singleton _ _
  low_lt := fun l hl => by
    rw [List.mem_singleton.1 hl]
    decide
  pos := Nat.one_pos
  index_lt := by decide

/-- The entries that the writer keeps of its table. -/
def tableCount (bs : List Block) : Nat := if lastBlock bs + 1 = 2 then 0 else lastBlock bs + 1

/-- One entry of the table. -/
def jumpBytes (jump : Int × Int) : List U8 :=
  toLeBytes 4 (BitVec.ofInt 32 jump.1) ++ toLeBytes 4 (BitVec.ofInt 32 jump.2)

/-- The jump table. -/
def tableBytes (power : U8) (bs : List Block) : List U8 :=
  (List.range (tableCount bs)).flatMap fun j => jumpBytes (jumpAt power bs j)

/-- The blocks and the sentinel. -/
def region (power : U8) (bs : List Block) : List U8 :=
  (bs ++ [sentinel]).flatMap (Block.bytes power)

theorem sentinel_bytes (power : U8) : sentinel.bytes power =
    toLeBytes 2 (BitVec.ofInt 16 (noMoreDocs >>> (16 : Nat))) ++ toLeBytes 2 0#16 ++
      toLeBytes 2 (BitVec.ofInt 16 noMoreDocs) := rfl

theorem foldl_writeJump (l : List (Int × Int)) (out : List U8) :
    l.foldl writeJump out = out ++ l.flatMap jumpBytes := by
  rw [← foldl_append_flatMap]
  refine congrArg (List.foldl · out l) (funext fun out => funext fun jump => ?_)
  exact List.append_assoc ..

/-- The sentinel has one entry, at the end of the blocks. -/
theorem jumps_end {power : U8} {bs : List Block} (h : Ordered bs) :
    (List.range (lastBlock bs)).map (jumpAt power bs) ++
        List.replicate (lastBlock bs + 1 - lastBlock bs)
          (((bs.flatMap Block.docs).length : Int), ((bs.flatMap (Block.bytes power)).length : Int)) =
      (List.range (lastBlock bs + 1)).map (jumpAt power bs) := by
  have hall := takeWhile_index_all fun b hb => h.lt_last (b := b) hb
  rw [List.range_succ, List.map_append, List.map_singleton, Nat.add_sub_cancel_left,
    List.replicate_one, jumpAt, hall]

/-- The region of a set of documents, with its jump table. -/
theorem writeWithDenseRankPower_eq {power : U8} (hpower : Legal power) {ns : List Nat}
    (hsorted : ns.Pairwise (· < ·)) (hlt : ∀ d ∈ ns, d < 2147483647) :
    ∃ bs : List Block, Ordered bs ∧ bs.flatMap Block.docs = ns ∧
      writeWithDenseRankPower (ns.map fun d : Nat => (d : Int)) power =
        .ok (region power bs ++ tableBytes power bs, (BitVec.ofNat 16 (tableCount bs)).toInt) := by
  have hstart : WriteInv power ns ⟨ns.map fun d : Nat => (d : Int), [], [], 0, 0⟩ [] ns :=
    ⟨⟨List.Pairwise.nil, rfl, rfl, rfl, rfl⟩, rfl, rfl, fun _ _ => Nat.zero_le _⟩
  obtain ⟨s, hloop, bs, hinv⟩ := iterate_ok (writePass power)
    (fun s => ∃ bs rest, WriteInv power ns s bs rest) (fun s => s.docs.length)
    (fun s => ∃ bs, WriteInv power ns s bs [])
    (fun s ⟨bs, rest, h⟩ => by
      rcases writePass_written hpower hsorted hlt h with ⟨s', bs', rest', hs, h', hμ⟩ | ⟨hs, rfl⟩
      · exact Or.inl ⟨s', hs, ⟨bs', rest', h'⟩, hμ⟩
      · exact Or.inr ⟨s, hs, bs, h⟩)
    (ns.length + 1) ⟨ns.map fun d : Nat => (d : Int), [], [], 0, 0⟩ ⟨[], ns, hstart⟩
    (by dsimp only; rw [List.length_map]; exact Nat.lt_succ_self _)
  have hdocs : bs.flatMap Block.docs = ns := by
    rw [← hinv.split, List.append_nil]
  refine ⟨bs, hinv.written.ordered, hdocs, ?_⟩
  have hchain : (ns.map fun d : Nat => (d : Int)).IsChain (· < ·) :=
    (List.pairwise_map.2 (hsorted.imp fun h => Int.ofNat_lt.2 h)).isChain
  have hlast : (ns.map fun d : Nat => (d : Int)).getLast? ≠ some noMoreDocs := by
    intro h
    obtain ⟨d, hd, heq⟩ := List.mem_map.1 (List.mem_of_getLast? h)
    have hlt' := hlt d hd
    rw [noMoreDocs] at heq
    omega
  have hhead : ∀ d ∈ (ns.map fun d : Nat => (d : Int)).head?, 0 ≤ d := by
    intro d hd
    obtain ⟨n, -, rfl⟩ := List.mem_map.1 (List.mem_of_mem_head? hd)
    exact Int.natCast_nonneg n
  have hkept : ((List.range (lastBlock bs + 1)).map (jumpAt power bs)).take (tableCount bs) =
      (List.range (tableCount bs)).map (jumpAt power bs) := by
    rw [← List.map_take, List.take_range, Nat.min_eq_left]
    rw [tableCount]
    split <;> omega
  rw [Legal] at hpower
  rw [writeWithDenseRankPower, guardOk_pos hpower, ok_bind,
    guardOk_pos hchain, ok_bind, guardOk_pos hlast, ok_bind,
    guardOk_pos hhead, ok_bind, List.length_map, hloop, ok_bind]
  dsimp only
  rw [hinv.written.addJumps, ok_bind, hinv.written.last, jumps_end hinv.written.ordered,
    ← tableCount, hkept, foldl_writeJump, hinv.written.out, region, List.flatMap_append,
    List.flatMap_singleton, sentinel_bytes, tableBytes, List.flatMap_map]
  refine congrArg Outcome.ok (Prod.ext ?_ rfl)
  show Store.writeI16 _ _ ++ _ = _
  rw [Store.writeI16, Store.writeBytes, List.append_assoc _ _ (toLeBytes 2 _),
    List.append_assoc _ _ (_ ++ toLeBytes 2 _), List.append_assoc (toLeBytes 2 _)]

end LuceneRust.Codecs.IndexedDisi
