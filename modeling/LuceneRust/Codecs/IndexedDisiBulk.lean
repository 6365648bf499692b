import LuceneRust.Codecs.IndexedDisiRegion
import LuceneRust.Codecs.IndexedDisiSpec

/-!
# The readers of a whole region

Each reader is followed block by block, for the bytes of any block, whatever
its encoding.

* `decodePass_block`, `decodePass_sentinel`: one turn of the list decoder.
* `decodeDocIdsBelow_region`: the list of a region is its documents.
* `orPass_block`, `orPass_sentinel`: one turn of the decoder into a bit set.
* `orIntoWords_region`: the bits of a region are added to those there.
-/

namespace LuceneRust.Codecs.IndexedDisi

open RustSem WordTape
open Store (Result SliceInput Reads)

/-! ## Reads -/

theorem reads_readU16 (v : U16) : Reads SliceInput.readU16 (toLeBytes 2 v) v :=
  Store.reads_readLe v (Nat.le_refl _)

theorem reads_readI64 (v : U64) : Reads SliceInput.readI64 (toLeBytes 8 v) v :=
  Store.reads_readLe v (Nat.le_refl _)

/-- A read, and what is left. -/
theorem read_step {α : Type} {rd : SliceInput → Result (α × SliceInput)} {bs tail : List U8}
    {a : α} (h : Reads rd bs a) {inp : SliceInput} (hrest : inp.rest = bs ++ tail) :
    ∃ inp', rd inp = .ok (a, inp') ∧ inp'.rest = tail :=
  ⟨_, h inp tail hrest, SliceInput.rest_advance_append hrest⟩

theorem skip_step {inp : SliceInput} {bs tail : List U8} (hrest : inp.rest = bs ++ tail) :
    ∃ inp', inp.skip bs.length = .ok inp' ∧ inp'.rest = tail :=
  ⟨_, SliceInput.skip_of_le (by rw [hrest, List.length_append]; exact Nat.le_add_right _ _),
    SliceInput.rest_advance_append hrest⟩

namespace Block

variable (power : U8) (b : Block)

theorem toNat_index : (BitVec.ofNat 16 b.index).toNat = b.index := by
  have h := b.index_lt
  rw [BitVec.toNat_ofNat]
  omega

/-- The cardinality of the header, less one. -/
theorem toNat_count : 1 + (BitVec.ofNat 16 (b.lows.length - 1)).toNat = b.lows.length := by
  have hle := b.length_le
  have hpos := b.pos
  rw [BitVec.toNat_ofNat]
  omega

theorem shift_or {l : Nat} (hl : l < 65536) :
    (b.index <<< 16) ||| (BitVec.ofNat 16 l).toNat = 65536 * b.index + l := by
  rw [BitVec.toNat_ofNat, Nat.mod_eq_of_lt hl, ← Nat.shiftLeft_add_eq_or_of_lt hl,
    Nat.shiftLeft_eq, Nat.mul_comm]

theorem mem_ids {d : Int} : d ∈ b.ids ↔ ∃ l ∈ b.lows, ((65536 * b.index + l : Nat) : Int) = d := by
  rw [ids, List.mem_map]
  constructor
  · rintro ⟨n, hn, rfl⟩
    obtain ⟨l, hl, rfl⟩ := b.mem_docs.1 hn
    exact ⟨l, hl, rfl⟩
  · rintro ⟨l, hl, rfl⟩
    exact ⟨_, b.mem_docs.2 ⟨l, hl, rfl⟩, rfl⟩

theorem ids_sorted : b.ids.Pairwise (· < ·) :=
  List.pairwise_map.2 (b.docs_sorted.imp fun h => Int.ofNat_lt.2 h)

/-- The documents of an ALL block. -/
theorem ids_of_full (h : b.lows.length = 65536) :
    b.ids = (List.range 65536).map fun i : Nat => ((65536 * b.index : Nat) : Int) + (i : Int) := by
  rw [ids, docs, b.lows_of_full h, List.map_map]
  exact List.map_congr_left fun i _ => Int.natCast_add _ _

/-- The documents of a DENSE block, word by word. -/
theorem ids_of_words : ((List.range 1024).flatMap fun i => (wordBits (b.word i)).map fun k : Nat =>
    ((65536 * b.index : Nat) : Int) + (i : Int) * 64 + (k : Int)) = b.ids := by
  refine List.Pairwise.eq_of_mem_iff (r := (· < ·)) (List.pairwise_flatMap.2 ⟨fun i _ => ?_, ?_⟩)
    b.ids_sorted fun d => ?_
  · exact List.pairwise_map.2 ((wordBits_sorted _).imp fun h => by omega)
  · refine List.pairwise_lt_range.imp fun {i j} hij x hx y hy => ?_
    obtain ⟨k, hk, rfl⟩ := List.mem_map.1 hx
    obtain ⟨m, -, rfl⟩ := List.mem_map.1 hy
    have hlt := wordBits_lt hk
    omega
  · rw [List.mem_flatMap, mem_ids]
    constructor
    · rintro ⟨i, -, hd⟩
      obtain ⟨k, hk, rfl⟩ := List.mem_map.1 hd
      have hbit := mem_wordBits.1 hk
      rw [b.getLsbD_word (wordBits_lt hk), decide_eq_true_iff] at hbit
      exact ⟨_, hbit, by omega⟩
    · rintro ⟨l, hl, rfl⟩
      have hlt := b.low_lt l hl
      refine ⟨l / 64, List.mem_range.2 (by omega),
        List.mem_map.2 ⟨l % 64, mem_wordBits.2 ?_, by omega⟩⟩
      rw [b.getLsbD_word (Nat.mod_lt l (by decide)), Nat.div_add_mod]
      exact decide_eq_true hl

end Block

/-! ## The list decoder -/

section

variable {power : U8} {maxDoc last : Int} {docs : List Int} {inp : SliceInput} {tail : List U8}

theorem checkDocs_pass {first end' : Int} (hfirst : last < first) (hend : end' < maxDoc) :
    checkDocs maxDoc first end' last = .ok () :=
  if_neg (by omega)

/-- The documents of a SPARSE block. -/
theorem takeSparse_eq (maxDoc : Int) (b : Block) : ∀ (ls : List Nat) (docs : List Int)
    (last : Int) (inp : SliceInput), ls.Pairwise (· < ·) → (∀ l ∈ ls, l < 65536) →
    (∀ l ∈ ls, last < ((65536 * b.index + l : Nat) : Int)) →
    (∀ l ∈ ls, ((65536 * b.index + l : Nat) : Int) < maxDoc ∧
      65536 * b.index + l < 2147483647) → last < (65536 * (b.index + 1) : Nat) →
    inp.rest = (ls.flatMap fun l => toLeBytes 2 (BitVec.ofNat 16 l)) ++ tail →
    ∃ last' inp', takeSparse maxDoc b.index ls.length (docs, last, inp) =
      .ok (false, docs ++ ls.map (fun l => ((65536 * b.index + l : Nat) : Int)), last', inp') ∧
      last' < (65536 * (b.index + 1) : Nat) ∧ inp'.rest = tail
  | [], docs, last, inp, _, _, _, _, hlast, hrest =>
    ⟨last, inp, by rw [List.map_nil, List.append_nil]; rfl, hlast, hrest⟩
  | l :: ls, docs, last, inp, hsorted, hlt, hgt, hmax, _, hrest => by
    rw [List.pairwise_cons] at hsorted
    rw [List.forall_mem_cons] at hlt hgt hmax
    rw [List.flatMap_cons, List.append_assoc] at hrest
    obtain ⟨inp', hread, hrest'⟩ := read_step (reads_readU16 _) hrest
    obtain ⟨last', inp'', hloop, hlast', htail⟩ := takeSparse_eq maxDoc b ls
      (docs ++ [((65536 * b.index + l : Nat) : Int)]) ((65536 * b.index + l : Nat) : Int) inp'
      hsorted.2 hlt.2
      (fun m hm => Int.ofNat_lt.2 (Nat.add_lt_add_left (hsorted.1 m hm) _)) hmax.2
      (by have hl := hlt.1; omega) hrest'
    refine ⟨last', inp'', ?_, hlast', htail⟩
    have hne : ¬((65536 * b.index + l : Nat) : Int) = noMoreDocs := by
      have hl := hmax.1.2
      rw [noMoreDocs]
      omega
    rw [List.length_cons, takeSparse, hread, ok_bind]
    dsimp only
    rw [b.shift_or hlt.1, if_neg hne, checkDocs_pass hgt.1 hmax.1.1, ok_bind, hloop,
      List.map_cons, List.append_assoc, List.singleton_append]

/-- The documents of some words of a DENSE block. -/
theorem takeDense_eq (maxDoc base : Int) (word : Nat → U64) : ∀ (is : List Nat)
    (docs : List Int) (last : Int) (inp : SliceInput), is.Pairwise (· < ·) → (∀ i ∈ is, i < 1024) →
    (∀ i ∈ is, last < base + (i : Int) * 64) →
    (∀ i ∈ is, ∀ k ∈ wordBits (word i), base + (i : Int) * 64 + (k : Int) < maxDoc) →
    last < base + 65536 →
    inp.rest = (is.flatMap fun i => toLeBytes 8 (word i)) ++ tail →
    ∃ last' inp', takeDense maxDoc base is (docs, last, inp) =
      .ok (docs ++ (is.flatMap fun i => (wordBits (word i)).map fun k : Nat =>
        base + (i : Int) * 64 + (k : Int)), last', inp') ∧
      last' < base + 65536 ∧ inp'.rest = tail
  | [], docs, last, inp, _, _, _, _, hlast, hrest =>
    ⟨last, inp, by rw [List.flatMap_nil, List.append_nil]; rfl, hlast, hrest⟩
  | i :: is, docs, last, inp, hsorted, hlt, hgt, hmax, hlast, hrest => by
    rw [List.pairwise_cons] at hsorted
    rw [List.forall_mem_cons] at hlt hgt hmax
    rw [List.flatMap_cons, List.append_assoc] at hrest
    obtain ⟨inp', hread, hrest'⟩ := read_step (reads_readI64 _) hrest
    rw [takeDense, hread, ok_bind]
    dsimp only
    by_cases hzero : word i = 0#64
    · obtain ⟨last', inp'', hloop, hlast', htail⟩ := takeDense_eq maxDoc base word is docs last
        inp' hsorted.2 hlt.2 hgt.2 hmax.2 hlast hrest'
      refine ⟨last', inp'', ?_, hlast', htail⟩
      rw [if_pos hzero, hloop, List.flatMap_cons, hzero, wordBits_zero, List.map_nil,
        List.nil_append]
    · have hi := hlt.1
      have hfirst := mem_wordBits.2 (firstAt_ctz hzero).2.2.1
      obtain ⟨hclz, -, hbit, -⟩ := lastAt_clz hzero
      have hend := hmax.1 _ (mem_wordBits.2 hbit)
      have hctz := wordBits_range hfirst
      obtain ⟨last', inp'', hloop, hlast', htail⟩ := takeDense_eq maxDoc base word is
        (docs ++ (wordBits (word i)).map fun k : Nat => base + (i : Int) * 64 + (k : Int))
        (base + (i : Int) * 64 + 63 - (word i).clz.toNat) inp' hsorted.2 hlt.2
        (fun j hj => by
          have hij := hsorted.1 j hj
          omega) hmax.2 (by omega) hrest'
      refine ⟨last', inp'', ?_, hlast', htail⟩
      have hgt := hgt.1
      rw [if_neg hzero, checkDocs_pass (by omega) (by omega), ok_bind,
        iterate_takeBitPass _ _ _ _ (length_wordBits_lt _), ok_bind, hloop,
        List.flatMap_cons, List.append_assoc]

/-- One turn of the list decoder takes one block. -/
theorem decodePass_block (docs : List Int) (hpower : Legal power) (b : Block)
    (hrest : inp.rest = b.bytes power ++ tail) (hlast : last < ((65536 * b.index : Nat) : Int))
    (hmax : ∀ d ∈ b.docs, (d : Int) < maxDoc ∧ d < 2147483647) :
    ∃ last' inp', decodePass power maxDoc (docs, last, inp) =
      .ok (.inl (docs ++ b.ids, last', inp')) ∧
      last' < (65536 * (b.index + 1) : Nat) ∧ inp'.rest = tail := by
  have hmax' : ∀ l ∈ b.lows, ((65536 * b.index + l : Nat) : Int) < maxDoc ∧
      65536 * b.index + l < 2147483647 := fun l hl => hmax _ (b.mem_docs.2 ⟨l, hl, rfl⟩)
  have hlow : ∀ l : Nat, last < ((65536 * b.index + l : Nat) : Int) := fun l => by omega
  have hnext : last < (65536 * (b.index + 1) : Nat) := by omega
  rw [Block.bytes, List.append_assoc, List.append_assoc] at hrest
  obtain ⟨inp₁, hread₁, hrest₁⟩ := read_step (reads_readU16 _) hrest
  obtain ⟨inp₂, hread₂, hrest₂⟩ := read_step (reads_readU16 _) hrest₁
  have hbase : b.index <<< 16 = 65536 * b.index := (Nat.shiftLeft_eq _ _).trans (Nat.mul_comm _ _)
  rw [decodePass]
  dsimp only
  rw [hread₁, ok_bind]
  dsimp only
  rw [hread₂, ok_bind]
  dsimp only
  rw [b.toNat_count, b.toNat_index, hbase]
  rw [Block.payload] at hrest₂
  split at hrest₂
  next hsparse =>
    obtain ⟨last', inp', hloop, hlast', htail⟩ := takeSparse_eq maxDoc b b.lows docs last inp₂
      b.sorted b.low_lt (fun l _ => hlow l) hmax' hnext hrest₂
    refine ⟨last', inp', ?_, hlast', htail⟩
    rw [if_pos hsparse, hloop, ok_bind, Block.ids, Block.docs, List.map_map]
    rfl
  next hsparse =>
    rw [if_neg hsparse]
    split at hrest₂
    next hall =>
      rw [if_pos hall]
      rw [blockSize] at hall
      have hend := (hmax' 65535 (b.mem_of_full hall (by decide))).1
      rw [blockSize]
      refine ⟨((65536 * b.index : Nat) : Int) + (65536 : Nat) - 1, inp₂, ?_, by omega, hrest₂⟩
      rw [checkDocs_pass hlast (by omega), ok_bind, b.ids_of_full hall]
    next hall =>
      rw [if_neg hall, denseRankBytes_eq hpower b.words, ok_bind]
      rw [List.append_assoc] at hrest₂
      obtain ⟨inp₃, hskip, hrest₃⟩ := skip_step hrest₂
      rw [hskip, ok_bind]
      rw [Block.words, List.flatMap_map] at hrest₃
      obtain ⟨last', inp', hloop, hlast', htail⟩ := takeDense_eq maxDoc
        ((65536 * b.index : Nat) : Int) b.word (List.range 1024) docs last inp₃
        List.pairwise_lt_range (fun i hi => List.mem_range.1 hi) (fun i _ => by omega)
        (fun i _ k hk => by
          have hbit := mem_wordBits.1 hk
          rw [b.getLsbD_word (wordBits_lt hk), decide_eq_true_iff] at hbit
          have hdoc := (hmax' _ hbit).1
          omega) (by omega) hrest₃
      refine ⟨last', inp', ?_, by omega, htail⟩
      rw [denseBlockLongs, hloop, ok_bind, b.ids_of_words]

/-- The block of the sentinel ends the loop. -/
theorem decodePass_sentinel (hrest : inp.rest = sentinel.bytes power ++ tail) :
    decodePass power maxDoc (docs, last, inp) = .ok (.inr docs) := by
  rw [sentinel_bytes, List.append_assoc, List.append_assoc] at hrest
  obtain ⟨inp₁, hread₁, hrest₁⟩ := read_step (reads_readU16 _) hrest
  obtain ⟨inp₂, hread₂, hrest₂⟩ := read_step (reads_readU16 _) hrest₁
  obtain ⟨inp₃, hread₃, -⟩ := read_step (reads_readU16 _) hrest₂
  have hmax : (((BitVec.ofInt 16 (noMoreDocs >>> (16 : Nat))).toNat <<< 16 |||
      (BitVec.ofInt 16 noMoreDocs).toNat : Nat) : Int) = noMoreDocs := by decide
  rw [decodePass]
  dsimp only
  rw [hread₁, ok_bind]
  dsimp only
  rw [hread₂, ok_bind]
  dsimp only
  rw [if_pos (by decide), show 1 + (0#16).toNat = 0 + 1 from rfl, takeSparse, hread₃,
    ok_bind]
  dsimp only
  rw [if_pos hmax]
  rfl

end

theorem length_le_region (power : U8) (bs : List Block) (tail : List U8) :
    bs.length < (region power bs ++ tail).length + 1 := by
  have hpos : ∀ b : Block, 0 < (b.bytes power).length := fun b => by
    rw [Block.bytes, List.length_append, List.length_append, toLeBytes_length]
    omega
  have hle := Store.length_le_flatMap hpos (bs ++ [sentinel])
  rw [List.length_append] at hle
  rw [List.length_append, region]
  omega

/-- The list of some blocks, behind what is there. -/
theorem iterate_decodePass {power : U8} (hpower : Legal power) {maxDoc : Int} {tail : List U8} :
    ∀ (bs : List Block) (docs : List Int) (last : Int) (inp : SliceInput) (fuel : Nat),
    bs.length < fuel → Ordered bs → (∀ b ∈ bs, last < ((65536 * b.index : Nat) : Int)) →
    (∀ b ∈ bs, ∀ d ∈ b.docs, (d : Int) < maxDoc ∧ d < 2147483647) →
    inp.rest = region power bs ++ tail →
    iterate (decodePass power maxDoc) fuel (docs, last, inp) =
      .ok (docs ++ bs.flatMap Block.ids)
  | [], docs, last, inp, fuel + 1, _, _, _, _, hrest => by
    rw [List.flatMap_nil, List.append_nil]
    have hend : inp.rest = sentinel.bytes power ++ tail := by
      rw [hrest, region, List.nil_append, List.flatMap_singleton]
    exact iterate_leave (decodePass_sentinel hend)
  | b :: bs, docs, last, inp, fuel + 1, hfuel, hordered, hlast, hmax, hrest => by
    rw [Ordered, List.pairwise_cons] at hordered
    rw [List.forall_mem_cons] at hlast hmax
    rw [region, List.cons_append, List.flatMap_cons, List.append_assoc] at hrest
    obtain ⟨last', inp', hpass, hlast', hrest'⟩ := decodePass_block docs hpower b hrest
      hlast.1 hmax.1
    rw [List.length_cons] at hfuel
    rw [iterate_continue hpass, iterate_decodePass hpower bs _ last' inp' fuel (by omega)
      hordered.2 (fun c hc => ?_) hmax.2 hrest', List.flatMap_cons, List.append_assoc]
    have hlt := hordered.1 c hc
    omega

/-- The list of a region is its documents. -/
theorem decodeDocIdsBelow_region {power : U8} (hpower : Legal power) {bs : List Block}
    (hordered : Ordered bs) {maxDoc : Int}
    (hmax : ∀ b ∈ bs, ∀ d ∈ b.docs, (d : Int) < maxDoc ∧ d < 2147483647) (tail : List U8) :
    decodeDocIdsBelow (region power bs ++ tail) power maxDoc = .ok (bs.flatMap Block.ids) :=
  iterate_decodePass hpower bs [] (-1) _ _ (length_le_region power bs tail) hordered
    (fun b _ => by omega) hmax (SliceInput.rest_new _)

/-! ## The decoder into a bit set -/

/-- The bits of `P` are added to some words. -/
structure Adds (words words' : List U64) (P : Nat → Prop) : Prop where
  length : words'.length = words.length
  bits : ∀ p, lsbAt words' p = true ↔ lsbAt words p = true ∨ P p

section

variable {words words' words'' : List U64} {P Q : Nat → Prop}

theorem Adds.none (words : List U64) : Adds words words fun _ => False :=
  ⟨rfl, fun _ => (or_false _).symm.to_iff⟩

theorem Adds.trans (h : Adds words words' P) (h' : Adds words' words'' Q) :
    Adds words words'' fun p => P p ∨ Q p :=
  ⟨h'.length.trans h.length, fun p => by rw [h'.bits, h.bits, or_assoc]⟩

theorem Adds.congr (h : Adds words words' P) (hPQ : ∀ p, P p ↔ Q p) : Adds words words' Q :=
  ⟨h.length, fun p => by rw [h.bits, hPQ]⟩

/-- One word gets more bits. -/
theorem adds_modify {i : Nat} (hi : i < words.length) (m : U64) :
    Adds words (words.modify i (· ||| m)) fun p => p / 64 = i ∧ m.getLsbD (p % 64) = true :=
  ⟨List.length_modify .., fun p => by
    rw [lsbAt_modify_mask hi bitwise_or Bool.or_false, Bool.or_eq_true, Bool.and_eq_true,
      decide_eq_true_iff]⟩

end

section

variable {power : U8} {tail : List U8} {words : List U64} {inp : SliceInput}

/-- The documents of a SPARSE block. -/
theorem orSparse_eq (b : Block) : ∀ (ls : List Nat) (words : List U64) (inp : SliceInput),
    (∀ l ∈ ls, l < 65536) → (∀ l ∈ ls, 65536 * b.index + l < 2147483647 ∧
      65536 * b.index + l < 64 * words.length) →
    inp.rest = (ls.flatMap fun l => toLeBytes 2 (BitVec.ofNat 16 l)) ++ tail →
    ∃ words' inp', orSparse b.index ls.length (words, inp) = .ok (false, words', inp') ∧
      Adds words words' (fun p => ∃ l ∈ ls, 65536 * b.index + l = p) ∧ inp'.rest = tail
  | [], words, inp, _, _, hrest => by
    refine ⟨words, inp, rfl, (Adds.none words).congr fun p => ?_, hrest⟩
    exact ⟨False.elim, fun ⟨l, hl, _⟩ => nomatch hl⟩
  | l :: ls, words, inp, hlt, hmax, hrest => by
    rw [List.forall_mem_cons] at hlt hmax
    rw [List.flatMap_cons, List.append_assoc] at hrest
    obtain ⟨inp', hread, hrest'⟩ := read_step (reads_readU16 _) hrest
    have hne : ¬((65536 * b.index + l : Nat) : Int) = noMoreDocs := by
      have hl := hmax.1.1
      rw [noMoreDocs]
      omega
    have hword : (65536 * b.index + l) >>> 6 = (65536 * b.index + l) / 64 :=
      Nat.shiftRight_eq_div_pow _ _
    have hbit : (65536 * b.index + l) &&& 63 = (65536 * b.index + l) % 64 :=
      Nat.and_two_pow_sub_one_eq_mod _ 6
    have hfits : (65536 * b.index + l) / 64 < words.length := by
      have hl := hmax.1.2
      omega
    have hadd := adds_modify hfits (oneBit ((65536 * b.index + l) % 64))
    obtain ⟨words', inp'', hloop, hadds, htail⟩ := orSparse_eq b ls
      (words.modify ((65536 * b.index + l) / 64) (· ||| oneBit ((65536 * b.index + l) % 64))) inp'
      hlt.2 (by rw [hadd.length]; exact hmax.2) hrest'
    refine ⟨words', inp'', ?_, (hadd.trans hadds).congr fun p => ?_, htail⟩
    · rw [List.length_cons, orSparse, hread, ok_bind]
      dsimp only
      rw [b.shift_or hlt.1, if_neg hne, hword, hbit, if_neg (by omega), hloop]
    · have hp : p % 64 < 64 := Nat.mod_lt p (by decide)
      rw [getLsbD_oneBit hp, decide_eq_true_iff, List.exists_mem_cons_iff]
      refine or_congr_left ?_
      omega

/-- The words of a DENSE block. -/
theorem orDense_eq (b : Block) : ∀ (is : List Nat) (words : List U64) (inp : SliceInput),
    (∀ i ∈ is, i < 1024) → (∀ l ∈ b.lows, 65536 * b.index + l < 64 * words.length) →
    inp.rest = (is.flatMap fun i => toLeBytes 8 (b.word i)) ++ tail →
    ∃ words' inp', orDense (1024 * b.index) is (words, inp) = .ok (words', inp') ∧
      Adds words words' (fun p => ∃ i ∈ is, p / 64 = 1024 * b.index + i ∧
        (b.word i).getLsbD (p % 64) = true) ∧ inp'.rest = tail
  | [], words, inp, _, _, hrest => by
    refine ⟨words, inp, rfl, (Adds.none words).congr fun p => ?_, hrest⟩
    exact ⟨False.elim, fun ⟨i, hi, _⟩ => nomatch hi⟩
  | i :: is, words, inp, hlt, hmax, hrest => by
    rw [List.forall_mem_cons] at hlt
    rw [List.flatMap_cons, List.append_assoc] at hrest
    obtain ⟨inp', hread, hrest'⟩ := read_step (reads_readI64 _) hrest
    rw [orDense, hread, ok_bind]
    dsimp only
    by_cases hzero : b.word i = 0#64
    · obtain ⟨words', inp'', hloop, hadds, htail⟩ := orDense_eq b is words inp' hlt.2 hmax hrest'
      refine ⟨words', inp'', by rw [if_pos hzero, hloop], hadds.congr fun p => ?_, htail⟩
      rw [List.exists_mem_cons_iff, hzero, BitVec.getLsbD_zero]
      exact ⟨Or.inr, fun h => h.resolve_left fun h => Bool.false_ne_true h.2⟩
    · have hbit := (lastAt_clz hzero).2.2.1
      have hclz : 63 - (b.word i).clz.toNat < 64 := by omega
      rw [b.getLsbD_word hclz, decide_eq_true_iff] at hbit
      have hfits : 1024 * b.index + i < words.length := by
        have hl := hmax _ hbit
        omega
      have hadd := adds_modify hfits (b.word i)
      obtain ⟨words', inp'', hloop, hadds, htail⟩ := orDense_eq b is
        (words.modify (1024 * b.index + i) (· ||| b.word i)) inp' hlt.2
        (by rw [hadd.length]; exact hmax) hrest'
      refine ⟨words', inp'', ?_, (hadd.trans hadds).congr fun p => ?_, htail⟩
      · rw [if_neg hzero, if_neg (Nat.not_le.2 hfits), hloop]
      · rw [List.exists_mem_cons_iff]

/-- All of the words of an ALL block. -/
theorem adds_splice {base : Nat} (h : base + 1024 ≤ words.length) :
    Adds words (splice words base (List.replicate 1024 (BitVec.allOnes 64))) fun p =>
      base ≤ p / 64 ∧ p / 64 < base + 1024 := by
  have hlen : base + (List.replicate 1024 (BitVec.allOnes 64)).length ≤ words.length := by
    rw [List.length_replicate]
    exact h
  refine ⟨splice_length hlen, fun p => ?_⟩
  have hp : p % 64 < 64 := Nat.mod_lt p (by decide)
  rw [lsbAt, List.getD_eq_getElem?_getD, getElem?_splice hlen, List.length_replicate]
  split
  next hin =>
    rw [List.getElem?_replicate, if_pos (by omega), Option.getD_some, BitVec.getLsbD_allOnes]
    exact ⟨fun _ => Or.inr hin, fun _ => decide_eq_true hp⟩
  next hout =>
    rw [← List.getD_eq_getElem?_getD, ← lsbAt]
    exact ⟨Or.inl, fun hbit => hbit.resolve_right hout⟩

/-- One turn of the decoder adds one block. -/
theorem orPass_block (hpower : Legal power) (b : Block)
    (hrest : inp.rest = b.bytes power ++ tail) (hmax : ∀ d ∈ b.docs, d < 2147483647 ∧
      d < 64 * words.length) :
    ∃ words' inp', orPass power (words, inp) = .ok (.inl (words', inp')) ∧
      Adds words words' (· ∈ b.docs) ∧ inp'.rest = tail := by
  have hmax' : ∀ l ∈ b.lows, 65536 * b.index + l < 2147483647 ∧
      65536 * b.index + l < 64 * words.length := fun l hl => hmax _ (b.mem_docs.2 ⟨l, hl, rfl⟩)
  rw [Block.bytes, List.append_assoc, List.append_assoc] at hrest
  obtain ⟨inp₁, hread₁, hrest₁⟩ := read_step (reads_readU16 _) hrest
  obtain ⟨inp₂, hread₂, hrest₂⟩ := read_step (reads_readU16 _) hrest₁
  have hbase : b.index <<< 10 = 1024 * b.index := (Nat.shiftLeft_eq _ _).trans (Nat.mul_comm _ _)
  rw [orPass]
  dsimp only
  rw [hread₁, ok_bind]
  dsimp only
  rw [hread₂, ok_bind]
  dsimp only
  rw [b.toNat_count, b.toNat_index, hbase]
  rw [Block.payload] at hrest₂
  split at hrest₂
  next hsparse =>
    obtain ⟨words', inp', hloop, hadds, htail⟩ := orSparse_eq b b.lows words inp₂ b.low_lt hmax'
      hrest₂
    refine ⟨words', inp', ?_, hadds.congr fun p => b.mem_docs.symm, htail⟩
    rw [if_pos hsparse, hloop, ok_bind]
    rfl
  next hsparse =>
    rw [if_neg hsparse]
    split at hrest₂
    next hall =>
      rw [if_pos hall]
      rw [blockSize] at hall
      have hfits : 1024 * b.index + 1024 ≤ words.length := by
        have hl := (hmax' 65535 (b.mem_of_full hall (by decide))).2
        omega
      rw [denseBlockLongs, if_neg (Nat.not_lt.2 hfits)]
      refine ⟨_, inp₂, rfl, (adds_splice hfits).congr fun p => ?_, hrest₂⟩
      rw [b.mem_docs]
      constructor
      · intro hp
        exact ⟨p % 65536, b.mem_of_full hall (Nat.mod_lt p (by decide)), by omega⟩
      · rintro ⟨l, hl, rfl⟩
        have hlt := b.low_lt l hl
        omega
    next hall =>
      rw [if_neg hall, denseRankBytes_eq hpower b.words, ok_bind]
      rw [List.append_assoc] at hrest₂
      obtain ⟨inp₃, hskip, hrest₃⟩ := skip_step hrest₂
      rw [hskip, ok_bind]
      rw [Block.words, List.flatMap_map] at hrest₃
      obtain ⟨words', inp', hloop, hadds, htail⟩ := orDense_eq b (List.range 1024) words inp₃
        (fun i hi => List.mem_range.1 hi) (fun l hl => (hmax' l hl).2) hrest₃
      refine ⟨words', inp', by rw [denseBlockLongs, hloop, ok_bind],
        hadds.congr fun p => ?_, htail⟩
      have hp : p % 64 < 64 := Nat.mod_lt p (by decide)
      rw [b.mem_docs]
      constructor
      · rintro ⟨i, hi, hword, hbit⟩
        rw [b.getLsbD_word hp, decide_eq_true_iff] at hbit
        exact ⟨_, hbit, by omega⟩
      · rintro ⟨l, hl, rfl⟩
        have hlt := b.low_lt l hl
        refine ⟨l / 64, List.mem_range.2 (by omega), by omega, ?_⟩
        rw [b.getLsbD_word hp, decide_eq_true_iff,
          show 64 * (l / 64) + (65536 * b.index + l) % 64 = l by omega]
        exact hl

/-- The block of the sentinel ends the loop. -/
theorem orPass_sentinel (hrest : inp.rest = sentinel.bytes power ++ tail) :
    orPass power (words, inp) = .ok (.inr words) := by
  rw [sentinel_bytes, List.append_assoc, List.append_assoc] at hrest
  obtain ⟨inp₁, hread₁, hrest₁⟩ := read_step (reads_readU16 _) hrest
  obtain ⟨inp₂, hread₂, hrest₂⟩ := read_step (reads_readU16 _) hrest₁
  obtain ⟨inp₃, hread₃, -⟩ := read_step (reads_readU16 _) hrest₂
  have hmax : (((BitVec.ofInt 16 (noMoreDocs >>> (16 : Nat))).toNat <<< 16 |||
      (BitVec.ofInt 16 noMoreDocs).toNat : Nat) : Int) = noMoreDocs := by decide
  rw [orPass]
  dsimp only
  rw [hread₁, ok_bind]
  dsimp only
  rw [hread₂, ok_bind]
  dsimp only
  rw [if_pos (by decide), show 1 + (0#16).toNat = 0 + 1 from rfl, orSparse, hread₃,
    ok_bind]
  dsimp only
  rw [if_pos hmax]
  rfl

end

/-- The bits of some blocks. -/
theorem iterate_orPass {power : U8} (hpower : Legal power) {tail : List U8} :
    ∀ (bs : List Block) (words : List U64) (inp : SliceInput) (fuel : Nat),
    bs.length < fuel → (∀ b ∈ bs, ∀ d ∈ b.docs, d < 2147483647 ∧ d < 64 * words.length) →
    inp.rest = region power bs ++ tail →
    ∃ words', iterate (orPass power) fuel (words, inp) = .ok words' ∧
      Adds words words' (· ∈ bs.flatMap Block.docs)
  | [], words, inp, fuel + 1, _, _, hrest => by
    have hend : inp.rest = sentinel.bytes power ++ tail := by
      rw [hrest, region, List.nil_append, List.flatMap_singleton]
    refine ⟨words, iterate_leave (orPass_sentinel hend), (Adds.none words).congr fun p => ?_⟩
    rw [List.flatMap_nil]
    exact ⟨False.elim, fun h => absurd h List.not_mem_nil⟩
  | b :: bs, words, inp, fuel + 1, hfuel, hmax, hrest => by
    rw [List.forall_mem_cons] at hmax
    rw [region, List.cons_append, List.flatMap_cons, List.append_assoc] at hrest
    obtain ⟨words₁, inp', hpass, hadd, hrest'⟩ := orPass_block hpower b hrest hmax.1
    rw [List.length_cons] at hfuel
    obtain ⟨words', hloop, hadds⟩ := iterate_orPass hpower bs words₁ inp' fuel (by omega)
      (by rw [hadd.length]; exact hmax.2) hrest'
    refine ⟨words', by rw [iterate_continue hpass, hloop], (hadd.trans hadds).congr fun p => ?_⟩
    rw [List.flatMap_cons, List.mem_append]

/-- The bits of a region are added to those that are there. -/
theorem orIntoWords_region {power : U8} (hpower : Legal power) {bs : List Block}
    {words : List U64} (hmax : ∀ b ∈ bs, ∀ d ∈ b.docs, d < 2147483647 ∧ d < 64 * words.length)
    (tail : List U8) :
    ∃ words', orIntoWords (region power bs ++ tail) power words = .ok words' ∧
      Adds words words' (· ∈ bs.flatMap Block.docs) :=
  iterate_orPass hpower bs words _ _ (length_le_region power bs tail) hmax (SliceInput.rest_new _)

end LuceneRust.Codecs.IndexedDisi
