import LuceneRust.Codecs.DisiCursorSeek

/-!
# Runs of a `DisiCursor`

* `Reached.ready`: what holds of a new cursor over a region holds of every
  cursor that calls can reach.
* `advanceExact_rank`: any lookups answer with the places of their documents in
  the list that was written.
* `bulk_decoders_agree`: so do the list decoder, the decoder into a bit set and
  the windows.
-/

namespace LuceneRust.Codecs.IndexedDisi

open RustSem WordTape
open Store (Result)

section

variable {power : U8} {bs : List Block} {c : DisiCursor}

/-! ## New cursors -/

theorem atStart_ready {data table : List U8} {count : Int} (hdata : ∃ tail, data = region power bs ++ tail)
    (htable : table = [] ∨ (table = tableBytes power bs ∧ count = (tableCount bs : Int) ∧
      0 < tableCount bs)) : Ready power bs (DisiCursor.atStart data table count power) :=
  ⟨⟨hdata, rfl, htable⟩, Or.inr (Or.inl ⟨rfl, rfl, rfl, rfl⟩)⟩

theorem tableBytes_length (power : U8) (bs : List Block) :
    (tableBytes power bs).length = tableCount bs * 8 := by
  rw [tableBytes, List.length_flatMap, List.map_congr_left fun j _ => jumpBytes_length _,
    List.map_const', List.sum_replicate_nat, List.length_range]

/-- A new cursor over a region, with the writer's count or with none. -/
theorem new_ready {count : Int} (hcount : count = (BitVec.ofNat 16 (tableCount bs)).toInt ∨ count = 0) :
    Ready power bs (DisiCursor.new (region power bs ++ tableBytes power bs) power count) := by
  have hdata : ∃ tail, region power bs ++ tableBytes power bs = region power bs ++ tail := ⟨_, rfl⟩
  rw [DisiCursor.new]
  by_cases hpos : 0 < count.toNat * 8
  · have hle : tableCount bs ≤ 32769 := by
      have hlast := lastBlock_le bs
      rw [tableCount]
      split <;> omega
    have htoInt : count = (tableCount bs : Int) := by
      rcases hcount with h | h
      · rw [BitVec.toInt_eq_toNat_cond, BitVec.toNat_ofNat] at h
        omega
      · omega
    have htc : 0 < tableCount bs := by
      rw [htoInt, Int.toNat_natCast] at hpos
      omega
    have hsub : checkedSub (region power bs ++ tableBytes power bs).length (count.toNat * 8) =
        some (region power bs).length := by
      rw [List.length_append, tableBytes_length, htoInt, Int.toNat_natCast,
        checkedSub_of_le (Nat.le_add_left _ _), Nat.add_sub_cancel]
    rw [hsub]
    dsimp only
    rw [if_pos hpos, List.take_left, List.drop_left]
    exact atStart_ready ⟨[], (List.append_nil _).symm⟩ (Or.inr ⟨rfl, htoInt, htc⟩)
  · have hzero : count.toNat * 8 = 0 := by omega
    rw [hzero, checkedSub_of_le (Nat.zero_le _)]
    exact atStart_ready hdata (Or.inl rfl)

theorem new_doc (data : List U8) (count : Int) : (DisiCursor.new data power count).doc = -1 := by
  rw [DisiCursor.new]
  split
  · split <;> rfl
  · rfl

theorem reset_ready (hr : Ready power bs c) : Ready power bs c.reset := by
  rw [DisiCursor.reset, hr.region.denseRankPower]
  exact atStart_ready hr.region.data hr.region.table

end

/-! ## Runs -/

/-- The cursors that calls can reach. -/
inductive Reached (c₀ : DisiCursor) : DisiCursor → Prop where
  | new : Reached c₀ c₀
  | advanceExact {c c' : DisiCursor} {doc : Int} {r : Option Nat} : Reached c₀ c →
      doc ≤ noMoreDocs → c.advanceExact doc = .ok (r, c') → Reached c₀ c'
  | advanceExactInBlock {c c' : DisiCursor} {doc : Int} {r : Option (Option Nat)} : Reached c₀ c →
      doc ≤ noMoreDocs → c.advanceExactInBlock doc = .ok (r, c') → Reached c₀ c'
  | windowBits {c c' : DisiCursor} {start : Int} {words words' : List U64} {r : Option Int} :
      Reached c₀ c → c.windowBits start words = .ok (r, words', c') → Reached c₀ c'
  | reset {c : DisiCursor} : Reached c₀ c → Reached c₀ c.reset

/-- Lookups of some documents, one after the other. -/
def lookups (c : DisiCursor) : List Int → Result (List (Option Nat))
  | [] => .ok []
  | doc :: docs => do
    let (r, c) ← c.advanceExact doc
    let rs ← lookups c docs
    .ok (r :: rs)

section

variable {power : U8} {bs : List Block} {ns : List Nat}

/-- A lookup that returns is of a document that is not behind the cursor. -/
theorem advanceExact_guards {c : DisiCursor} {doc : Int} {x : Option Nat × DisiCursor}
    (h : c.advanceExact doc = .ok x) : 0 ≤ doc ∧ c.doc ≤ doc := by
  rw [DisiCursor.advanceExact] at h
  obtain ⟨_, hnonneg, h⟩ := Outcome.bind_eq_ok.1 h
  obtain ⟨_, hdoc, -⟩ := Outcome.bind_eq_ok.1 h
  exact ⟨guardOk_eq_ok hnonneg, guardOk_eq_ok hdoc⟩

/-- Every call keeps what holds between two calls. -/
theorem Reached.ready (hpower : Legal power) (hc : Covers bs ns) {c₀ c : DisiCursor}
    (h₀ : Ready power bs c₀) (h : Reached c₀ c) : Ready power bs c := by
  induction h with
  | new => exact h₀
  | advanceExact _ hmax hcall ih =>
    obtain ⟨hnonneg, hdoc⟩ := advanceExact_guards hcall
    obtain ⟨t, rfl⟩ := Int.eq_ofNat_of_zero_le hnonneg
    obtain ⟨c', hcall', hr, -⟩ := advanceExact_ready hpower hc ih hmax hdoc
    rw [hcall'] at hcall
    cases hcall
    exact hr
  | advanceExactInBlock _ hmax hcall ih =>
    obtain ⟨r, c', hcall', hr, -⟩ := advanceExactInBlock_ready hpower hc ih hmax
    rw [hcall'] at hcall
    cases hcall
    exact hr
  | windowBits _ hcall ih =>
    obtain ⟨r, words', c', hcall', hr, -⟩ := windowBits_ready hpower hc ih _ _
    rw [hcall'] at hcall
    cases hcall
    exact hr
  | reset _ ih => exact reset_ready ih

end

/-! ## The rank of a document -/

theorem countP_before {ns seen rest : List Nat} {t : Nat} (hsorted : ns.Pairwise (· < ·))
    (hsplit : ns = seen ++ t :: rest) : ns.countP (· < t) = seen.length := by
  rw [hsplit, List.pairwise_append, List.pairwise_cons] at hsorted
  have hseen : seen.countP (· < t) = seen.length := List.countP_eq_length.2 fun d hd =>
    decide_eq_true (hsorted.2.2 d hd t (List.mem_cons_self ..))
  have hrest : (t :: rest).countP (· < t) = 0 := List.countP_eq_zero.2 fun d hd => by
    rw [decide_eq_true_iff]
    rcases List.mem_cons.1 hd with rfl | hd
    · exact Nat.lt_irrefl d
    · exact Nat.not_lt.2 (hsorted.2.1.1 d hd).le
  rw [hsplit, List.countP_append, hseen, hrest, Nat.add_zero]

theorem rankIn_iff {ns : List Nat} (hsorted : ns.Pairwise (· < ·)) {t k : Nat} :
    rankIn ns t = some k ↔ ns[k]? = some t := by
  rw [rankIn]
  constructor
  · intro h
    split at h
    next hmem =>
      obtain ⟨seen, rest, hsplit⟩ := List.append_of_mem hmem
      rw [countP_before hsorted hsplit, Option.some.injEq] at h
      rw [hsplit, ← h, List.getElem?_append_right (Nat.le_refl _), Nat.sub_self,
        List.getElem?_cons_zero]
    next => cases h
  · intro h
    obtain ⟨hk, hget⟩ := List.getElem?_eq_some_iff.1 h
    have hsplit : ns = ns.take k ++ t :: ns.drop (k + 1) := by
      rw [← hget, ← List.drop_eq_getElem_cons hk, List.take_append_drop]
    rw [if_pos (List.mem_of_getElem? h), countP_before hsorted hsplit,
      List.length_take_of_le hk.le]

/-! ## The documents that a caller has -/

/-- The list that the writer takes: strictly ascending, from zero on, below
`i32::MAX`. -/
structure DocIds (docs : List Int) : Prop where
  sorted : docs.Pairwise (· < ·)
  range : ∀ d ∈ docs, 0 ≤ d ∧ d < noMoreDocs

/-- The answer of a lookup: the place of the document in the list. -/
def Answers (docs : List Int) (doc : Int) (r : Option Nat) : Prop :=
  ∀ k, r = some k ↔ docs[k]? = some doc

section

variable {docs : List Int} {power : U8}

theorem DocIds.exists_nat (h : DocIds docs) : ∃ ns : List Nat,
    docs = ns.map (fun d : Nat => (d : Int)) ∧ ns.Pairwise (· < ·) ∧ ∀ d ∈ ns, d < 2147483647 := by
  have hdocs : docs = (docs.map Int.toNat).map fun d : Nat => (d : Int) := by
    rw [List.map_map]
    exact (List.map_id docs).symm.trans (List.map_congr_left fun d hd =>
      (Int.toNat_of_nonneg (h.range d hd).1).symm)
  refine ⟨docs.map Int.toNat, hdocs, List.pairwise_map.2 (h.sorted.imp_of_mem fun ha hb hab => ?_),
    fun d hd => ?_⟩
  · have ha' := h.range _ ha
    have hb' := h.range _ hb
    omega
  · obtain ⟨doc, hdoc, rfl⟩ := List.mem_map.1 hd
    have hrange := h.range doc hdoc
    rw [noMoreDocs] at hrange
    omega

/-- What the writer returns for some documents. -/
theorem DocIds.written (h : DocIds docs) (hpower : Legal power) : ∃ bs ns,
    docs = ns.map (fun d : Nat => (d : Int)) ∧ Covers bs ns ∧
      writeWithDenseRankPower docs power =
        .ok (region power bs ++ tableBytes power bs, (BitVec.ofNat 16 (tableCount bs)).toInt) := by
  obtain ⟨ns, rfl, hsorted, hlt⟩ := h.exists_nat
  obtain ⟨bs, hordered, hdocs, hwrite⟩ := writeWithDenseRankPower_eq hpower hsorted hlt
  exact ⟨bs, ns, rfl, ⟨hordered, hdocs, hsorted, hlt⟩, hwrite⟩

theorem answers_rankIn {ns : List Nat} (hsorted : ns.Pairwise (· < ·)) (t : Nat) :
    Answers (ns.map fun d : Nat => (d : Int)) (t : Int) (rankIn ns t) := by
  intro k
  rw [rankIn_iff hsorted, List.getElem?_map]
  cases ns[k]? with
  | none => exact ⟨fun h => (nomatch h), fun h => (nomatch h)⟩
  | some d =>
    rw [Option.map_some, Option.some.injEq, Option.some.injEq, Int.natCast_inj]

/-- The lookups of some documents that do not go back. -/
theorem lookups_answer {bs : List Block} {ns : List Nat} (hpower : Legal power)
    (hc : Covers bs ns) : ∀ (ts : List Int) (c : DisiCursor), Ready power bs c →
    ts.Pairwise (· ≤ ·) → (∀ t ∈ ts, 0 ≤ t ∧ t ≤ noMoreDocs ∧ c.doc ≤ t) →
    ∃ rs, lookups c ts = .ok rs ∧
      List.Forall₂ (Answers (ns.map fun d : Nat => (d : Int))) ts rs
  | [], _, _, _, _ => ⟨[], rfl, List.Forall₂.nil⟩
  | t :: ts, c, hr, hsorted, hrange => by
    rw [List.pairwise_cons] at hsorted
    rw [List.forall_mem_cons] at hrange
    obtain ⟨⟨hnonneg, hmax, hdoc⟩, hrest⟩ := hrange
    obtain ⟨t, rfl⟩ := Int.eq_ofNat_of_zero_le hnonneg
    obtain ⟨c', hcall, hr', hdoc'⟩ := advanceExact_ready hpower hc hr hmax hdoc
    obtain ⟨rs, hrun, hanswers⟩ := lookups_answer hpower hc ts c' hr' hsorted.2 fun t' ht' =>
      ⟨(hrest t' ht').1, (hrest t' ht').2.1, by rw [hdoc']; exact hsorted.1 t' ht'⟩
    refine ⟨rankIn ns t :: rs, ?_, List.Forall₂.cons (answers_rankIn hc.sorted t) hanswers⟩
    rw [lookups, hcall, ok_bind]
    dsimp only
    rw [hrun, ok_bind]

/-- The lookups in a region: any sequence of targets that does not go back, with
the writer's table or with none, and from any cursor that calls can reach. -/
theorem advanceExact_rank (h : DocIds docs) (hpower : Legal power) :
    ∃ bytes count, writeWithDenseRankPower docs power = .ok (bytes, count) ∧
      ∀ n, n = count ∨ n = 0 →
        (∀ ts : List Int, ts.Pairwise (· ≤ ·) → (∀ t ∈ ts, 0 ≤ t ∧ t ≤ noMoreDocs) →
          ∃ rs, lookups (DisiCursor.new bytes power n) ts = .ok rs ∧
            List.Forall₂ (Answers docs) ts rs) ∧
        ∀ c, Reached (DisiCursor.new bytes power n) c → ∀ t, t ≤ noMoreDocs →
          (0 ≤ t → c.doc ≤ t → ∃ r c', c.advanceExact t = .ok (r, c') ∧ Answers docs t r) ∧
          ∃ r c', c.advanceExactInBlock t = .ok (r, c') ∧ ∀ a, r = some a → Answers docs t a := by
  obtain ⟨bs, ns, rfl, hc, hwrite⟩ := h.written hpower
  refine ⟨_, _, hwrite, fun n hn => ?_⟩
  have hnew : Ready power bs (DisiCursor.new (region power bs ++ tableBytes power bs) power n) :=
    new_ready hn
  refine ⟨fun ts hsorted hrange => ?_, fun c hreached t hmax => ⟨fun hnonneg hdoc => ?_, ?_⟩⟩
  · refine lookups_answer hpower hc ts _ hnew hsorted fun t ht => ?_
    have ht' := hrange t ht
    rw [new_doc]
    exact ⟨ht'.1, ht'.2, by omega⟩
  · obtain ⟨t, rfl⟩ := Int.eq_ofNat_of_zero_le hnonneg
    obtain ⟨c', hcall, -⟩ := advanceExact_ready hpower hc (hreached.ready hpower hc hnew) hmax hdoc
    exact ⟨_, c', hcall, answers_rankIn hc.sorted t⟩
  · obtain ⟨r, c', hcall, -, hanswer⟩ :=
      advanceExactInBlock_ready hpower hc (hreached.ready hpower hc hnew) hmax
    refine ⟨r, c', hcall, fun a ha => ?_⟩
    obtain ⟨hnonneg, rfl⟩ := hanswer a ha
    obtain ⟨t, rfl⟩ := Int.eq_ofNat_of_zero_le hnonneg
    exact answers_rankIn hc.sorted t

/-- Documents of two blocks. -/
theorem docIds_two : DocIds [3, 70000] := by
  refine ⟨by decide, fun d hd => ?_⟩
  rw [noMoreDocs]
  rcases List.mem_cons.1 hd with rfl | hd
  · decide
  · rw [List.mem_singleton.1 hd]
    decide

theorem advanceExact_rank_two :
    ∃ bytes count, writeWithDenseRankPower [3, 70000] 9#8 = .ok (bytes, count) ∧
      ∃ rs, lookups (DisiCursor.new bytes 9#8 count) [3, 4, 70000, 70000, 200000] = .ok rs ∧
        List.Forall₂ (Answers [3, 70000]) [3, 4, 70000, 70000, 200000] rs := by
  obtain ⟨bytes, count, hwrite, h⟩ := advanceExact_rank docIds_two
    (show Legal 9#8 from Or.inr (by decide))
  exact ⟨bytes, count, hwrite, (h count (Or.inl rfl)).1 _ (by decide) (by decide)⟩

/-- The documents of a window, and the place of the first one in the list. -/
structure WindowOf (docs : List Int) (start : Int) (words : List U64) (ord : Int) : Prop where
  bits : ∀ p : Nat, p < 64 * words.length → (lsbAt words p = true ↔ start + (p : Int) ∈ docs)
  first : ∀ p : Nat, p < 64 * words.length → lsbAt words p = true →
    (∀ q : Nat, q < p → lsbAt words q = false) →
    0 ≤ ord ∧ docs[ord.toNat]? = some (start + (p : Int))

theorem mem_cast {ns : List Nat} {d : Nat} :
    (d : Int) ∈ ns.map (fun d : Nat => (d : Int)) ↔ d ∈ ns := by
  rw [List.mem_map]
  exact ⟨fun ⟨e, he, heq⟩ => Int.ofNat.inj heq ▸ he, fun h => ⟨d, h, rfl⟩⟩

/-- A window, for the documents of the caller. -/
theorem Window.windowOf {ns : List Nat} {t : Nat} {words : List U64} {ord : Int}
    (hsorted : ns.Pairwise (· < ·)) (h : Window ns t words ord) :
    WindowOf (ns.map fun d : Nat => (d : Int)) (t : Int) words ord where
  bits := fun p hp => by
    rw [h.bits p hp, ← Int.natCast_add, mem_cast]
  first := fun p hp hbit hbefore => by
    have hmem := (h.bits p hp).1 hbit
    have hord := h.rank ⟨p, hp, hmem⟩
    have hcount : ns.countP (· < t + p) = ns.countP (· < t) := by
      refine List.countP_congr fun d hd => ?_
      rw [decide_eq_true_iff, decide_eq_true_iff]
      refine ⟨fun hlt => ?_, fun hlt => by omega⟩
      by_contra hge
      obtain ⟨q, rfl⟩ := Nat.exists_eq_add_of_le (Nat.le_of_not_lt hge)
      have hset := (h.bits q (by omega)).2 hd
      rw [hbefore q (by omega)] at hset
      cases hset
    have hrank : rankIn ns (t + p) = some (ns.countP (· < t)) := by
      rw [rankIn, if_pos hmem, hcount]
    refine ⟨by rw [hord]; exact Int.natCast_nonneg _, ?_⟩
    rw [hord, Int.toNat_natCast, List.getElem?_map, (rankIn_iff hsorted).1 hrank, Option.map_some,
      Int.natCast_add]

/-- The list, the bit set and the windows of a region agree with the documents
that were written. -/
theorem bulk_decoders_agree (h : DocIds docs) (hpower : Legal power) :
    ∃ bytes count, writeWithDenseRankPower docs power = .ok (bytes, count) ∧
      decodeDocIds bytes power = .ok docs ∧
      (∀ words : List U64, (∀ d ∈ docs, d < 64 * words.length) →
        ∃ words', orIntoWords bytes power words = .ok words' ∧ words'.length = words.length ∧
          ∀ p : Nat, lsbAt words' p = true ↔ lsbAt words p = true ∨ (p : Int) ∈ docs) ∧
      ∀ c, Reached (DisiCursor.new bytes power count) c → ∀ start words,
        ∃ r words' c', c.windowBits start words = .ok (r, words', c') ∧
          ∀ ord, r = some ord → words'.length = words.length ∧ WindowOf docs start words' ord := by
  obtain ⟨bs, ns, rfl, hc, hwrite⟩ := h.written hpower
  refine ⟨_, _, hwrite, ?_, fun words hwords => ?_, fun c hreached start words => ?_⟩
  · have hids : bs.flatMap Block.ids = ns.map fun d : Nat => (d : Int) := by
      rw [← hc.docs, List.map_flatMap]
      rfl
    rw [decodeDocIds, decodeDocIdsBelow_region hpower hc.ordered (fun b hb d hd => ?_), hids]
    have hlt := hc.block_lt hb hd
    rw [noMoreDocs]
    omega
  · have hfits : ∀ b ∈ bs, ∀ d ∈ b.docs, d < 2147483647 ∧ d < 64 * words.length := fun b hb d hd => by
      have hmem : d ∈ ns := hc.docs ▸ List.mem_flatMap.2 ⟨b, hb, hd⟩
      have hfits := hwords d (mem_cast.2 hmem)
      exact ⟨hc.block_lt hb hd, by omega⟩
    obtain ⟨words', hor, hadds⟩ := orIntoWords_region hpower hfits (tableBytes power bs)
    refine ⟨words', hor, hadds.length, fun p => ?_⟩
    rw [hadds.bits, hc.docs, mem_cast]
  · obtain ⟨r, words', c', hcall, -, hwindow⟩ := windowBits_ready hpower hc
      (hreached.ready hpower hc (new_ready (Or.inl rfl))) start words
    refine ⟨r, words', c', hcall, fun ord hord => ?_⟩
    obtain ⟨hnonneg, hlen, h⟩ := hwindow ord hord
    obtain ⟨t, rfl⟩ := Int.eq_ofNat_of_zero_le hnonneg
    rw [Int.toNat_natCast] at h
    exact ⟨hlen, h.windowOf hc.sorted⟩

theorem bulk_decoders_agree_two :
    ∃ bytes count, writeWithDenseRankPower [3, 70000] 9#8 = .ok (bytes, count) ∧
      decodeDocIds bytes 9#8 = .ok [3, 70000] := by
  obtain ⟨bytes, count, hwrite, hdecode, -⟩ := bulk_decoders_agree docIds_two
    (show Legal 9#8 from Or.inr (by decide))
  exact ⟨bytes, count, hwrite, hdecode⟩

end

end LuceneRust.Codecs.IndexedDisi
