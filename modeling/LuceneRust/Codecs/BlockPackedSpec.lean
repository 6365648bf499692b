import LuceneRust.Codecs.BlockPackedLayout

/-!
# The two readers of `block_packed`

`encoded` is what the writer puts out for a list of values, block by block.
`decode_all` takes it apart from the front.  The iterator is described by
`Positioned`: its place in the list, and the part of the list that its buffer
and its input still hold.

* `decodeAll_encoded` is the round trip through `decode_all`.
* `ensure_positioned` and `skipBlocks_positioned` say that a refill and a skip
  keep the iterator positioned.
* `step_positioned` compares one call with the list, and `run_denotes` a run
  of calls.
* `round_trip` puts both readers together.
-/

namespace LuceneRust.Codecs.BlockPacked

open RustSem ByteTape
open Store
open Util.Packed (BulkOperation)

/-! ## The blocks of a list -/

/-- The bytes of a block. -/
def blockBytes (block : List U64) : List U8 := (encodeBlock block).toOption.getD []

/-- The bytes of the blocks of `values`. -/
def encoded (blockSize : Nat) (values : List U64) : List U8 :=
  (chunks blockSize values).flatMap blockBytes

section

variable {bs : Nat} {values : List U64}

/-- The first chunk of a list, and the chunks of the rest. -/
theorem chunks_cons {α : Type} (hbs : 0 < bs) {l : List α} (hne : l ≠ []) :
    chunks bs l = l.take bs :: chunks bs (l.drop bs) := by
  rcases Nat.lt_or_ge l.length bs with hlt | hge
  · have hpos := List.length_pos_iff.2 hne
    have hone : (l.length + bs - 1) / bs = 1 := by
      rw [show l.length + bs - 1 = l.length - 1 + bs by omega, Nat.add_div_right _ hbs,
        Nat.div_eq_of_lt (by omega)]
    rw [List.drop_eq_nil_of_le (by omega), chunks_nil hbs, chunks, hone]
    simp
  · have h := chunks_append hbs (List.length_take_of_le hge) (l.drop bs)
    rwa [List.take_append_drop] at h

theorem encoded_nil (hbs : 0 < bs) : encoded bs [] = [] := by
  rw [encoded, chunks_nil hbs]
  rfl

theorem encoded_cons (hbs : 0 < bs) (hne : values ≠ []) :
    encoded bs values = blockBytes (values.take bs) ++ encoded bs (values.drop bs) := by
  rw [encoded, chunks_cons hbs hne, List.flatMap_cons]
  rfl

/-- The writer writes `encoded`. -/
theorem encodeAllWithBlockSize_eq (hbs : 0 < bs) (h27 : bs ≤ 2 ^ 27) (values : List U64) :
    encodeAllWithBlockSize values bs = .ok (encoded bs values) := by
  have hblocks : ∀ block ∈ chunks bs values, encodeBlock block = .ok (blockBytes block) := by
    intro block hblock
    obtain ⟨hne, hlen⟩ := chunks_mem hbs hblock
    obtain ⟨_, _, _, _, h, -⟩ := encodeBlock_layout hne (by omega)
    rw [blockBytes, h]
    rfl
  have hmap : ∀ blocks : List (List U64), (∀ block ∈ blocks, encodeBlock block =
      .ok (blockBytes block)) → blocks.mapM encodeBlock = .ok (blocks.map blockBytes) := by
    intro blocks
    induction blocks with
    | nil => exact fun _ => rfl
    | cons block blocks ih =>
      intro h
      rw [List.mapM_cons, h block (List.mem_cons_self ..), ok_bind,
        ih fun b hb => h b (List.mem_cons_of_mem block hb), ok_bind]
      rfl
  rw [encodeAllWithBlockSize, guardOk_pos hbs, ok_bind, hmap _ hblocks,
    ok_bind, encoded, List.flatMap_def]

/-- The next block of an input: its layout, and the blocks behind it. -/
theorem encoded_layout (hbs : 0 < bs) (h27 : bs ≤ 2 ^ 27) (hne : values ≠ []) :
    ∃ token minBytes body min, Layout (values.take bs) token minBytes body min ∧
      encoded bs values =
        token :: (minBytes ++ (body ++ encoded bs (values.drop bs))) := by
  have hblock : values.take bs ≠ [] := by
    rw [← List.length_pos_iff] at hne ⊢
    rw [List.length_take]
    omega
  obtain ⟨token, minBytes, body, min, hbytes, hlayout⟩ :=
    encodeBlock_layout hblock (by rw [List.length_take]; omega)
  refine ⟨token, minBytes, body, min, hlayout, ?_⟩
  rw [encoded_cons hbs hne, blockBytes, hbytes, Outcome.toOption_ok, Option.getD_some,
    List.cons_append, List.append_assoc]

end

/-- The token and the least value of a block at the front of an input. -/
theorem Layout.head {block : List U64} {token : U8} {minBytes body : List U8} {min : U64}
    (h : Layout block token minBytes body min) {inp : SliceInput} {rest : List U8}
    (hrest : inp.rest = token :: (minBytes ++ rest)) :
    inp.readByte = .ok (token, inp.advance 1) ∧
      ∃ inp', readMinValue token (inp.advance 1) = .ok (min, inp') ∧ inp'.rest = rest := by
  have hnext : (inp.advance 1).rest = minBytes ++ rest := by
    rw [SliceInput.rest_advance, hrest]
    rfl
  exact ⟨SliceInput.readByte_cons hrest, _, h.reads _ _ hnext,
    SliceInput.rest_advance_append hnext⟩

/-! ## `decode_all` -/

/-- The values of a block are put behind those that are there. -/
theorem decodeBlock_layout {block : List U64} {token : U8} {minBytes body : List U8}
    {min : U64} (h : Layout block token minBytes body min) (hlen : block.length ≤ 64)
    (out : List U64) {inp : SliceInput} {tail : List U8} (hrest : inp.rest = body ++ tail) :
    decodeBlock (tokenBits token) block.length min out inp =
      .ok (out ++ block, inp.advance body.length) := by
  unfold decodeBlock
  rcases Nat.eq_zero_or_pos (tokenBits token) with h0 | hpos
  · have hbody : body.length = 0 := by
      rw [h.size, h0]
      simp [PackedInts.byteCount]
    rw [if_pos h0, ← List.eq_replicate_of_mem (h.flat h0), hbody, SliceInput.advance_zero]
  · have hsize : body.length ≤ defaultBlockSize * 8 := by
      have hmul : block.length * tokenBits token ≤ 64 * 64 := Nat.mul_le_mul hlen h.width
      rw [h.size, PackedInts.byteCount, defaultBlockSize, usizeSize]
      omega
    have hfields : fields body (tokenBits token) block.length =
        block.map fun v => v - min := by
      have hfits : ∀ d ∈ block.map (fun v => v - min), d.toNat < 2 ^ tokenBits token := by
        intro d hd
        obtain ⟨v, hv, rfl⟩ := List.mem_map.1 hd
        exact h.fits hpos v hv
      rw [(h.packs hpos).fields hfits (by rw [List.length_map]),
        List.take_of_length_le (by rw [List.length_map])]
    have hback : (block.map fun v => v - min).map (fun v => v + min) = block := by
      rw [List.map_map]
      conv_rhs => rw [← List.map_id block]
      refine List.map_congr_left fun v _ => ?_
      rw [Function.comp_apply, BitVec.sub_add_cancel]
      rfl
    rw [if_neg (by omega)]
    dsimp only
    rw [← h.size, guardOk_pos hsize, ok_bind,
      SliceInput.readN_append hrest, ok_bind]
    dsimp only
    rw [unpackBlock_eq body h.width, hfields, hback, ok_bind]

/-- The round trip through `decode_all`, whatever stands behind the blocks. -/
theorem decodeAll_encoded (values : List U64) {inp : SliceInput} {tail : List U8}
    (hrest : inp.rest = encoded defaultBlockSize values ++ tail) :
    ∃ inp', decodeAll inp values.length = .ok (values, inp') ∧ inp'.rest = tail := by
  have hpass : ∀ s : List U64 × Int × SliceInput,
      (∃ vs, values = s.1 ++ vs ∧ s.2.1 = s.1.length ∧
        s.2.2.rest = encoded defaultBlockSize vs ++ tail) →
      (∃ s', decodePass values.length s = .ok (.inl s') ∧
        (∃ vs, values = s'.1 ++ vs ∧ s'.2.1 = s'.1.length ∧
          s'.2.2.rest = encoded defaultBlockSize vs ++ tail) ∧
        values.length - s'.1.length < values.length - s.1.length) ∨
      ∃ r, decodePass values.length s = .ok (.inr r) ∧ r.1 = values ∧ r.2.rest = tail := by
    rintro ⟨out, produced, inp⟩ ⟨vs, hvs, hproduced, hrest⟩
    simp only at hvs hproduced hrest
    subst hproduced
    have hlen : values.length = out.length + vs.length := by rw [hvs, List.length_append]
    rcases List.eq_nil_or_concat' vs with rfl | ⟨vs', v, hvs'⟩
    · right
      rw [List.append_nil] at hvs
      rw [encoded_nil (by decide), List.nil_append] at hrest
      simp only [decodePass]
      rw [if_neg (by rw [hvs]; omega)]
      exact ⟨_, rfl, hvs.symm, hrest⟩
    · left
      have hne : vs ≠ [] := by
        rw [hvs']
        simp
      have hpos := List.length_pos_iff.2 hne
      have hdefault : defaultBlockSize ≤ 2 ^ 27 := by decide
      obtain ⟨token, minBytes, body, min, hlayout, hbytes⟩ :=
        encoded_layout (by decide) hdefault hne
      rw [hbytes, List.cons_append, List.append_assoc, List.append_assoc] at hrest
      obtain ⟨hbyte, inp2, hmin, hrest2⟩ := hlayout.head hrest
      have hcount : (Min.min ((values.length : Int) - out.length) defaultBlockSize).toNat =
          (vs.take defaultBlockSize).length := by
        rw [List.length_take, hlen]
        omega
      have hdecode := decodeBlock_layout hlayout
        (by rw [List.length_take]; exact Nat.min_le_left ..) out hrest2
      simp only [decodePass]
      rw [if_pos (by omega), hbyte, ok_bind]
      dsimp only
      rw [if_neg (Nat.not_lt.2 hlayout.width), hmin, ok_bind]
      dsimp only
      rw [hcount, hdecode, ok_bind]
      refine ⟨_, rfl, ⟨vs.drop defaultBlockSize, ?_, ?_, ?_⟩, ?_⟩
      · rw [List.append_assoc, List.take_append_drop, hvs]
      · simp only [List.length_append]
        push_cast
        rfl
      · exact SliceInput.rest_advance_append hrest2
      · simp only [List.length_append, List.length_take, defaultBlockSize]
        omega
  obtain ⟨⟨out, inp'⟩, hrun, rfl, htail⟩ := iterate_ok (decodePass values.length)
    (fun s => ∃ vs, values = s.1 ++ vs ∧ s.2.1 = s.1.length ∧
      s.2.2.rest = encoded defaultBlockSize vs ++ tail)
    (fun s => values.length - s.1.length) (fun r => r.1 = values ∧ r.2.rest = tail) hpass
    (values.length + 1) ([], 0, inp) ⟨values, rfl, rfl, hrest⟩
    (by rw [List.length_nil]; omega)
  exact ⟨inp', hrun, htail⟩

/-! ## The iterator -/

/-- The iterator `it` over the blocks of `values`: its place, the values that
are still buffered from `off` on, and the blocks that are still in the
input. -/
structure Positioned (bs : Nat) (values : List U64) (tail : List U8)
    (it : BlockPackedReaderIterator) : Prop where
  count : it.valueCount = values.length
  size : it.blockSize = bs
  slots : it.values.length = bs
  off_le : it.off ≤ bs
  ord_le : it.ord ≤ values.length
  aligned : bs ∣ it.ord + (bs - it.off)
  input : it.input.rest = encoded bs (values.drop (it.ord + (bs - it.off))) ++ tail
  buffered : ∀ j, it.off + j < bs → it.ord + j < values.length →
    it.values[it.off + j]? = values[it.ord + j]?

section

variable {bs : Nat} {values : List U64} {tail : List U8} {it : BlockPackedReaderIterator}

open BlockPackedReaderIterator

/-- The slots after the body of a block was decoded into them. -/
theorem refillBody_layout {block : List U64} {token : U8} {minBytes body : List U8}
    {least : U64} (h : Layout block token minBytes body least) (hpos : 0 < tokenBits token)
    (h8 : 8 ∣ bs) (h27 : bs ≤ 2 ^ 27) (hsize : it.blockSize = bs)
    (hslots : it.values.length = bs) (hord : it.ord ≤ it.valueCount)
    (hblock : min (it.valueCount - it.ord) bs = block.length)
    {inp : SliceInput} (hrest : inp.rest = body ++ tail) :
    ∃ slots blocks, it.refillBody (tokenBits token) least inp =
        .ok { it with
          input := inp.advance body.length, values := slots, blocks := blocks, off := 0 } ∧
      slots.length = bs ∧ ∀ j < block.length, slots[j]? = block[j]? := by
  have h64 := h.width
  have hbody := h.size
  have hpacks := h.packs hpos
  have hfits := h.fits hpos
  generalize tokenBits token = w at *
  obtain ⟨op, hop, hf, hbits, hgeo, hdvd, hbvc⟩ := BulkOperation.of_packed_bytes hpos h64
  have hle : block.length ≤ bs := hblock ▸ Nat.min_le_right _ _
  -- The passes of the decoder make up the block exactly.
  have hpasses : op.byteValueCount * (bs / op.byteValueCount) = bs :=
    Nat.mul_div_cancel' (hdvd.trans h8)
  have hbytes : 8 * (bs / op.byteValueCount * op.byteBlockCount) = bs * w := by
    rw [Nat.mul_left_comm, ← hgeo, ← Nat.mul_assoc, Nat.mul_comm _ op.byteValueCount, hpasses]
  have hmul : block.length * w ≤ bs * w := Nat.mul_le_mul_right w hle
  have hmax : bs * w ≤ 2 ^ 27 * 64 := Nat.mul_le_mul h27 h64
  have hcount : body.length = (block.length * w + 7) / 8 := by
    rw [hbody, PackedInts.byteCount, usizeSize]
    omega
  simp only [refillBody, hsize, hop, ofCall, ok_bind]
  generalize hpad : it.blocks ++ List.replicate
    (bs / op.byteValueCount * op.byteBlockCount - it.blocks.length) 0#8 = blocks
  have hlen : bs / op.byteValueCount * op.byteBlockCount ≤ blocks.length := by
    rw [← hpad, List.length_append, List.length_replicate]
    omega
  have hlen' : (body ++ blocks.drop body.length).length = blocks.length := by
    rw [List.length_append, List.length_drop]
    omega
  have hdecode : op.decodeBytes (body ++ blocks.drop body.length) it.values
      (bs / op.byteValueCount) = .ok (fields (body ++ blocks.drop body.length) w bs) := by
    rw [BulkOperation.decodeBytes_packed _ hf hbits hpos h64 hgeo (by omega) (by omega),
      hpasses, List.drop_eq_nil_of_le (Nat.le_of_eq hslots), List.append_nil]
  have hfields : ∀ j < block.length, (fields (body ++ blocks.drop body.length) w bs)[j]? =
      (block.map fun v => v - least)[j]? := by
    intro j hj
    have hdiffs : ∀ d ∈ block.map (fun v => v - least), d.toNat < 2 ^ w := by
      intro d hd
      obtain ⟨v, hv, rfl⟩ := List.mem_map.1 hd
      exact hfits v hv
    have htape : ∀ p < (block.map fun v => v - least).length * w,
        bitAt (body ++ blocks.drop body.length) p = bitAt body p := by
      intro p hp
      exact bitAt_append_left body (by rw [List.length_map] at hp; omega)
    have hfield := (hpacks.congr htape).field
      (List.getElem?_eq_getElem (show j < (block.map fun v => v - least).length by
        rw [List.length_map]; exact hj)) (hdiffs _ (List.getElem_mem _))
    rw [fields, List.getElem?_map, List.getElem?_range (by omega), Option.map_some, hfield,
      ← List.getElem?_eq_getElem]
  rw [sub_of_le hord, ok_bind, hblock, ← hbody, guardOk_pos (by omega),
    ok_bind, SliceInput.readN_append hrest, ok_bind]
  dsimp only
  rw [hdecode]
  dsimp only
  have hslotsLen := fields_length (body ++ blocks.drop body.length) w bs
  generalize fields (body ++ blocks.drop body.length) w bs = slots at hfields hslotsLen
  rw [ok_bind, guardOk_pos (fun _ => by omega), ok_bind]
  refine ⟨_, _, rfl, ?_, ?_⟩
  · split
    · rw [List.length_append, List.length_map, List.length_take, List.length_drop]
      omega
    · exact hslotsLen
  · intro j hj
    have hval : (block.map fun v => v - least)[j]? = some (block[j] - least) := by
      rw [List.getElem?_map, List.getElem?_eq_getElem hj, Option.map_some]
    rw [List.getElem?_eq_getElem hj]
    split
    · rw [List.getElem?_append_left (by
          rw [List.length_map, List.length_take]
          omega), List.getElem?_map, List.getElem?_take_of_lt hj, hfields j hj, hval,
        Option.map_some, BitVec.sub_add_cancel]
    · rename_i hzero
      rw [hfields j hj, hval, not_not.1 hzero, BitVec.sub_zero]

theorem refill_positioned (h : Positioned bs values tail it) (hbs : 0 < bs) (h8 : 8 ∣ bs)
    (h27 : bs ≤ 2 ^ 27) (hoff : it.off = bs) (hord : it.ord < values.length) :
    ∃ it', it.refill = .ok it' ∧ Positioned bs values tail it' ∧ it'.ord = it.ord ∧
      it'.off = 0 := by
  obtain ⟨hcount, hsize, hslots, -, -, haligned, hinput, -⟩ := h
  rw [hoff, Nat.sub_self, Nat.add_zero] at haligned hinput
  have hne : values.drop it.ord ≠ [] := by
    rw [← List.length_pos_iff, List.length_drop]
    omega
  obtain ⟨token, minBytes, body, least, hlayout, hbytes⟩ := encoded_layout hbs h27 hne
  rw [hbytes, List.cons_append, List.append_assoc, List.append_assoc, List.drop_drop] at hinput
  obtain ⟨hbyte, inp, hmin, hrest⟩ := hlayout.head hinput
  have hblockLen : ((values.drop it.ord).take bs).length = min (values.length - it.ord) bs := by
    rw [List.length_take, List.length_drop, Nat.min_comm]
  have hblock : ∀ j, it.ord + j < values.length → j < bs →
      j < ((values.drop it.ord).take bs).length ∧
        ((values.drop it.ord).take bs)[j]? = values[it.ord + j]? := by
    intro j hj hjbs
    refine ⟨by rw [hblockLen]; omega, ?_⟩
    rw [List.getElem?_take_of_lt hjbs, List.getElem?_drop]
  -- What is the same for both kinds of block.
  have hdone : ∀ (slots : List U64) (blocks : List U8) (inp' : SliceInput),
      slots.length = bs → inp'.rest = encoded bs (values.drop (it.ord + bs)) ++ tail →
      (∀ j < ((values.drop it.ord).take bs).length,
        slots[j]? = ((values.drop it.ord).take bs)[j]?) →
      Positioned bs values tail
        { it with input := inp', values := slots, blocks := blocks, off := 0 } := by
    intro slots blocks inp' hlen hrest' hall
    refine ⟨hcount, hsize, hlen, Nat.zero_le _, Nat.le_of_lt hord, ?_, hrest', ?_⟩
    · exact Nat.dvd_add haligned (Nat.dvd_refl bs)
    · intro j hj hjv
      simp only [Nat.zero_add] at hj hjv ⊢
      obtain ⟨hlt, hget⟩ := hblock j hjv hj
      rw [hall j hlt, hget]
  simp only [refill]
  rw [hbyte, ok_bind]
  dsimp only
  rw [if_neg (Nat.not_lt.2 hlayout.width), hmin, ok_bind]
  dsimp only
  rcases Nat.eq_zero_or_pos (tokenBits token) with h0 | hpos
  · have hbody : body = [] := by
      rw [← List.length_eq_zero_iff, hlayout.size, h0]
      simp [PackedInts.byteCount]
    rw [hbody, List.nil_append] at hrest
    rw [if_pos h0]
    refine ⟨_, rfl, hdone _ it.blocks inp ?_ hrest ?_, rfl, rfl⟩
    · rw [List.length_replicate, hslots]
    · intro j hj
      have hjbs : j < bs := by omega
      rw [List.getElem?_replicate, if_pos (by omega), List.getElem?_eq_getElem hj,
        hlayout.flat h0 _ (List.getElem_mem hj)]
  · obtain ⟨slots, blocks, hrefill, hlen, hall⟩ := refillBody_layout hlayout hpos h8 h27
      hsize hslots (by omega) (by rw [hcount, hblockLen]) hrest
    rw [if_neg (by omega), hrefill]
    exact ⟨_, rfl, hdone slots blocks _ hlen (SliceInput.rest_advance_append hrest) hall,
      rfl, rfl⟩

/-- After `ensure` a value is buffered, and `off` says how far into its block
the place is. -/
theorem ensure_positioned (h : Positioned bs values tail it) (hbs : 0 < bs) (h8 : 8 ∣ bs)
    (h27 : bs ≤ 2 ^ 27) (hord : it.ord < values.length) :
    ∃ it', it.ensure = .ok it' ∧ Positioned bs values tail it' ∧ it'.ord = it.ord ∧
      it'.off = it.ord % bs := by
  have hmod : ∀ {off}, off < bs → bs ∣ it.ord + (bs - off) → off = it.ord % bs := by
    intro off hoff hdvd
    obtain ⟨c, hc⟩ := hdvd
    have hdm := Nat.div_add_mod it.ord bs
    have hlt := Nat.mod_lt it.ord hbs
    have heq : it.ord + bs = bs * c + off := by omega
    have : (it.ord + bs) % bs = (bs * c + off) % bs := by rw [heq]
    rwa [Nat.add_mod_right, Nat.mul_add_mod, Nat.mod_eq_of_lt hoff, eq_comm] at this
  unfold BlockPackedReaderIterator.ensure
  rw [h.size]
  by_cases hoff : it.off = bs
  · obtain ⟨it', hrefill, hpos, hord', hoff'⟩ := refill_positioned h hbs h8 h27 hoff hord
    rw [if_pos hoff]
    refine ⟨it', hrefill, hpos, hord', ?_⟩
    have haligned := hpos.aligned
    rw [hoff', hord'] at haligned
    rw [hoff']
    exact hmod hbs haligned
  · rw [if_neg hoff]
    have hle := h.off_le
    exact ⟨it, rfl, h, rfl, hmod (by omega) h.aligned⟩

/-- Moving on inside the buffer. -/
theorem Positioned.advance (h : Positioned bs values tail it) {n : Nat} (hoff : it.off + n ≤ bs)
    (hord : it.ord + n ≤ values.length) :
    Positioned bs values tail { it with off := it.off + n, ord := it.ord + n } := by
  obtain ⟨hcount, hsize, hslots, hle, -, haligned, hinput, hbuffered⟩ := h
  have hnext : it.ord + n + (bs - (it.off + n)) = it.ord + (bs - it.off) := by omega
  refine ⟨hcount, hsize, hslots, hoff, hord, ?_, ?_, ?_⟩
  · rw [hnext]
    exact haligned
  · simp only [hnext]
    exact hinput
  · intro j hj hjv
    simp only at hj hjv ⊢
    rw [Nat.add_assoc, Nat.add_assoc]
    exact hbuffered (n + j) (by omega) (by omega)

/-! ### Skipping -/

/-- A whole block is passed over, and the place moves by a block. -/
theorem skipPass_positioned {n : Nat} (h : Positioned bs values tail it) (hbs : 0 < bs)
    (h27 : bs ≤ 2 ^ 27) (hoff : it.off = bs) (hn : it.ord + n ≤ values.length) (hle : bs ≤ n) :
    ∃ it', skipPass (n, it) = .ok (.inl (n - bs, it')) ∧ Positioned bs values tail it' ∧
      it'.ord = it.ord + bs ∧ it'.off = bs := by
  obtain ⟨hcount, hsize, hslots, -, -, haligned, hinput, -⟩ := h
  rw [hoff, Nat.sub_self, Nat.add_zero] at haligned hinput
  have hne : values.drop it.ord ≠ [] := by
    rw [← List.length_pos_iff, List.length_drop]
    omega
  obtain ⟨token, minBytes, body, least, hlayout, hbytes⟩ := encoded_layout hbs h27 hne
  rw [hbytes, List.cons_append, List.append_assoc, List.append_assoc, List.drop_drop] at hinput
  obtain ⟨hbyte, inp, hmin, hrest⟩ := hlayout.head hinput
  -- The block is a whole one, so its body is as long as the iterator thinks.
  have hbody : body.length = PackedInts.byteCount bs (tokenBits token) := by
    rw [hlayout.size, List.length_take, List.length_drop]
    congr 1
    omega
  simp only [skipPass, hsize]
  rw [if_pos hle, hbyte, ok_bind]
  dsimp only
  rw [if_neg (Nat.not_lt.2 hlayout.width), hmin, ok_bind]
  dsimp only
  rw [← hbody, SliceInput.skip_of_le (by rw [hrest, List.length_append]; omega),
    ok_bind]
  refine ⟨_, rfl, ⟨hcount, rfl, hslots, ?_, ?_, ?_, ?_, ?_⟩, rfl, hoff⟩
  · exact Nat.le_of_eq hoff
  · simp only
    omega
  · simp only [hoff, Nat.sub_self, Nat.add_zero]
    exact Nat.dvd_add haligned (Nat.dvd_refl bs)
  · simp only [hoff, Nat.sub_self, Nat.add_zero]
    exact SliceInput.rest_advance_append hrest
  · intro j hj _
    simp only [hoff] at hj
    omega

theorem skipBlocks_positioned {n : Nat} (h : Positioned bs values tail it) (hbs : 0 < bs)
    (h8 : 8 ∣ bs) (h27 : bs ≤ 2 ^ 27) (hn : it.ord + n ≤ values.length)
    (hoff : n ≠ 0 → it.off = bs) :
    ∃ it', skipBlocks n it = .ok it' ∧ Positioned bs values tail it' ∧
      it'.ord = it.ord + n := by
  unfold skipBlocks
  by_cases h0 : n = 0
  · rw [if_pos h0, h0]
    exact ⟨it, rfl, h, rfl⟩
  rw [if_neg h0]
  obtain ⟨⟨m, it'⟩, hrun, hpos, hoff', hord, hlt⟩ := iterate_ok skipPass
    (fun s => Positioned bs values tail s.2 ∧ s.2.off = bs ∧ s.2.ord + s.1 = it.ord + n)
    (fun s => s.1)
    (fun s => Positioned bs values tail s.2 ∧ s.2.off = bs ∧ s.2.ord + s.1 = it.ord + n ∧
      s.1 < bs)
    (by
      rintro ⟨m, it'⟩ ⟨hpos, hoff', hord⟩
      simp only at hpos hoff' hord
      rcases Nat.lt_or_ge m bs with hlt | hge
      · refine Or.inr ⟨(m, it'), ?_, hpos, hoff', hord, hlt⟩
        simp only [skipPass, hpos.size]
        rw [if_neg (by omega)]
      · obtain ⟨it'', hstep, hpos', hord', hoff''⟩ :=
          skipPass_positioned hpos hbs h27 hoff' (by omega) hge
        refine Or.inl ⟨_, hstep, ⟨hpos', hoff'', ?_⟩, ?_⟩
        · simp only
          omega
        · simp only
          omega)
    (n + 1) (n, it) ⟨h, hoff h0, rfl⟩ (Nat.lt_succ_self n)
  simp only at hpos hoff' hord hlt
  rw [hrun, ok_bind, skipLast]
  dsimp only
  by_cases hm : m = 0
  · rw [if_pos hm]
    exact ⟨it', rfl, hpos, by omega⟩
  · obtain ⟨it'', hrefill, hpos', hord', hoff''⟩ :=
      refill_positioned hpos hbs h8 h27 hoff' (by omega)
    rw [if_neg hm, hrefill, ok_bind]
    exact ⟨_, rfl, hpos'.advance (by omega) (by omega), by simp only; omega⟩

/-! ### The calls -/

theorem nextValue_end (h : Positioned bs values tail it) (hend : it.ord = values.length) :
    it.nextValue = .err (.eof it.input.remaining) := by
  rw [BlockPackedReaderIterator.nextValue, h.count, if_pos hend]

theorem nextValue_positioned (h : Positioned bs values tail it) (hbs : 0 < bs) (h8 : 8 ∣ bs)
    (h27 : bs ≤ 2 ^ 27) (hord : it.ord < values.length) :
    ∃ it', it.nextValue = .ok (values[it.ord], it') ∧ Positioned bs values tail it' ∧
      it'.ord = it.ord + 1 := by
  obtain ⟨it', hensure, hpos, hord', hoff⟩ := ensure_positioned h hbs h8 h27 hord
  have hmod := Nat.mod_lt it.ord hbs
  have hget := hpos.buffered 0 (by omega) (by omega)
  rw [Nat.add_zero, Nat.add_zero, hord', List.getElem?_eq_getElem hord] at hget
  rw [BlockPackedReaderIterator.nextValue, h.count, if_neg (by omega), hensure,
    ok_bind, hget, expect_some, ok_bind]
  exact ⟨_, rfl, hpos.advance (by omega) (by omega), by simp only [hord']⟩

theorem nextValues_end (h : Positioned bs values tail it) (hend : it.ord = values.length)
    (count : Nat) : it.nextValues count = .err (.eof it.input.remaining) := by
  rw [BlockPackedReaderIterator.nextValues, h.count, if_pos hend]

theorem nextValues_positioned (h : Positioned bs values tail it) (hbs : 0 < bs)
    (h8 : 8 ∣ bs) (h27 : bs ≤ 2 ^ 27) (hord : it.ord < values.length) (count : Nat) :
    let n := min (min count (bs - it.ord % bs)) (values.length - it.ord)
    ∃ it', it.nextValues count = .ok ((values.drop it.ord).take n, it') ∧
      Positioned bs values tail it' ∧ it'.ord = it.ord + n := by
  obtain ⟨it', hensure, hpos, hord', hoff⟩ := ensure_positioned h hbs h8 h27 hord
  have hmod := Nat.mod_lt it.ord hbs
  have hslots := hpos.slots
  have hroom : (sub it'.blockSize it'.off : Result Nat) = .ok (bs - it.ord % bs) := by
    rw [hpos.size, sub_of_le hpos.off_le, hoff]
  have hleft : (sub it'.valueCount it'.ord : Result Nat) = .ok (values.length - it.ord) := by
    rw [hpos.count, sub_of_le hpos.ord_le, hord']
  rw [BlockPackedReaderIterator.nextValues, h.count, if_neg (by omega), hensure,
    ok_bind, hroom, ok_bind, hleft, ok_bind]
  dsimp only
  generalize hn : min (min count (bs - it.ord % bs)) (values.length - it.ord) = n
  rw [slice_eq_some (by omega) (by omega), expect_some, ok_bind,
    Nat.add_sub_cancel_left]
  have hrun : (it'.values.drop it'.off).take n = (values.drop it.ord).take n := by
    apply List.ext_getElem?
    intro j
    rcases Nat.lt_or_ge j n with hj | hj
    · have hget := hpos.buffered j (by omega) (by omega)
      rw [List.getElem?_take_of_lt hj, List.getElem?_take_of_lt hj, List.getElem?_drop,
        List.getElem?_drop, hget, hord']
    · rw [List.getElem?_eq_none (by rw [List.length_take]; omega),
        List.getElem?_eq_none (by rw [List.length_take]; omega)]
  rw [hrun]
  exact ⟨_, rfl, hpos.advance (by omega) (by omega), by simp only [hord']⟩

theorem skip_end (h : Positioned bs values tail it) {count : Nat}
    (hend : values.length < it.ord + count) :
    it.skip count = .err (.eof it.input.remaining) := by
  rw [BlockPackedReaderIterator.skip, checkedAdd]
  by_cases hsize : it.ord + count < usizeSize
  · rw [if_pos hsize]
    dsimp only
    rw [h.count, if_pos hend]
  · rw [if_neg hsize]

theorem skip_positioned (h : Positioned bs values tail it) (hbs : 0 < bs) (h8 : 8 ∣ bs)
    (h27 : bs ≤ 2 ^ 27) (hlen : values.length < usizeSize) {count : Nat}
    (hle : it.ord + count ≤ values.length) :
    ∃ it', it.skip count = .ok it' ∧ Positioned bs values tail it' ∧
      it'.ord = it.ord + count := by
  have hoff := h.off_le
  have hroom : (sub it.blockSize it.off : Result Nat) = .ok (bs - it.off) := by
    rw [h.size, sub_of_le hoff]
  rw [BlockPackedReaderIterator.skip, checkedAdd, if_pos (by omega)]
  dsimp only
  rw [h.count, if_neg (by omega), hroom, ok_bind, ← h.count]
  generalize hn : min count (bs - it.off) = n
  have hadv := h.advance (n := n) (by omega) (by omega)
  obtain ⟨it', hskip, hpos, hord⟩ := skipBlocks_positioned (n := count - n) hadv hbs h8 h27
    (by simp only; omega) (by intro h0; simp only; omega)
  exact ⟨it', hskip, hpos, by rw [hord]; simp only; omega⟩

end

/-! ## Runs of calls -/

/-- A call on the iterator. -/
inductive ReadCall where
  | nextValue
  | nextValues (count : Nat)
  | skip (count : Nat)

/-- What a call yields, and the iterator after it.  A call that is refused is
refused before it changes anything. -/
def ReadCall.step (it : BlockPackedReaderIterator) (c : ReadCall) :
    Result (List U64) × BlockPackedReaderIterator :=
  let answer : Result (List U64 × BlockPackedReaderIterator) :=
    match c with
    | .nextValue => it.nextValue >>= fun r => .ok ([r.1], r.2)
    | .nextValues count => it.nextValues count
    | .skip count => it.skip count >>= fun it' => .ok ([], it')
  match answer with
  | .ok (vs, it') => (.ok vs, it')
  | .err e => (.err e, it)
  | .panic => (.panic, it)

/-- What the calls of a run yield. -/
def ReadCall.run : BlockPackedReaderIterator → List ReadCall → List (Result (List U64))
  | _, [] => []
  | it, c :: cs => (c.step it).1 :: ReadCall.run (c.step it).2 cs

/-- What a call means at the place `ord` of the list: the values it yields, if
it does not pass the end, and the place after it.  `next(n)` stops at the end
of a block and at the end of the list. -/
def ReadCall.denote (bs : Nat) (values : List U64) (ord : Nat) :
    ReadCall → Option (List U64) × Nat
  | .nextValue =>
    if ord = values.length then (none, ord) else (some ((values.drop ord).take 1), ord + 1)
  | .nextValues count =>
    if ord = values.length then (none, ord)
    else
      let n := min (min count (bs - ord % bs)) (values.length - ord)
      (some ((values.drop ord).take n), ord + n)
  | .skip count =>
    if values.length < ord + count then (none, ord) else (some [], ord + count)

/-- What a run of calls means. -/
def ReadCall.denoteAll (bs : Nat) (values : List U64) :
    Nat → List ReadCall → List (Option (List U64))
  | _, [] => []
  | ord, c :: cs =>
    (c.denote bs values ord).1 :: ReadCall.denoteAll bs values (c.denote bs values ord).2 cs

/-- The call yields the values, or it is refused at the end of the input. -/
def Answers : Result (List U64) → Option (List U64) → Prop
  | .ok vs, some vs' => vs = vs'
  | .err (.eof _), none => True
  | _, _ => False

section

variable {bs : Nat} {values : List U64} {tail : List U8} {it : BlockPackedReaderIterator}

theorem step_positioned (h : Positioned bs values tail it) (hbs : 0 < bs) (h8 : 8 ∣ bs)
    (h27 : bs ≤ 2 ^ 27) (hlen : values.length < usizeSize) (c : ReadCall) :
    Answers (c.step it).1 (c.denote bs values it.ord).1 ∧
      Positioned bs values tail (c.step it).2 ∧
      (c.step it).2.ord = (c.denote bs values it.ord).2 := by
  have hle := h.ord_le
  cases c with
  | nextValue =>
    simp only [ReadCall.step, ReadCall.denote]
    by_cases hend : it.ord = values.length
    · rw [nextValue_end h hend, if_pos hend]
      exact ⟨trivial, h, rfl⟩
    · have hord : it.ord < values.length := by omega
      obtain ⟨it', hstep, hpos, hord'⟩ := nextValue_positioned h hbs h8 h27 hord
      rw [hstep, if_neg hend, List.take_one, List.head?_drop, List.getElem?_eq_getElem hord]
      exact ⟨rfl, hpos, hord'⟩
  | nextValues count =>
    simp only [ReadCall.step, ReadCall.denote]
    by_cases hend : it.ord = values.length
    · rw [nextValues_end h hend, if_pos hend]
      exact ⟨trivial, h, rfl⟩
    · obtain ⟨it', hstep, hpos, hord'⟩ :=
        nextValues_positioned h hbs h8 h27 (by omega) count
      rw [hstep, if_neg hend]
      exact ⟨rfl, hpos, hord'⟩
  | skip count =>
    simp only [ReadCall.step, ReadCall.denote]
    by_cases hend : values.length < it.ord + count
    · rw [skip_end h hend, if_pos hend]
      exact ⟨trivial, h, rfl⟩
    · obtain ⟨it', hstep, hpos, hord'⟩ :=
        skip_positioned h hbs h8 h27 hlen (Nat.le_of_not_lt hend)
      rw [hstep, if_neg hend]
      exact ⟨rfl, hpos, hord'⟩

/-- A run of calls on an iterator, against the list. -/
theorem run_denotes (hbs : 0 < bs) (h8 : 8 ∣ bs) (h27 : bs ≤ 2 ^ 27)
    (hlen : values.length < usizeSize) (cs : List ReadCall) :
    ∀ it : BlockPackedReaderIterator, Positioned bs values tail it →
      List.Forall₂ Answers (ReadCall.run it cs) (ReadCall.denoteAll bs values it.ord cs) := by
  induction cs with
  | nil =>
    intro it _
    exact List.Forall₂.nil
  | cons c cs ih =>
    intro it h
    obtain ⟨hanswer, hpos, hord⟩ := step_positioned h hbs h8 h27 hlen c
    have hrest := ih (c.step it).2 hpos
    rw [hord] at hrest
    exact List.Forall₂.cons hanswer hrest

/-- A new iterator stands at the front of the list. -/
theorem new_positioned {k : Nat} (hbs : bs = 2 ^ k) (h64 : 64 ≤ bs) (h27 : bs ≤ 2 ^ 27)
    {inp : SliceInput} (hrest : inp.rest = encoded bs values ++ tail) :
    ∃ it, BlockPackedReaderIterator.new inp 2 bs values.length = .ok it ∧
      Positioned bs values tail it ∧ it.ord = 0 := by
  have hpow : bs.isPowerOfTwo := ⟨k, hbs⟩
  rw [BlockPackedReaderIterator.new, checkVersion, if_neg (by decide), if_neg (by decide),
    ok_bind, checkBlockSize, if_neg (by omega), if_neg (not_not_intro hpow),
    ok_bind]
  refine ⟨_, rfl, ⟨rfl, rfl, List.length_replicate, Nat.le_refl _, Nat.zero_le _, ?_, ?_, ?_⟩,
    rfl⟩
  · simp
  · simpa using hrest
  · intro j hj _
    simp only at hj
    omega

end

/-- What the writer puts out for a list of longs is read back.  `decode_all`
returns the list and takes every byte.  The iterator, at any block size that
it admits, answers any run of `next_value`, `next_values` and `skip` with the
values at the places that the calls denote. -/
theorem round_trip :
    (∀ values : List U64, ∃ bytes, encodeAll values = .ok bytes ∧
      ∃ inp', decodeAll (SliceInput.new bytes) values.length = .ok (values, inp') ∧
        inp'.rest = []) ∧
    ∀ (blockSize : Nat) (values : List U64), (∃ k, blockSize = 2 ^ k) → 64 ≤ blockSize →
      blockSize ≤ 2 ^ 27 → values.length < usizeSize →
      ∃ bytes it, encodeAllWithBlockSize values blockSize = .ok bytes ∧
        BlockPackedReaderIterator.new (SliceInput.new bytes) 2 blockSize values.length =
          .ok it ∧
        ∀ calls, List.Forall₂ Answers (ReadCall.run it calls)
          (ReadCall.denoteAll blockSize values 0 calls) := by
  constructor
  · intro values
    refine ⟨encoded defaultBlockSize values,
      encodeAllWithBlockSize_eq (by decide) (by decide) values, ?_⟩
    exact decodeAll_encoded values (by rw [SliceInput.rest_new, List.append_nil])
  · rintro bs values ⟨k, hk⟩ h64 h27 hlen
    -- A power of two from 64 on is a multiple of 8.
    have h8 : 8 ∣ bs := by
      have hk3 : 3 ≤ k := by
        by_contra hlt
        have : 2 ^ k ≤ 2 ^ 2 := Nat.pow_le_pow_right (by decide) (by omega)
        omega
      rw [hk]
      exact Nat.pow_dvd_pow 2 hk3
    have hrest : (SliceInput.new (encoded bs values)).rest = encoded bs values ++ [] := by
      rw [SliceInput.rest_new, List.append_nil]
    obtain ⟨it, hnew, hpos, hord⟩ := new_positioned hk h64 h27 hrest
    refine ⟨_, it, encodeAllWithBlockSize_eq (by omega) h27 values, hnew, fun calls => ?_⟩
    rw [← hord]
    exact run_denotes (by omega) h8 h27 hlen calls it hpos

/-- Two values, with a skip that would pass the end between them. -/
theorem round_trip_two : ∃ bytes it,
    encodeAllWithBlockSize [7#64, BitVec.allOnes 64] 64 = .ok bytes ∧
      BlockPackedReaderIterator.new (SliceInput.new bytes) 2 64 2 = .ok it ∧
      List.Forall₂ Answers (ReadCall.run it [.nextValue, .skip 2, .nextValues 5])
        [some [7#64], none, some [BitVec.allOnes 64]] := by
  obtain ⟨bytes, it, hbytes, hnew, hrun⟩ := round_trip.2 64 [7#64, BitVec.allOnes 64]
    ⟨6, rfl⟩ (by decide) (by decide) (by decide +kernel)
  exact ⟨bytes, it, hbytes, hnew, hrun [.nextValue, .skip 2, .nextValues 5]⟩

end LuceneRust.Codecs.BlockPacked
