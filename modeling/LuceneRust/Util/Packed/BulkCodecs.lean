import LuceneRust.Util.Packed.BulkEncode

/-!
# `lucene_util::packed::bulk_operation`, words and bytes

The codecs over words and the codecs over bytes have blocks of different
sizes, but one code: the words of `encode_longs`, written big-endian, are the
bytes of `encode_bytes`, and either decoder reads what either encoder wrote
(`bulk_codecs_agree`).
-/

namespace LuceneRust.Util.Packed.BulkOperation

open RustSem ByteTape WordTape
open BitStream (IsMask)

/-- The words in bytes. -/
def wordsToBytes (ws : List U64) : List U8 := ws.flatMap beBytes

/-- The bytes as words. -/
def bytesToWords (bs : List U8) : List U64 :=
  (chunks 8 bs).map fun c => fromLeBytes 64 c.reverse

theorem bytesToWords_wordsToBytes (ws : List U64) : bytesToWords (wordsToBytes ws) = ws := by
  rw [bytesToWords, wordsToBytes, chunks_flatMap (by decide) beBytes_length, List.map_map]
  calc ws.map ((fun c => fromLeBytes 64 c.reverse) ∘ beBytes) = ws.map id :=
        List.map_congr_left fun v _ => fromBeBytes v
    _ = ws := List.map_id ws

theorem wordsToBytes_length (ws : List U64) : (wordsToBytes ws).length = ws.length * 8 := by
  induction ws with
  | nil => rfl
  | cons v ws ih =>
    change (beBytes v ++ wordsToBytes ws).length = _
    rw [List.length_append, beBytes_length, ih, List.length_cons]
    omega

/-- Words and their bytes are one tape. -/
theorem bitAt_wordsToBytes (ws : List U64) : ∀ p, bitAt (wordsToBytes ws) p = msbAt ws p := by
  induction ws with
  | nil =>
    intro p
    rw [bitAt_of_le _ (by rw [wordsToBytes_length, List.length_nil]; omega), msbAt]
    exact BitVec.getLsbD_zero.symm
  | cons v ws ih =>
    intro p
    change bitAt (beBytes v ++ wordsToBytes ws) p = _
    by_cases hp : p < 64
    · have hbit := getLsbD_beWord (beBytes_length v) (k := 63 - p) (by omega)
      rw [fromBeBytes, show 63 - (63 - p) = p by omega] at hbit
      rw [bitAt_append_left _ (by rw [beBytes_length]; omega), ← hbit, msbAt,
        show p / 64 = 0 by omega, show p % 64 = p by omega]
      rfl
    · have hdrop := bitAt_drop (beBytes v ++ wordsToBytes ws) (p := p - 64) (n := 8)
      have hdrop' := msbAt_drop (v :: ws) (p - 64) 1
      rw [List.drop_left' (beBytes_length v), show 8 * 8 + (p - 64) = p by omega] at hdrop
      rw [List.drop_succ_cons, List.drop_zero, show 64 * 1 + (p - 64) = p by omega] at hdrop'
      rw [← hdrop, ← hdrop', ih]

/-- Words are known by their tape. -/
theorem eq_of_msbAt {as bs : List U64} (hlen : as.length = bs.length)
    (h : ∀ p, msbAt as p = msbAt bs p) : as = bs := by
  apply List.ext_getElem hlen
  intro e ha hb
  apply BitVec.eq_of_getLsbD_eq
  intro k hk
  have hbit := h (64 * e + (63 - k))
  rw [msbAt_word _ _ (by omega), msbAt_word _ _ (by omega), List.getD_eq_getElem _ _ ha,
    List.getD_eq_getElem _ _ hb, show 63 - (63 - k) = k by omega] at hbit
  exact hbit

/-- The codec over words codes values as `blockBytes` does. -/
structure LongCodes (op : BulkOperation) (format : Format) (w : Nat) : Prop where
  encode : ∀ {values : List U64} (blocks : List U64) (iterations : Nat),
    (∀ v ∈ values, v.toNat < 2 ^ w) → iterations * op.longValueCount ≤ values.length →
    iterations * op.longBlockCount ≤ blocks.length →
    ∃ ws, op.encodeLongs values blocks iterations =
        .ok (ws ++ blocks.drop (iterations * op.longBlockCount)) ∧
      ws.length = iterations * op.longBlockCount ∧
      wordsToBytes ws = blockBytes format w (values.take (iterations * op.longValueCount))
  decode : ∀ {vs ws : List U64} (slots tail : List U64) (iterations : Nat),
    (∀ v ∈ vs, v.toNat < 2 ^ w) → vs.length = iterations * op.longValueCount →
    wordsToBytes ws = blockBytes format w vs → ws.length = iterations * op.longBlockCount →
    iterations * op.longValueCount ≤ slots.length →
    op.decodeLongs (ws ++ tail) slots iterations =
      .ok (vs ++ slots.drop (iterations * op.longValueCount))

theorem longCodes_packed {op : BulkOperation} {w : Nat} (hf : op.format = .packed)
    (hbits : op.bitsPerValue = w) (hw : 1 ≤ w) (hw' : w ≤ 64)
    (hgeo : op.longValueCount * w = 64 * op.longBlockCount) : LongCodes op .packed w := by
  have hmul : ∀ k, k * op.longValueCount * w = 64 * (k * op.longBlockCount) := by
    intro k
    rw [Nat.mul_assoc, hgeo, Nat.mul_left_comm]
  constructor
  · intro values blocks iterations hfits hvalues hblocks
    have hn := hmul iterations
    obtain ⟨blocks', henc, hlen, hbitsAt⟩ := encodeLongs_packed blocks iterations hf hbits hw hw'
      hgeo hfits (by rw [Nat.mul_comm]; exact hblocks) hvalues
    generalize iterations * op.longBlockCount = m at hn hblocks ⊢
    generalize iterations * op.longValueCount = n at hn hvalues hbitsAt ⊢
    have htl : (blocks'.take m).length = m := List.length_take_of_le (by omega)
    have hrest : blocks'.drop m = blocks.drop m := by
      apply eq_of_msbAt
      · rw [List.length_drop, List.length_drop, hlen]
      · intro p
        rw [msbAt_drop, msbAt_drop, hbitsAt, if_neg (by omega)]
    refine ⟨blocks'.take m, ?_, htl, ?_⟩
    · rw [henc, ← hrest, List.take_append_drop]
    · have hvl : (values.take n).length = n := List.length_take_of_le hvalues
      apply eq_tapeBytes
      · rw [wordsToBytes_length, htl, hvl]
        omega
      · intro p hp
        rw [wordsToBytes_length, htl] at hp
        have hcut := msbAt_take_append blocks' [] p (n := m) (by omega)
        rw [List.append_nil, if_pos (by omega)] at hcut
        rw [bitAt_wordsToBytes, hcut, hbitsAt, if_pos (by omega), valueAt_take values (by omega)]
  · intro vs ws slots tail iterations hfits hvs hbytes hws hslots
    have hn := hmul iterations
    rw [← hvs] at hn
    have hpacks : MsbPacks (ws ++ tail) w vs := by
      intro p hp
      have hcut := msbAt_take_append (ws ++ tail) [] p (n := ws.length)
        (by rw [List.length_append]; omega)
      rw [List.append_nil, List.take_left, if_pos (by omega)] at hcut
      have hbit : bitAt (wordsToBytes ws) p = valueAt vs w p := by
        rw [hbytes]
        exact bitAt_tapeBytes w vs (by omega)
      rw [← hcut, ← bitAt_wordsToBytes, hbit]
    rw [decodeLongs_packed iterations hf hbits hw hw' hgeo hpacks hfits
      (by rw [List.length_append, hws, Nat.mul_comm]; omega) (by omega) hslots,
      List.take_of_length_le (by omega)]

/-- The words of `encode_longs` in the format `packedSingleBlock`. -/
theorem encodeLongs_words {op : BulkOperation} {w : Nat} {values : List U64} (blocks : List U64)
    (iterations : Nat) (hf : op.format = .packedSingleBlock) (hbits : op.bitsPerValue = w)
    (hcount : op.longValueCount = 64 / w) (hw : 1 ≤ w) (hper : 0 < 64 / w)
    (hfits : ∀ v ∈ values, v.toNat < 2 ^ w) (hvalues : iterations * (64 / w) ≤ values.length)
    (hblocks : iterations ≤ blocks.length) :
    ∃ ws, op.encodeLongs values blocks iterations = .ok (ws ++ blocks.drop iterations) ∧
      ws.length = iterations ∧
      wordsToBytes ws = wordBytes w (values.take (iterations * (64 / w))) := by
  suffices h : ∀ n ≤ iterations, ∃ ws, (List.range n).foldlM (fun blocks i => do
      let vals ← .expect (sliceFrom values (i * op.longValueCount))
      let block ← encodeSingle op vals
      setBlock blocks i block) blocks = (.ok (ws ++ blocks.drop n) : Call (List U64)) ∧
      ws.length = n ∧ wordsToBytes ws = wordBytes w (values.take (n * (64 / w))) by
    obtain ⟨ws, hrun, hws⟩ := h iterations (Nat.le_refl _)
    refine ⟨ws, ?_, hws⟩
    simp only [encodeLongs, hf]
    rw [guardOk_pos hblocks, ok_bind, hrun]
  intro n
  induction n with
  | zero =>
    intro _
    refine ⟨[], rfl, rfl, ?_⟩
    rw [Nat.zero_mul, List.take_zero, wordBytes_nil hper]
    rfl
  | succ n ih =>
    intro hn
    obtain ⟨ws, hrun, hlen, hbytes⟩ := ih (by omega)
    have hmul := Nat.mul_le_mul_right (64 / w) hn
    rw [Nat.succ_mul] at hmul
    have hroom : n * (64 / w) + 64 / w ≤ values.length := hmul.trans hvalues
    have hle : n * (64 / w) ≤ values.length := (Nat.le_add_right _ _).trans hroom
    have hrest : 64 / w ≤ (values.drop (n * (64 / w))).length := by
      rw [List.length_drop]
      exact Nat.le_sub_of_add_le' hroom
    obtain ⟨block, henc, hblock⟩ := @encodeSingle_spec op _ (values.drop (n * (64 / w))) hbits
      hw (by rw [hcount]; exact hper) (fun v hv => hfits v (List.mem_of_mem_drop hv))
      (by rw [hcount]; exact hrest)
    rw [hcount] at hblock
    have hword := eq_blockWord hw hrest hblock
    have hset : (ws ++ blocks.drop n).set n block = ws ++ [block] ++ blocks.drop (n + 1) := by
      rw [List.set_append_right _ _ (by omega), hlen, Nat.sub_self,
        List.drop_eq_getElem_cons (by omega : n < blocks.length), List.set_cons_zero,
        List.append_assoc]
      rfl
    have hlast := wordBytes_cons hper (c := (values.drop (n * (64 / w))).take (64 / w))
      (List.length_take_of_le hrest) []
    rw [wordBytes_nil hper, List.append_nil, List.append_nil, ← hword] at hlast
    refine ⟨ws ++ [block], ?_, ?_, ?_⟩
    · rw [List.range_succ, List.foldlM_append, hrun, ok_bind, List.foldlM_cons, hcount,
        sliceFrom, if_pos hle, expect_some, ok_bind, henc, ok_bind,
        setBlock_ok (by rw [List.length_append, List.length_drop]; omega), ok_bind, hset]
      rfl
    · rw [List.length_append, hlen, List.length_singleton]
    · have hsplit : values.take ((n + 1) * (64 / w)) =
          values.take (n * (64 / w)) ++ (values.drop (n * (64 / w))).take (64 / w) := by
        rw [Nat.succ_mul, List.take_add]
      rw [hsplit, wordBytes_append hper (List.length_take_of_le hle), ← hbytes, hlast, wordsToBytes,
        wordsToBytes, List.flatMap_append, List.flatMap_singleton]

theorem longCodes_single {op : BulkOperation} {w : Nat} (hf : op.format = .packedSingleBlock)
    (hbits : op.bitsPerValue = w) (hone : op.longBlockCount = 1)
    (hcount : op.longValueCount = 64 / w) (hw : 1 ≤ w) (hper : 0 < 64 / w)
    (hmask : IsMask op.mask w) : LongCodes op .packedSingleBlock w := by
  constructor
  · intro values blocks iterations hfits hvalues hblocks
    rw [hone, Nat.mul_one] at hblocks ⊢
    rw [hcount] at hvalues ⊢
    exact encodeLongs_words blocks iterations hf hbits hcount hw hper hfits hvalues hblocks
  · intro vs ws slots tail iterations hfits hvs hbytes hws hslots
    rw [hone, Nat.mul_one] at hws
    rw [hcount] at hvs hslots ⊢
    have hwords : ws = (chunks (64 / w) vs).map (blockWord w) := by
      rw [← bytesToWords_wordsToBytes ws, hbytes, ← bytesToWords_wordsToBytes (List.map _ _),
        wordsToBytes, List.flatMap_map]
      rfl
    have hid : ∀ c ∈ chunks (64 / w) vs, decodeSingle op (64 / w) (blockWord w c) = c := by
      intro c hc
      obtain ⟨b, hb, rfl⟩ := List.mem_map.1 hc
      rw [List.mem_range, hvs, Nat.lt_div_iff_mul_lt hper] at hb
      have hb' : b < iterations := by
        apply Nat.lt_of_mul_lt_mul_right (a := 64 / w)
        omega
      have hmul := Nat.mul_le_mul_right (64 / w) (Nat.succ_le_of_lt hb')
      rw [Nat.succ_mul] at hmul
      exact decodeSingle_blockWord hbits hmask (Nat.div_mul_le_self 64 w)
        (by rw [List.length_take, List.length_drop]; omega)
        (fun v hv => hfits v (List.mem_of_mem_drop (List.mem_of_mem_take hv)))
    simp only [decodeLongs, hf, hcount]
    rw [slice_eq_some (Nat.zero_le _) (by rw [List.length_append]; omega), expect_some,
      ok_bind, guardOk_pos hslots, ok_bind, List.drop_zero, Nat.sub_zero,
      ← hws, List.take_left, hwords, List.flatMap_map]
    congr 2
    calc (chunks (64 / w) vs).flatMap (fun c => decodeSingle op (64 / w) (blockWord w c))
        = (chunks (64 / w) vs).flatMap id := List.flatMap_congr hid
      _ = vs := by rw [List.flatMap_id, chunks_flatten hper]

/-- The codecs of every supported format and width. -/
theorem of_longCodes {format : Format} {w : Nat} (h : format.isSupported w) :
    ∃ op, of format w = .ok op ∧ Codes op format w ∧ LongCodes op format w := by
  obtain ⟨op, hop, hcodes⟩ := of_codes h
  refine ⟨op, hop, hcodes, ?_⟩
  cases format with
  | packed =>
    obtain ⟨op', hop', hf, hbits, hgeo, -⟩ := of_packed hcodes.one_le hcodes.le_64
    rw [hop] at hop'
    cases hop'
    exact longCodes_packed hf hbits hcodes.one_le hcodes.le_64 hgeo
  | packedSingleBlock =>
    have hmem : w ∈ supportedBitsPerValue := by
      simpa [Format.isSupported] using h
    obtain ⟨hw, hw'⟩ := supported_le w hmem
    rw [of, guardOk_pos h, ok_bind] at hop
    cases hop
    exact longCodes_single rfl rfl rfl rfl hw (Nat.div_pos (by omega) hw)
      (lowMask_isMask _ (by omega))

end LuceneRust.Util.Packed.BulkOperation
