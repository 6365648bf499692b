import LuceneRust.Codecs.Lz4.Block
import LuceneRust.Codecs.Lz4.Decompress

/-!
# The two LZ4 decoders against the block format

Both decoders write into a destination that is already there; the format
only has an output that grows.  The two relations below say how the buffer
holds the output.

* `DecRel` is the relation of the reference decoder: the destination is the
  output, followed by what was there before.
* `SliceRel` is the relation of the slice decoder.  Its block copies may
  write past the end of a sequence, so between the write position and
  `destEnd` the destination holds anything; below it holds the output, and
  from `destEnd` on it is untouched.

`decompress_refines` and `decompressSlice_refines` are the two simulations,
and `copyMatch_append` is the shared lemma about overlapping copies.
-/

namespace LuceneRust.Codecs.Lz4

open RustSem Store BackRef

/-! ## Copying a match -/

/-- Copying from the written part of a buffer to the end of it. -/
theorem copyWithin_append (src : Nat) (out tail : List U8) {n : Nat}
    (hs : src + n ≤ out.length) (hn : n ≤ tail.length) :
    (copyWithin (out ++ tail) src n out.length : Result (List U8)) =
      .ok (out ++ (out.drop src).take n ++ tail.drop n) := by
  have hlen : ((out.drop src).take n).length = n := by
    rw [List.length_take, List.length_drop]
    omega
  rw [copyWithin_ok (by simp; omega) (by simp; omega),
    List.drop_append_of_le_length (by omega),
    List.take_append_of_le_length (by rw [List.length_drop]; omega),
    splice_append, hlen]

/-- `copy_match` appends the match, also where it overlaps itself. -/
theorem copyMatch_append (out tail : List U8) {dist len : Nat}
    (hd : 0 < dist) (hdl : dist ≤ out.length) (hl : len ≤ tail.length) :
    copyMatch (out ++ tail) (out.length - dist) out.length len =
      .ok (appendMatch out dist len ++ tail.drop len) := by
  have hperiod : out.length - (out.length - dist) = dist := by omega
  rw [copyMatch, checkedSub_of_le (by omega), expect_some,
    ok_bind, hperiod, appendMatch_eq out hd hdl]
  split_ifs with hle hone
  · rw [copyWithin_append _ out tail (by omega) hl, matchRun_of_le out hdl hle]
  · subst hone
    have hin : out.length - 1 < out.length := by omega
    rw [List.getElem?_append_left hin, List.getElem?_eq_getElem hin,
      expect_some, ok_bind,
      guardOk_pos (by simp; omega), ok_bind, Outcome.pure_eq,
      splice_append, List.length_replicate, matchRun_one,
      List.getD_eq_getElem?_getD, List.getElem?_eq_getElem hin,
      Option.getD_some]
  · -- The invariant of the doubling loop: `written` bytes of the match are
    -- there, a whole number of periods unless the match is complete.
    obtain ⟨r, hr, hpost⟩ := iterate_ok (copyMatchPass (out.length - dist) out.length len)
      (fun s => s.1 = (out ++ matchRun out dist s.2) ++ tail.drop s.2 ∧
        s.2 ≤ len ∧ (dist ∣ s.2 ∨ s.2 = len))
      (fun s => len - s.2)
      (fun r => r = out ++ matchRun out dist len ++ tail.drop len)
      (by
        rintro ⟨dest, w⟩ ⟨hdest, hw, hdvd⟩
        simp only at hdest hw hdvd
        unfold copyMatchPass
        simp only [hperiod]
        split_ifs with hlt
        · left
          have hdw : dist ∣ w := by
            rcases hdvd with h | h
            · exact h
            · omega
          set n := min (dist + w) (len - w) with hn
          have hlen : (out ++ matchRun out dist w).length =
              out.length + w := by simp
          have hcopy := copyWithin_append (out.length - dist) (out ++ matchRun out dist w)
            (tail.drop w) (n := n)
            (by rw [hlen]; omega) (by rw [List.length_drop]; omega)
          rw [hlen] at hcopy
          rw [hdest, hcopy, ok_bind]
          refine ⟨_, rfl, ⟨?_, by simp only; omega, ?_⟩, by simp only; omega⟩
          · simp only [List.drop_drop, List.append_assoc]
            rw [matchRun_add out (v := 0) (n := n) hdl (Nat.zero_le w) hdw
              (by omega)]
            simp only [Nat.add_zero, List.append_assoc]
          · rcases Nat.le_total (dist + w) (len - w) with h | h
            · left
              have : w + n = dist + (w + w) := by omega
              rw [this]
              exact Nat.dvd_add (Nat.dvd_refl _) (Nat.dvd_add hdw hdw)
            · right
              omega
        · right
          have hwl : w = len := by omega
          exact ⟨dest, rfl, by rw [hdest, hwl]⟩)
      (len + 1) (out ++ tail, 0) ⟨by simp, Nat.zero_le _, Or.inl (Nat.dvd_zero _)⟩
      (by simp)
    rw [hr, hpost]

/-! ## Length extensions -/

/-- A cursor that stands in front of `rest`. -/
def AtRest (buf : List U8) (inp : SliceInput) (rest : List U8) : Prop :=
  inp.rest = rest ∧ inp.buf = buf

private theorem readLengthExtension_aux (rest : List U8) :
    ∀ (fuel : Nat) (inp : SliceInput) (base : Nat), inp.rest = rest →
      rest.length < fuel →
      Outcome.Refines (fun a b => a.1 = b.1 ∧ AtRest inp.buf a.2 b.2)
        (iterate readLengthExtensionPass fuel (base, inp))
        (extLength rest base) := by
  induction rest with
  | nil =>
    intro fuel inp base hrest hfuel
    obtain ⟨fuel, rfl⟩ : ∃ k, fuel = k + 1 := ⟨fuel - 1, by omega⟩
    rw [iterate, readLengthExtensionPass, SliceInput.readByte_nil hrest]
    trivial
  | cons b bs ih =>
    intro fuel inp base hrest hfuel
    obtain ⟨fuel, rfl⟩ : ∃ k, fuel = k + 1 := ⟨fuel - 1, by omega⟩
    have hnext : (inp.advance 1).rest = bs := by
      rw [SliceInput.rest_advance, hrest]
      rfl
    rw [iterate, readLengthExtensionPass, SliceInput.readByte_cons hrest,
      extLength, ok_bind]
    cases hadd : checkedAdd base b.toNat with
    | none => simp only [hadd]; trivial
    | some next =>
      simp only [hadd]
      by_cases hb : b = 0xFF
      · simp only [hb, ne_eq, not_true_eq_false, if_false]
        exact ih fuel (inp.advance 1) next hnext
          (by simp only [List.length_cons] at hfuel; omega)
      · simp only [hb, ne_eq, not_false_eq_true, if_true]
        exact ⟨rfl, hnext, rfl⟩

/-- `read_length_extension` reads a length extension of the format. -/
theorem readLengthExtension_refines (inp : SliceInput) (base : Nat) :
    Outcome.Refines (fun a b => a.1 = b.1 ∧ AtRest inp.buf a.2 b.2)
      (readLengthExtension inp base) (extLength inp.rest base) :=
  readLengthExtension_aux inp.rest _ inp base rfl
    (by rw [SliceInput.rest_length]; omega)

private theorem sliceLengthExtension_aux (src : List U8) (rest : List U8) :
    ∀ (fuel s base : Nat), src.drop s = rest → s ≤ src.length →
      rest.length < fuel →
      Outcome.Refines
        (fun a b => a.1 = b.1 ∧ src.drop a.2 = b.2 ∧ a.2 ≤ src.length)
        (iterate (sliceLengthExtensionPass src) fuel (base, s))
        (extLength rest base) := by
  induction rest with
  | nil =>
    intro fuel s base hrest hs hfuel
    obtain ⟨fuel, rfl⟩ : ∃ k, fuel = k + 1 := ⟨fuel - 1, by omega⟩
    have hget : src[s]? = none := by rw [← List.head?_drop, hrest]; rfl
    rw [iterate, sliceLengthExtensionPass]
    simp only [hget]
    trivial
  | cons b bs ih =>
    intro fuel s base hrest hs hfuel
    obtain ⟨fuel, rfl⟩ : ∃ k, fuel = k + 1 := ⟨fuel - 1, by omega⟩
    have hget : src[s]? = some b := by rw [← List.head?_drop, hrest]; rfl
    have hnext : src.drop (s + 1) = bs := by
      rw [← List.drop_drop, hrest]
      rfl
    have hlt : s + 1 ≤ src.length := by
      have := congrArg List.length hrest
      simp only [List.length_drop, List.length_cons] at this
      omega
    rw [iterate, sliceLengthExtensionPass, extLength]
    simp only [hget, okOr_some, ok_bind]
    cases hadd : checkedAdd base b.toNat with
    | none => trivial
    | some next =>
      simp only
      by_cases hb : b = 0xFF
      · simp only [hb, ne_eq, not_true_eq_false, if_false]
        exact ih fuel (s + 1) next hnext hlt
          (by simp only [List.length_cons] at hfuel; omega)
      · simp only [hb, ne_eq, not_false_eq_true, if_true]
        exact ⟨rfl, hnext, hlt⟩

/-- `slice_length_extension` reads a length extension of the format. -/
theorem sliceLengthExtension_refines (src : List U8) (s base : Nat)
    (hs : s ≤ src.length) :
    Outcome.Refines
      (fun a b => a.1 = b.1 ∧ src.drop a.2 = b.2 ∧ a.2 ≤ src.length)
      (sliceLengthExtension src s base) (extLength (src.drop s) base) :=
  sliceLengthExtension_aux src (src.drop s) _ s base rfl hs
    (by rw [List.length_drop]; omega)

/-! ## The reference decoder -/

/-- The destination of `decompress` holds the output of the format, and the
rest of it is as it was. -/
structure DecRel (buf dest₀ : List U8) (s : DecompressState)
    (t : BlockState) : Prop where
  input : AtRest buf s.input t.1
  dOff : s.dOff = t.2.length
  dest : s.dest = t.2 ++ dest₀.drop t.2.length
  cap : t.2.length ≤ dest₀.length

theorem DecRel.dest_length {buf dest₀ : List U8} {s : DecompressState}
    {t : BlockState} (h : DecRel buf dest₀ s t) :
    s.dest.length = dest₀.length := by
  have := h.cap
  rw [h.dest, List.length_append, List.length_drop]
  omega

/-- A token nibble, read from a cursor. -/
theorem readNibble_refines (buf rest : List U8) (inp : SliceInput)
    (h : AtRest buf inp rest) (nibble : Nat) :
    Outcome.Refines (fun a b => a.1 = b.1 ∧ AtRest buf a.2 b.2)
      (readNibble inp nibble) (nibbleLength nibble rest) := by
  obtain ⟨hrest, hbuf⟩ := h
  unfold readNibble nibbleLength
  split_ifs with hn
  · have := readLengthExtension_refines inp nibble
    rwa [hrest, hbuf] at this
  · exact ⟨rfl, hrest, hbuf⟩

theorem decompressLiterals_refines {buf dest₀ : List U8}
    {s : DecompressState} {t : BlockState} (h : DecRel buf dest₀ s t)
    (token : Nat) :
    Outcome.Refines (DecRel buf dest₀) (decompressLiterals s token)
      (blockLiterals dest₀.length (token >>> 4) t.1 t.2) := by
  unfold decompressLiterals blockLiterals
  refine Outcome.Refines.bind (readNibble_refines _ _ _ h.input _) ?_
  rintro ⟨lit, inp⟩ ⟨lit', rest⟩ - - ⟨rfl, hrest, hbuf⟩
  simp only at hrest hbuf
  have hdl := h.dest_length
  have hcap := h.cap
  simp only [takeLiterals, h.dOff]
  by_cases hlit : lit = 0
  · rw [if_neg (not_not.2 hlit), if_neg (not_not.2 hlit)]
    exact ⟨⟨hrest, hbuf⟩, rfl, h.dest, h.cap⟩
  rw [if_pos hlit, if_pos hlit]
  cases hadd : checkedAdd t.2.length lit with
  | none => trivial
  | some end' =>
    have hend : end' = t.2.length + lit := checkedAdd_eq_some hadd
    simp only [okOr_some, ok_bind, hdl]
    by_cases hfit : dest₀.length < end'
    · rw [if_pos hfit, if_pos hfit]
      trivial
    rw [if_neg hfit, if_neg hfit]
    by_cases hshort : rest.length < lit
    · rw [SliceInput.readN_short (by rw [hrest]; exact hshort),
        if_pos hshort]
      trivial
    rw [if_neg hshort, SliceInput.readN_of_le (by rw [hrest]; omega), hrest,
      ok_bind]
    have hrun : (rest.take lit).length = lit := by
      rw [List.length_take]
      omega
    simp only
    rw [guardOk_pos (by rw [hrun]; omega), ok_bind]
    refine ⟨⟨?_, hbuf⟩, ?_, ?_, ?_⟩
    · rw [SliceInput.rest_advance, hrest]
    · rw [List.length_append, hrun, hend]
    · simp only
      rw [h.dest, splice_append, hrun, List.length_append, hrun,
        List.drop_drop]
    · rw [List.length_append, hrun]
      omega

/-- A two-byte distance, read from a cursor. -/
theorem readU16_cons {inp : SliceInput} {b₀ b₁ : U8} {rest : List U8}
    (h : inp.rest = b₀ :: b₁ :: rest) :
    inp.readU16 = .ok (fromLeBytes 16 [b₀, b₁], inp.advance 2) := by
  have hr := SliceInput.readN_append (a := [b₀, b₁]) (b := rest) h
  simp only [List.length_cons, List.length_nil] at hr
  rw [SliceInput.readU16, hr]
  rfl

theorem readU16_short {inp : SliceInput} (h : inp.rest.length < 2) :
    inp.readU16 = .err (.eof inp.pos) := by
  rw [SliceInput.readU16, SliceInput.readN_short h]
  rfl

theorem decompressMatch_refines {buf dest₀ : List U8}
    {s : DecompressState} {t : BlockState} (h : DecRel buf dest₀ s t)
    (token : Nat) :
    Outcome.Refines (DecRel buf dest₀) (decompressMatch s token)
      (takeMatch dest₀.length (token &&& 0x0F) t.1 t.2) := by
  obtain ⟨rest, out⟩ := t
  have hdl := h.dest_length
  have hcap := h.cap
  have hdOff := h.dOff
  obtain ⟨hrest, hbuf⟩ := h.input
  simp only at hrest hcap hdOff
  unfold decompressMatch takeMatch
  match rest, hrest with
  | [], hrest => rw [readU16_short (by rw [hrest]; decide)]; trivial
  | [b], hrest => rw [readU16_short (by rw [hrest]; simp)]; trivial
  | b₀ :: b₁ :: rest, hrest =>
    rw [readU16_cons hrest, ok_bind]
    simp only
    generalize (fromLeBytes 16 [b₀, b₁]).toNat = dist
    by_cases hdist : dist = 0
    · rw [if_pos hdist, if_pos hdist]
      trivial
    rw [if_neg hdist, if_neg hdist]
    refine Outcome.Refines.bind (readNibble_refines buf rest (s.input.advance 2) ⟨?_, hbuf⟩ _) ?_
    · rw [SliceInput.rest_advance, hrest]
      rfl
    rintro ⟨len, inp⟩ ⟨len', rest'⟩ - - ⟨rfl, hin⟩
    simp only [minMatch, hdOff]
    cases hadd : checkedAdd len 4 with
    | none => trivial
    | some len =>
      simp only [okOr_some, ok_bind, hdl]
      by_cases hback : out.length < dist
      · rw [if_pos hback, if_pos hback]
        trivial
      rw [if_neg hback, if_neg hback]
      cases hadd' : checkedAdd out.length len with
      | none => trivial
      | some end' =>
        have hend : end' = out.length + len := checkedAdd_eq_some hadd'
        simp only [okOr_some, ok_bind]
        by_cases hfit : dest₀.length < end'
        · rw [if_pos hfit, if_pos hfit]
          trivial
        rw [if_neg hfit, if_neg hfit, h.dest,
          copyMatch_append out (dest₀.drop out.length) (by omega) (by omega)
            (by rw [List.length_drop]; omega), ok_bind]
        refine ⟨hin, ?_, ?_, ?_⟩
        · rw [appendMatch_length, hend]
        · simp only [appendMatch_length, List.drop_drop]
        · simp only [appendMatch_length]
          omega

/-- One sequence of the reference decoder is one sequence of the format. -/
theorem decompressPass_refines (destEnd : Nat) {buf dest₀ : List U8}
    {s : DecompressState} {t : BlockState} (h : DecRel buf dest₀ s t) :
    Outcome.Refines
      (PassRel (DecRel buf dest₀)
        (fun s t => DecRel buf dest₀ s t ∧ destEnd ≤ t.2.length)
        (fun s => s.input.remaining) s.input.remaining)
      (decompressPass destEnd s) (decodePass destEnd dest₀.length t) := by
  obtain ⟨rest, out⟩ := t
  obtain ⟨hrest, hbuf⟩ := h.input
  have hrem : s.input.remaining = rest.length := by
    rw [← SliceInput.rest_length, hrest]
  rw [hrem]
  unfold decompressPass decodePass
  simp only at hrest ⊢
  match rest, hrest with
  | [], hrest => rw [SliceInput.readByte_nil hrest]; trivial
  | token :: rest, hrest =>
    rw [SliceInput.readByte_cons hrest, ok_bind]
    have hnext : DecRel buf dest₀
        { s with input := s.input.advance 1 } (rest, out) :=
      ⟨⟨by rw [SliceInput.rest_advance, hrest]; rfl, hbuf⟩, h.dOff, h.dest,
        h.cap⟩
    refine Outcome.Refines.bind (decompressLiterals_refines hnext _) ?_
    intro s₁ t₁ _ ht₁ h₁
    have hlen₁ := blockLiterals_length ht₁
    rw [h₁.dOff]
    split_ifs with hdone
    · exact ⟨h₁, hdone⟩
    · refine Outcome.Refines.bind (decompressMatch_refines h₁ _) ?_
      intro s₂ t₂ _ ht₂ h₂
      have hlen₂ := takeMatch_length ht₂
      rw [h₂.dOff]
      split_ifs with hdone'
      · exact ⟨h₂, hdone'⟩
      · refine ⟨h₂, ?_⟩
        simp only
        rw [← SliceInput.rest_length, h₂.input.1, List.length_cons]
        omega

/-- `decompress` decodes the block format.  On success the destination is
the output of the format, which has reached `destEnd`, followed by what was
there before. -/
theorem decompress_refines (input : SliceInput) (len : Nat) (dest : List U8)
    (dOff : Nat) (destEnd : Nat) (hadd : checkedAdd dOff len = some destEnd)
    (hcap : destEnd ≤ dest.length) :
    Outcome.Refines
      (fun s t => DecRel input.buf dest s t ∧ destEnd ≤ t.2.length)
      (decompress input len dest dOff)
      (decodeBlock destEnd dest.length input.rest (dest.take dOff)) := by
  have hdOff : dOff ≤ dest.length := by
    have := checkedAdd_eq_some hadd
    omega
  have hlen : (dest.take dOff).length = dOff := by
    rw [List.length_take]
    omega
  rw [decompress, hadd, okOr_some, ok_bind,
    if_neg (Nat.not_lt.2 hcap), decodeBlock]
  refine iterate_refines (DecRel input.buf dest) _
    (fun s => s.input.remaining)
    (fun s t h => decompressPass_refines destEnd h) _ _ _ _
    ⟨⟨rfl, rfl⟩, hlen.symm, ?_, by rw [hlen]; exact hdOff⟩
    (Nat.lt_succ_self _) (by rw [SliceInput.rest_length]; exact Nat.lt_succ_self _)
  rw [hlen, List.take_append_drop]

/-! ## The slice decoder -/

/-- The destination of `decompress_slice` starts with the output of the
format.  What stands behind both the output and `destEnd` is as it was. -/
structure SliceRel (src dest₀ : List U8) (destEnd : Nat) (st : SliceState)
    (t : BlockState) : Prop where
  s_le : st.s ≤ src.length
  rest : src.drop st.s = t.1
  d : st.d = t.2.length
  out : st.dest.take st.d = t.2
  length : st.dest.length = dest₀.length
  cap : t.2.length ≤ dest₀.length
  frame : ∀ n, destEnd ≤ n → t.2.length ≤ n →
    st.dest.drop n = dest₀.drop n

/-- A destination that starts with `out` is `out` and the rest of it. -/
theorem SliceRel.dest_eq {src dest₀ : List U8} {destEnd : Nat}
    {st : SliceState} {t : BlockState} (h : SliceRel src dest₀ destEnd st t) :
    st.dest = t.2 ++ st.dest.drop t.2.length := by
  have hout := h.out
  rw [h.d] at hout
  conv_lhs => rw [← List.take_append_drop t.2.length st.dest, hout]

/-- Overwriting the destination at the write position: the first `n` bytes
of the block become output, and the block ends before `destEnd` or is
exactly the output. -/
theorem SliceRel.splice {src dest₀ : List U8} {destEnd s n : Nat}
    {st : SliceState} {rest out : List U8} (blk : List U8)
    (h : SliceRel src dest₀ destEnd st (rest, out)) (hs : s ≤ src.length)
    (hn : n ≤ blk.length) (hfit : out.length + blk.length ≤ dest₀.length)
    (hend : n = blk.length ∨ out.length + blk.length ≤ destEnd) :
    SliceRel src dest₀ destEnd
      ⟨s, splice st.dest st.d blk, st.d + n⟩
      (src.drop s, out ++ blk.take n) := by
  have hd : st.d = out.length := h.d
  have hcap : out.length ≤ dest₀.length := h.cap
  have hlen : st.dest.length = dest₀.length := h.length
  have hblk : (blk.take n).length = n := by
    rw [List.length_take]
    omega
  have hout : st.dest.take out.length = out := by
    rw [← hd]
    exact h.out
  refine ⟨hs, rfl, ?_, ?_, ?_, ?_, ?_⟩
  · simp only [List.length_append, hblk, hd]
  · have hall := splice_take st.dest blk (i := out.length) (by omega)
    have hpre : (RustSem.splice st.dest out.length blk).take
        (out.length + n) = (out ++ blk).take (out.length + n) := by
      rw [← hout, ← hall, List.take_take, hout]
      congr 1
      omega
    simp only [hd, hpre, List.take_length_add_append]
  · simp only
    rw [splice_length (by omega), hlen]
  · simp only [List.length_append, hblk]
    omega
  · intro k hk hk'
    simp only [List.length_append, hblk] at hk'
    simp only [hd]
    rw [splice_drop (by omega) (by omega)]
    exact h.frame k hk (by simp only; omega)

/-- A token nibble, read from a slice. -/
theorem sliceNibble_refines (src : List U8) {s : Nat} (hs : s ≤ src.length)
    (nibble : Nat) :
    Outcome.Refines
      (fun a b => a.1 = b.1 ∧ src.drop a.2 = b.2 ∧ a.2 ≤ src.length)
      (sliceNibble src s nibble) (nibbleLength nibble (src.drop s)) := by
  unfold sliceNibble nibbleLength
  split_ifs with hn
  · exact sliceLengthExtension_refines src s nibble hs
  · exact ⟨rfl, rfl, hs⟩

theorem sliceLiterals_refines {src dest₀ : List U8} {destEnd : Nat}
    {st : SliceState} {t : BlockState} (base : Nat)
    (hsrc : src.length < usizeSize) (hdest : destEnd ≤ dest₀.length)
    (husize : destEnd < usizeSize)
    (h : SliceRel src dest₀ destEnd st t) (token : Nat) :
    Outcome.Refines (SliceRel src dest₀ destEnd)
      (sliceLiterals src base destEnd st token)
      (blockLiterals dest₀.length (token >>> 4) t.1 t.2) := by
  obtain ⟨rest, out⟩ := t
  have hd : st.d = out.length := h.d
  have hrest : src.drop st.s = rest := h.rest
  have hlen : st.dest.length = dest₀.length := h.length
  have hrl : rest.length = src.length - st.s := by
    rw [← hrest, List.length_drop]
  unfold sliceLiterals blockLiterals
  simp only
  generalize token >>> 4 = lit
  by_cases hlit : lit = 0
  · subst hlit
    exact h
  rw [if_pos hlit]
  by_cases hshort : lit < 0x0F ∧ st.s + 16 ≤ src.length ∧ st.d + 16 ≤ destEnd
  · obtain ⟨hlt, hs16, hd16⟩ := hshort
    have hblk : ((src.drop st.s).take 16).length = 16 := by
      rw [List.length_take, List.length_drop]
      omega
    have hadd : checkedAdd out.length lit = some (out.length + lit) :=
      if_pos (by omega)
    have hstep := h.splice (s := st.s + lit) (n := lit)
      ((src.drop st.s).take 16) (by omega) (by omega) (by omega)
      (Or.inr (by omega))
    rw [List.take_take, Nat.min_eq_left (by omega), ← List.drop_drop, hrest]
      at hstep
    rw [if_pos ⟨hlt, hs16, hd16⟩, guardOk_pos (by omega),
      ok_bind, nibbleLength, if_neg (by omega), ok_bind,
      takeLiterals, if_pos hlit, hadd]
    simp only
    rw [if_neg (by omega), if_neg (by omega), hrest]
    exact hstep
  rw [if_neg hshort, ← hrest]
  refine Outcome.Refines.bind (sliceNibble_refines src h.s_le lit) ?_
  rintro ⟨lit', s⟩ ⟨lit'', rest'⟩ - hnib ⟨rfl, rfl, hs⟩
  simp only at hs ⊢
  have hlit' : lit' ≠ 0 := by
    have := nibbleLength_le hnib
    simp only at this
    omega
  rw [takeLiterals, hd, if_pos hlit']
  cases hadd : checkedAdd out.length lit' with
  | none => trivial
  | some end' =>
    have hend : end' = out.length + lit' := checkedAdd_eq_some hadd
    simp only [okOr_some, ok_bind, hlen, List.length_drop]
    by_cases hfit : dest₀.length < end'
    · rw [if_pos hfit, if_pos hfit]
      trivial
    rw [if_neg hfit, if_neg hfit]
    by_cases hrun : src.length - s < lit'
    · rw [if_pos hrun]
      cases hsadd : checkedAdd s lit' with
      | none => trivial
      | some sEnd =>
        have hsEnd : sEnd = s + lit' := checkedAdd_eq_some hsadd
        rw [okOr_some, ok_bind, slice_eq_none (by omega)]
        trivial
    have hblk : ((src.drop s).take lit').length = lit' := by
      rw [List.length_take, List.length_drop]
      omega
    have hsadd : checkedAdd s lit' = some (s + lit') := if_pos (by omega)
    have hstep := h.splice (s := s + lit') (n := lit')
      ((src.drop s).take lit') (by omega) (by omega) (by omega)
      (Or.inl hblk.symm)
    rw [List.take_take, Nat.min_self, ← List.drop_drop, hd] at hstep
    rw [if_neg hrun, hsadd, okOr_some, ok_bind,
      slice_eq_some (by omega) (by omega), okOr_some,
      ok_bind, Nat.add_sub_cancel_left]
    exact hstep

/-! ### Matches -/

/-- A destination that starts with the output and `w` bytes of a match: a
block of 8 bytes from the same place of the source continues the match, when
the distance is at least 8. -/
theorem copyWithin_match (out tail : List U8) {dist w : Nat}
    (hd : 8 ≤ dist) (hdl : dist ≤ out.length) (ht : w + 8 ≤ tail.length) :
    (copyWithin (out ++ matchRun out dist w ++ tail.drop w)
        (out.length - dist + w) 8 (out.length + w) : Result (List U8)) =
      .ok (out ++ matchRun out dist (w + 8) ++ tail.drop (w + 8)) := by
  have hlen : (out ++ matchRun out dist w).length = out.length + w := by simp
  have hcopy := copyWithin_append (out.length - dist + w) (out ++ matchRun out dist w) (tail.drop w) (n := 8) (by rw [hlen]; omega)
    (by rw [List.length_drop]; omega)
  rw [hlen] at hcopy
  rw [hcopy, matchRun_add out (v := w) (n := 8) hdl (Nat.le_refl w)
    (by simp) (by omega), List.drop_drop]
  simp only [List.append_assoc]

/-- The wild copy writes the match, and not more than 24 bytes. -/
theorem wildCopyMatch_spec (dist len : Nat) (out tail : List U8)
    (hd : 8 ≤ dist) (hdl : dist ≤ out.length) (hl : len ≤ 18)
    (ht : 24 ≤ tail.length) :
    ∃ blk : List U8, len ≤ blk.length ∧ blk.length ≤ 24 ∧
      out ++ blk.take len = appendMatch out dist len ∧
      wildCopyMatch (out ++ tail) (out.length - dist) out.length len =
        .ok (splice (out ++ tail) out.length blk) := by
  have h₀ := copyWithin_match out tail (w := 0) hd hdl (by omega)
  have h₁ := copyWithin_match out tail (w := 8) hd hdl (by omega)
  have h₂ := copyWithin_match out tail (w := 16) hd hdl (by omega)
  simp only [matchRun_zero, List.append_nil, List.drop_zero, Nat.add_zero]
    at h₀
  have happ : ∀ n, len ≤ n →
      out ++ (matchRun out dist n).take len = appendMatch out dist len := by
    intro n hn
    rw [matchRun_take out dist hn, appendMatch_eq out (by omega) hdl]
  rw [wildCopyMatch, h₀, ok_bind, h₁, ok_bind]
  by_cases hlong : 16 < len
  · refine ⟨matchRun out dist 24, by simp; omega, by simp, happ _ (by omega),
      ?_⟩
    rw [if_pos hlong, h₂, splice_append, matchRun_length]
  · refine ⟨matchRun out dist 16, by simp; omega, by simp, happ _ (by omega),
      ?_⟩
    rw [if_neg hlong, splice_append, matchRun_length]

theorem sliceMatch_refines {src dest₀ : List U8} {destEnd : Nat}
    {st : SliceState} {t : BlockState} (base : Nat)
    (hdest : destEnd ≤ dest₀.length) (husize : destEnd < usizeSize)
    (h : SliceRel src dest₀ destEnd st t) (token : Nat) :
    Outcome.Refines (SliceRel src dest₀ destEnd)
      (sliceMatch src base destEnd st token)
      (takeMatch dest₀.length (token &&& 0x0F) t.1 t.2) := by
  obtain ⟨rest, out⟩ := t
  have hd : st.d = out.length := h.d
  have hrest : src.drop st.s = rest := h.rest
  have hlen : st.dest.length = dest₀.length := h.length
  have hrl : rest.length = src.length - st.s := by
    rw [← hrest, List.length_drop]
  have hdst : st.dest = out ++ st.dest.drop out.length := h.dest_eq
  unfold sliceMatch
  match rest, hrest with
  | [], hrest =>
    rw [slice_eq_none (by simp at hrl; omega)]
    trivial
  | [b], hrest =>
    rw [slice_eq_none (by simp at hrl; omega)]
    trivial
  | b₀ :: b₁ :: rest, hrest =>
    have hs2 : st.s + 2 ≤ src.length := by simp at hrl; omega
    have hrest2 : src.drop (st.s + 2) = rest := by
      rw [← List.drop_drop, hrest]
      rfl
    rw [slice_eq_some (by omega) hs2, okOr_some, ok_bind,
      hrest, Nat.add_sub_cancel_left]
    simp only [List.take_succ_cons, List.take_zero, hd]
    by_cases hback : out.length < (fromLeBytes 16 [b₀, b₁]).toNat
    · rw [takeMatch_back _ _ hback, if_neg (by omega), if_pos hback]
      trivial
    rw [takeMatch]
    simp only
    generalize (fromLeBytes 16 [b₀, b₁]).toNat = dist at hback ⊢
    by_cases hdist : dist = 0
    · rw [if_pos hdist, if_pos hdist]
      trivial
    rw [if_neg hdist, if_neg hdist, if_neg hback, ← hrest2]
    refine Outcome.Refines.bind (sliceNibble_refines src hs2 _) ?_
    rintro ⟨len, s⟩ ⟨len', rest'⟩ - hnib ⟨rfl, rfl, hs⟩
    simp only [minMatch] at hs hnib ⊢
    cases hadd : checkedAdd len 4 with
    | none => trivial
    | some mlen =>
      have hmlen : mlen = len + 4 := checkedAdd_eq_some hadd
      simp only [okOr_some, ok_bind]
      rw [if_neg hback]
      by_cases hwild : token &&& 0x0F ≠ 0x0F ∧ 8 ≤ dist ∧
          out.length + 24 ≤ destEnd
      · obtain ⟨hshort, hd8, hd24⟩ := hwild
        have hlen15 : len ≤ 14 := by
          rw [nibbleLength, if_neg hshort, Outcome.ok.injEq, Prod.mk.injEq]
            at hnib
          have : token &&& 0x0F ≤ 0x0F := Nat.and_le_right
          omega
        obtain ⟨blk, hblk, hblk24, hout, hcopy⟩ :=
          wildCopyMatch_spec dist mlen out (st.dest.drop out.length) hd8 (by omega) (by omega)
            (by rw [List.length_drop]; omega)
        have hstep := h.splice (s := s) (n := mlen) blk hs hblk
          (by omega) (Or.inr (by omega))
        have hadd' : checkedAdd out.length mlen = some (out.length + mlen) :=
          if_pos (by omega)
        rw [← hdst] at hcopy
        rw [hout, hd] at hstep
        rw [if_pos ⟨hshort, hd8, hd24⟩, hcopy, ok_bind, hadd']
        simp only
        rw [if_neg (by omega)]
        exact hstep
      rw [if_neg hwild]
      cases hadd' : checkedAdd out.length mlen with
      | none => trivial
      | some end' =>
        have hend : end' = out.length + mlen := checkedAdd_eq_some hadd'
        simp only [okOr_some, ok_bind, hlen]
        by_cases hfit : dest₀.length < end'
        · rw [if_pos hfit, if_pos hfit]
          trivial
        have hrun : (matchRun out dist mlen).length = mlen :=
          matchRun_length out dist mlen
        have hstep := h.splice (s := s) (n := mlen)
          (matchRun out dist mlen) hs (by omega) (by omega)
          (Or.inl hrun.symm)
        have happ := appendMatch_eq out (by omega : 0 < dist) (by omega) mlen
        rw [matchRun_take out dist (Nat.le_refl _), ← happ, hd, hdst,
          splice_append, ← happ, hrun] at hstep
        rw [if_neg hfit, if_neg hfit, hdst,
          copyMatch_append out (st.dest.drop out.length) (by omega)
            (by omega) (by rw [List.length_drop]; omega), ok_bind,
          hend]
        exact hstep

/-- One sequence of the slice decoder is one sequence of the format. -/
theorem decompressSlicePass_refines {src dest₀ : List U8} {destEnd : Nat}
    {st : SliceState} {t : BlockState} (base : Nat)
    (hsrc : src.length < usizeSize) (hdest : destEnd ≤ dest₀.length)
    (husize : destEnd < usizeSize) (h : SliceRel src dest₀ destEnd st t) :
    Outcome.Refines
      (PassRel (SliceRel src dest₀ destEnd)
        (fun st t => SliceRel src dest₀ destEnd st t ∧ destEnd ≤ t.2.length)
        (fun st => src.length - st.s) (src.length - st.s))
      (decompressSlicePass src base destEnd st)
      (decodePass destEnd dest₀.length t) := by
  obtain ⟨rest, out⟩ := t
  have hrest : src.drop st.s = rest := h.rest
  have hrem : src.length - st.s = rest.length := by
    rw [← hrest, List.length_drop]
  rw [hrem]
  unfold decompressSlicePass decodePass
  match rest, hrest with
  | [], hrest =>
    have hget : src[st.s]? = none := by rw [← List.head?_drop, hrest]; rfl
    rw [hget]
    trivial
  | token :: rest, hrest =>
    have hget : src[st.s]? = some token := by
      rw [← List.head?_drop, hrest]
      rfl
    have hnext : SliceRel src dest₀ destEnd { st with s := st.s + 1 }
        (rest, out) := by
      refine ⟨?_, ?_, h.d, h.out, h.length, h.cap, h.frame⟩
      · simp only [List.length_cons] at hrem ⊢
        omega
      · simp only
        rw [← List.drop_drop, hrest]
        rfl
    rw [hget, okOr_some, ok_bind]
    simp only
    refine Outcome.Refines.bind
      (sliceLiterals_refines base hsrc hdest husize hnext _) ?_
    intro s₁ t₁ _ ht₁ h₁
    have hlen₁ := blockLiterals_length ht₁
    rw [h₁.d]
    split_ifs with hdone
    · exact ⟨h₁, hdone⟩
    · refine Outcome.Refines.bind
        (sliceMatch_refines base hdest husize h₁ _) ?_
      intro s₂ t₂ _ ht₂ h₂
      have hlen₂ := takeMatch_length ht₂
      rw [h₂.d]
      split_ifs with hdone'
      · exact ⟨h₂, hdone'⟩
      · refine ⟨h₂, ?_⟩
        have := congrArg List.length h₂.rest
        rw [List.length_drop] at this
        simp only [List.length_cons]
        omega

/-- `decompress_slice` decodes the block format.  `hbuf` is a fact of the
language: the length of a slice is a `usize`. -/
theorem decompressSlice_refines (input : SliceInput) (len : Nat)
    (dest : List U8) (dOff destEnd : Nat)
    (hbuf : input.buf.length < usizeSize)
    (hadd : checkedAdd dOff len = some destEnd)
    (hcap : destEnd ≤ dest.length) :
    Outcome.Refines
      (fun s t => AtRest input.buf s.input t.1 ∧ s.dOff = t.2.length ∧
        s.dest.take s.dOff = t.2 ∧ s.dest.length = dest.length ∧
        s.dest.drop s.dOff = dest.drop s.dOff ∧ destEnd ≤ t.2.length)
      (decompressSlice input len dest dOff)
      (decodeBlock destEnd dest.length input.rest (dest.take dOff)) := by
  have hend := checkedAdd_eq_some hadd
  have husize : destEnd < usizeSize := by
    unfold checkedAdd at hadd
    split at hadd
    · omega
    · cases hadd
  have hsrc : input.rest.length < usizeSize := by
    rw [SliceInput.rest_length, SliceInput.remaining]
    omega
  have hlen : (dest.take dOff).length = dOff := by
    rw [List.length_take]
    omega
  have hloop : Outcome.Refines
      (fun st t => SliceRel input.rest dest destEnd st t ∧
        destEnd ≤ t.2.length)
      (iterate (decompressSlicePass input.rest input.pos destEnd)
        (input.rest.length + 1) ⟨0, dest, dOff⟩)
      (decodeBlock destEnd dest.length input.rest (dest.take dOff)) :=
    iterate_refines (SliceRel input.rest dest destEnd) _
      (fun st => input.rest.length - st.s)
      (fun st t h => decompressSlicePass_refines _ hsrc hcap husize h)
      _ _ _ _
      ⟨Nat.zero_le _, rfl, hlen.symm, rfl, rfl, by rw [hlen]; omega,
        fun _ _ _ => rfl⟩
      (by simp only; omega) (by simp only; omega)
  rw [decompressSlice, hadd, okOr_some, ok_bind,
    if_neg (Nat.not_lt.2 hcap)]
  refine hloop.bind_left ?_
  rintro st t ⟨hrel, hdone⟩
  rw [SliceInput.skip_of_le hrel.s_le, ok_bind]
  have hframe := hrel.frame st.d (by rw [hrel.d]; exact hdone)
    (by rw [hrel.d])
  refine ⟨_, rfl, ⟨?_, rfl⟩, hrel.d, hrel.out, hrel.length, hframe, hdone⟩
  rw [SliceInput.rest_advance]
  exact hrel.rest

/-- The two decoders agree on every input.  Neither panics, one returns if
and only if the other does, and when they return, they return the same
position, which is at or past `dOff + len`, the same bytes below it, the
bytes from it on untouched, and the same cursor. -/
theorem decompressSlice_agrees (input : SliceInput) (len : Nat)
    (dest : List U8) (dOff : Nat) (hbuf : input.buf.length < usizeSize) :
    decompress input len dest dOff ≠ .panic ∧
    decompressSlice input len dest dOff ≠ .panic ∧
    ((∃ s, decompressSlice input len dest dOff = .ok s) ↔
      ∃ t, decompress input len dest dOff = .ok t) ∧
    ∀ s t, decompressSlice input len dest dOff = .ok s →
      decompress input len dest dOff = .ok t →
      s.dOff = t.dOff ∧ dOff + len ≤ s.dOff ∧
      s.dest.length = dest.length ∧ t.dest.length = dest.length ∧
      s.dest.take s.dOff = t.dest.take s.dOff ∧
      s.dest.drop s.dOff = dest.drop s.dOff ∧
      t.dest.drop s.dOff = dest.drop s.dOff ∧
      s.input = t.input := by
  cases hadd : checkedAdd dOff len with
  | none => simp [decompress, decompressSlice, hadd]
  | some destEnd =>
    by_cases hcap : dest.length < destEnd
    · simp [decompress, decompressSlice, hadd, hcap]
    have hend := checkedAdd_eq_some hadd
    have href := decompress_refines input len dest dOff destEnd hadd
      (Nat.not_lt.1 hcap)
    have hsl := decompressSlice_refines input len dest dOff destEnd hbuf hadd
      (Nat.not_lt.1 hcap)
    refine ⟨href.ne_panic, hsl.ne_panic, ⟨?_, ?_⟩, ?_⟩
    · rintro ⟨s, hs⟩
      rw [hs] at hsl
      obtain ⟨b, hb, -⟩ := hsl.ok_left
      rw [hb] at href
      obtain ⟨t, ht, -⟩ := href.ok_right
      exact ⟨t, ht⟩
    · rintro ⟨t, ht⟩
      rw [ht] at href
      obtain ⟨b, hb, -⟩ := href.ok_left
      rw [hb] at hsl
      obtain ⟨s, hs, -⟩ := hsl.ok_right
      exact ⟨s, hs⟩
    · intro s t hs ht
      rw [ht] at href
      obtain ⟨b, hb, hrel, hdone⟩ := href.ok_left
      rw [hs, hb] at hsl
      obtain ⟨hin, hd, hout, hlen, hframe, -⟩ := hsl
      have hdOff : s.dOff = t.dOff := hd.trans hrel.dOff.symm
      have htout : t.dest.take s.dOff = b.2 := by
        rw [hrel.dest, hd, List.take_left]
      have htail : t.dest.drop s.dOff = dest.drop s.dOff := by
        rw [hrel.dest, hd, List.drop_left]
      refine ⟨hdOff, by omega, hlen, hrel.dest_length,
        hout.trans htout.symm, hframe, htail, ?_⟩
      exact SliceInput.ext_rest (hin.2.trans hrel.input.2.symm)
        (hin.1.trans hrel.input.1.symm)

/-- Both decoders on a block of two literals and an overlapping match. -/
theorem decompressSlice_agrees_overlap :
    [(0x20 : U8), 0x61, 0x62, 0x02, 0x00, 0x00].length < usizeSize ∧
    ((∃ s, decompressSlice (.new [0x20, 0x61, 0x62, 0x02, 0x00, 0x00]) 6
        (List.replicate 8 0) 0 = .ok s) ↔
      ∃ t, decompress (.new [0x20, 0x61, 0x62, 0x02, 0x00, 0x00]) 6
        (List.replicate 8 0) 0 = .ok t) :=
  ⟨by decide, (decompressSlice_agrees (.new _) 6 _ 0 (by decide)).2.2.1⟩

end LuceneRust.Codecs.Lz4
