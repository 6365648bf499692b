import LuceneRust.Codecs.Lz4.Encode
import LuceneRust.Codecs.Lz4.DecompressSpec

/-!
# A block that is written is read back

* `read4_eq` and `commonBytes_spec` say that the two ways in which a
  compressor compares bytes are sound.
* `SequenceOk` is what a sequence has to satisfy to be written: the match
  repeats the text, it is at least `minMatch` long and not too far away.
  `Sequences` is a run of such sequences, each starting at the anchor that
  the one before left.
* `decodePass_sequence` and `decodePass_lastLiterals` read one of them back,
  and `decompress_of_sequences` reads back a whole block.  The decoder may
  hold anything before the dictionary, and the input may go on after the
  block.
-/

namespace LuceneRust.Codecs.Lz4

open RustSem Store BackRef

/-! ## Comparing bytes -/

/-- `n` bytes from `i` on are the bytes from `j` on. -/
def BytesEq (bytes : List U8) (i j n : Nat) : Prop :=
  ∀ k, k < n → bytes[i + k]? = bytes[j + k]?

theorem BytesEq.trans {bytes : List U8} {i j l n : Nat}
    (h : BytesEq bytes i j n) (h' : BytesEq bytes j l n) :
    BytesEq bytes i l n :=
  fun k hk => (h k hk).trans (h' k hk)

theorem BytesEq.symm {bytes : List U8} {i j n : Nat}
    (h : BytesEq bytes i j n) : BytesEq bytes j i n :=
  fun k hk => (h k hk).symm

theorem BytesEq.append {bytes : List U8} {i j m n : Nat}
    (h : BytesEq bytes i j m) (h' : BytesEq bytes (i + m) (j + m) n) :
    BytesEq bytes i j (m + n) := by
  intro k hk
  rcases Nat.lt_or_ge k m with hlt | hge
  · exact h k hlt
  · have := h' (k - m) (by omega)
    rwa [show i + m + (k - m) = i + k by omega,
      show j + m + (k - m) = j + k by omega] at this

theorem BytesEq.mono {bytes : List U8} {i j m n : Nat}
    (h : BytesEq bytes i j n) (hm : m ≤ n) : BytesEq bytes i j m :=
  fun k hk => h k (by omega)

/-- A read of `w` bytes inside the buffer, byte by byte. -/
theorem slice_getD {b xs : List U8} {o w : Nat}
    (h : slice b o (o + w) = some xs) {j : Nat} (hj : j < w) :
    b[o + j]? = some (xs.getD j 0) := by
  unfold slice at h
  split at h
  · rename_i hb
    have hlt : o + j < b.length := by omega
    rw [← Option.some.inj h, List.getD_eq_getElem?_getD,
      List.getElem?_take_of_lt (by omega), List.getElem?_drop,
      List.getElem?_eq_getElem hlt, Option.getD_some]
  · cases h

theorem read4_of_le (buf : List U8) (i : Nat) (h : i + 4 ≤ buf.length) :
    read4 buf i = .ok (fromLeBytes 32 ((buf.drop i).take 4)) := by
  rw [read4, slice_eq_some (by omega) h, Nat.add_sub_cancel_left]
  rfl

/-- Equal words are equal bytes. -/
theorem read4_eq {buf : List U8} {i j : Nat} {v : U32}
    (hi : read4 buf i = .ok v) (hj : read4 buf j = .ok v) :
    BytesEq buf i j minMatch := by
  obtain ⟨xs, hxs, hx⟩ := Outcome.bind_eq_ok.1 hi
  obtain ⟨ys, hys, hy⟩ := Outcome.bind_eq_ok.1 hj
  have hxs' := expect_eq_ok hxs
  have hys' := expect_eq_ok hys
  have heq : fromLeBytes 32 xs = fromLeBytes 32 ys := by
    simp only [Outcome.ok.injEq] at hx hy
    rw [hx, hy]
  intro k hk
  have hk4 : k < 4 := hk
  rw [slice_getD hxs' hk4, slice_getD hys' hk4,
    getD_eq_of_fromLeBytes ys (w := 32) (by omega)
      (fun i _ _ => by rw [heq])]

theorem ctz_toNat_le (v : U64) : v.ctz.toNat ≤ 64 := by
  have h := BitVec.clz_le (x := v.reverse)
  rw [BitVec.le_def] at h
  simpa [BitVec.ctz] using h

/-- The word loop of `common_bytes`. -/
theorem commonBytesWord_spec {b : List U8} {o1 o2 max : Nat}
    (h1 : o1 + max ≤ b.length) (h2 : o2 + max ≤ b.length) :
    ∃ r, iterate (commonBytesWordPass b o1 o2 max) (max + 1) 0 = .ok r ∧
      r.1 ≤ max ∧ BytesEq b o1 o2 r.1 := by
  refine iterate_ok _ (fun n => n ≤ max ∧ BytesEq b o1 o2 n)
    (fun n => max - n) (fun r : Nat × Bool => r.1 ≤ max ∧ BytesEq b o1 o2 r.1)
    ?_ _ _ ⟨Nat.zero_le _, fun k hk => absurd hk (Nat.not_lt_zero k)⟩
    (Nat.lt_succ_self _)
  rintro n ⟨hn, heq⟩
  unfold commonBytesWordPass
  by_cases hw : n + 8 ≤ max
  · have hx : slice b (o1 + n) (o1 + n + 8) =
        some ((b.drop (o1 + n)).take 8) := by
      rw [slice_eq_some (by omega) (by omega), Nat.add_sub_cancel_left]
    have hy : slice b (o2 + n) (o2 + n + 8) =
        some ((b.drop (o2 + n)).take 8) := by
      rw [slice_eq_some (by omega) (by omega), Nat.add_sub_cancel_left]
    rw [if_pos hw, hx, hy]
    simp only [expect_some, ok_bind]
    generalize (b.drop (o1 + n)).take 8 = xs at hx ⊢
    generalize (b.drop (o2 + n)).take 8 = ys at hy ⊢
    -- Byte `j` of the two words agrees as soon as its eight bits do.
    have hbyte : ∀ j, j < 8 →
        (∀ i, 8 * j ≤ i → i < 8 * j + 8 →
          (fromLeBytes 64 xs).getLsbD i = (fromLeBytes 64 ys).getLsbD i) →
        b[o1 + n + j]? = b[o2 + n + j]? := by
      intro j hj hbits
      rw [slice_getD hx hj, slice_getD hy hj,
        getD_eq_of_fromLeBytes _ (by omega) hbits]
    by_cases hne : fromLeBytes 64 xs = fromLeBytes 64 ys
    · left
      rw [if_neg (not_not.2 hne)]
      refine ⟨n + 8, rfl, ⟨hw, heq.append fun j hj => ?_⟩, by omega⟩
      exact hbyte j hj (fun i _ _ => by rw [hne])
    · right
      rw [if_pos hne]
      have hctz := ctz_toNat_le (fromLeBytes 64 xs ^^^ fromLeBytes 64 ys)
      refine ⟨_, rfl, by simp only; omega, heq.append fun j hj => ?_⟩
      · refine hbyte j (by omega) fun i hi hi' => ?_
        have hz := BitVec.getLsbD_false_of_lt_ctz
          (x := fromLeBytes 64 xs ^^^ fromLeBytes 64 ys) (i := i) (by omega)
        rw [BitVec.getLsbD_xor] at hz
        simpa using hz
  · right
    rw [if_neg hw]
    exact ⟨_, rfl, hn, heq⟩

/-- The two loops together. -/
theorem equalRun_spec {b : List U8} (o1 o2 max : Nat)
    (h1 : o1 + max ≤ b.length) (h2 : o2 + max ≤ b.length) :
    ∃ n, equalRun b o1 o2 max = .ok n ∧ n ≤ max ∧ BytesEq b o1 o2 n := by
  obtain ⟨⟨n, found⟩, hr, hn, heq⟩ := commonBytesWord_spec h1 h2
  simp only at hn heq
  rw [equalRun, hr, ok_bind]
  cases found with
  | true => exact ⟨n, rfl, hn, heq⟩
  | false =>
    refine iterate_ok (commonBytesTailPass b o1 o2 max)
      (fun n => n ≤ max ∧ BytesEq b o1 o2 n) (fun n => max - n)
      (fun r => r ≤ max ∧ BytesEq b o1 o2 r) ?_ (max + 1) n ⟨hn, heq⟩
      (by omega)
    rintro n ⟨hn, heq⟩
    unfold commonBytesTailPass
    by_cases hlt : n < max
    · have hx : o1 + n < b.length := by omega
      have hy : o2 + n < b.length := by omega
      rw [if_pos hlt, List.getElem?_eq_getElem hx,
        List.getElem?_eq_getElem hy]
      simp only [expect_some, ok_bind]
      split_ifs with hxy
      · left
        refine ⟨n + 1, rfl, ⟨hlt, heq.append fun k hk => ?_⟩, by omega⟩
        have hk0 : k = 0 := by omega
        subst hk0
        simp only [Nat.add_zero]
        rw [List.getElem?_eq_getElem hx, List.getElem?_eq_getElem hy, hxy]
      · right
        exact ⟨n, rfl, hn, heq⟩
    · right
      rw [if_neg hlt]
      exact ⟨n, rfl, hn, heq⟩

/-- `common_bytes` returns a number of equal bytes that stays below the
limit. -/
theorem commonBytes_spec {b : List U8} {limit : Nat} (o1 o2 : Nat)
    (h1 : o1 ≤ limit) (h2 : o2 ≤ limit) (hl : limit ≤ b.length) :
    ∃ n, commonBytes b o1 o2 limit = .ok n ∧ o1 + n ≤ limit ∧
      o2 + n ≤ limit ∧ BytesEq b o1 o2 n := by
  obtain ⟨n, hn, hle, heq⟩ := equalRun_spec o1 o2 (min (limit - o1) (limit - o2)) (b := b) (by omega) (by omega)
  rw [commonBytes, checkedSub_of_le h1, checkedSub_of_le h2]
  simp only [expect_some, ok_bind]
  exact ⟨n, hn, by omega, by omega, heq⟩

/-! ## Lengths -/

theorem encodeLen_append (l : Nat) (out : List U8) :
    encodeLen l out = out ++ encodeLen l [] := by
  induction l using Nat.strong_induction_on generalizing out with
  | _ l ih =>
    rw [encodeLen, encodeLen.eq_def l []]
    split_ifs with h
    · rw [ih _ (by omega) (out ++ [0xFF]), ih _ (by omega) ([] ++ [0xFF])]
      simp
    · simp

/-- A length extension is read back. -/
theorem extLength_encodeLen (l base : Nat) (rest : List U8)
    (h : base + l < usizeSize) :
    extLength (encodeLen l [] ++ rest) base = .ok (base + l, rest) := by
  induction l using Nat.strong_induction_on generalizing base with
  | _ l ih =>
    rw [encodeLen]
    split_ifs with hl
    · have hadd : checkedAdd base (0xFF : U8).toNat = some (base + 0xFF) :=
        if_pos (by simp; omega)
      rw [encodeLen_append, List.nil_append, List.append_assoc,
        List.singleton_append, extLength, hadd]
      simp only [ne_eq, not_true_eq_false, if_false]
      rw [ih (l - 0xFF) (by omega) (base + 0xFF) (by omega),
        show base + 0xFF + (l - 0xFF) = base + l by omega]
    · have hb : (BitVec.ofNat 8 l).toNat = l := by
        rw [BitVec.toNat_ofNat]
        omega
      have hne : BitVec.ofNat 8 l ≠ 0xFF := by
        intro heq
        have := congrArg BitVec.toNat heq
        rw [hb] at this
        simp at this
        omega
      have hadd : checkedAdd base (BitVec.ofNat 8 l).toNat =
          some (base + l) := by
        rw [hb]
        exact if_pos h
      rw [List.nil_append, List.singleton_append, extLength, hadd]
      simp only [ne_eq, hne, not_false_eq_true, if_true]

/-- The bytes after the token for a length `n`. -/
def extBytes (n : Nat) : List U8 :=
  if 0x0F ≤ n then encodeLen (n - 0x0F) [] else []

theorem nibbleLength_extBytes {n : Nat} (rest : List U8)
    (h : n < usizeSize) :
    nibbleLength (min n 0x0F) (extBytes n ++ rest) = .ok (n, rest) := by
  unfold nibbleLength extBytes
  by_cases hn : 0x0F ≤ n
  · rw [if_pos hn, Nat.min_eq_right hn, if_pos rfl,
      extLength_encodeLen _ _ _ (by omega),
      show 0x0F + (n - 0x0F) = n by omega]
  · rw [if_neg hn, if_neg (by omega), Nat.min_eq_left (by omega)]
    rfl

/-! ## One sequence -/

/-- The token of a sequence with `lit` literals and a match length of `m`
above the minimum. -/
def tokenByte (lit m : Nat) : U8 :=
  (BitVec.ofNat 8 (min lit 0x0F) <<< 4) ||| BitVec.ofNat 8 (min m 0x0F)

theorem tokenByte_nibbles (lit m : Nat) :
    (tokenByte lit m).toNat >>> 4 = min lit 0x0F ∧
      (tokenByte lit m).toNat &&& 0x0F = min m 0x0F := by
  have key : ∀ a b : Fin 16,
      ((BitVec.ofNat 8 a.val <<< 4) ||| BitVec.ofNat 8 b.val).toNat >>> 4 =
          a.val ∧
        ((BitVec.ofNat 8 a.val <<< 4) ||| BitVec.ofNat 8 b.val).toNat &&&
          0x0F = b.val := by
    decide
  exact key ⟨min lit 0x0F, by omega⟩ ⟨min m 0x0F, by omega⟩

/-- The bytes of a sequence. -/
def sequenceBytes (lits : List U8) (dist len : Nat) : List U8 :=
  tokenByte lits.length (len - minMatch) :: (extBytes lits.length ++
    (lits ++ (toLeBytes 2 (BitVec.ofNat 16 dist) ++
      extBytes (len - minMatch))))

/-- The bytes of the last literals. -/
def lastBytes (lits : List U8) : List U8 :=
  tokenByte lits.length 0 :: (extBytes lits.length ++ lits)

theorem blockLiterals_append {cap : Nat} {lits rest out : List U8}
    (hcap : out.length + lits.length ≤ cap) (husize : cap < usizeSize) :
    blockLiterals cap (min lits.length 0x0F)
        (extBytes lits.length ++ (lits ++ rest)) out =
      .ok (rest, out ++ lits) := by
  rw [blockLiterals, nibbleLength_extBytes _ (by omega), ok_bind]
  simp only [takeLiterals]
  by_cases hz : lits = []
  · subst hz
    simp
  · have hne : lits.length ≠ 0 := by simpa using hz
    have hadd : checkedAdd out.length lits.length =
        some (out.length + lits.length) := if_pos (by omega)
    rw [if_pos hne, hadd]
    simp only
    rw [if_neg (by omega), if_neg (by simp), List.drop_left, List.take_left]

theorem takeMatch_append {cap dist len : Nat} {rest out : List U8}
    (hd : 0 < dist) (hd16 : dist < 2 ^ 16) (hdl : dist ≤ out.length)
    (hlen : minMatch ≤ len) (hcap : out.length + len ≤ cap)
    (husize : cap < usizeSize) :
    takeMatch cap (min (len - minMatch) 0x0F)
        (toLeBytes 2 (BitVec.ofNat 16 dist) ++
          (extBytes (len - minMatch) ++ rest)) out =
      .ok (rest, appendMatch out dist len) := by
  have hbytes : toLeBytes 2 (BitVec.ofNat 16 dist) =
      [(BitVec.ofNat 16 dist).extractLsb' 0 8,
        (BitVec.ofNat 16 dist).extractLsb' 8 8] := rfl
  have hback : (fromLeBytes 16 (toLeBytes 2 (BitVec.ofNat 16 dist))).toNat =
      dist := by
    rw [fromLeBytes_toLeBytes 2 _ (by omega), BitVec.toNat_ofNat]
    exact Nat.mod_eq_of_lt hd16
  rw [hbytes] at hback ⊢
  have hl : len - minMatch + minMatch = len := by omega
  have hadd : checkedAdd (len - minMatch) minMatch = some len := by
    rw [checkedAdd, hl, if_pos (by omega)]
  have hadd' : checkedAdd out.length len = some (out.length + len) :=
    if_pos (by omega)
  simp only [List.cons_append, List.nil_append, takeMatch, hback]
  rw [if_neg (by omega), nibbleLength_extBytes _ (by omega), ok_bind]
  simp only [hadd]
  rw [if_neg (by omega), hadd']
  simp only
  rw [if_neg (by omega)]

/-- A sequence that does not reach the end of the block is read back. -/
theorem decodePass_sequence (destEnd cap dist len : Nat) (lits out : List U8)
    (rest : List U8) (hd : 0 < dist) (hd16 : dist < 2 ^ 16)
    (hdl : dist ≤ out.length + lits.length) (hlen : minMatch ≤ len)
    (hend : out.length + lits.length + len < destEnd) (hcap : destEnd ≤ cap)
    (husize : cap < usizeSize) :
    decodePass destEnd cap (sequenceBytes lits dist len ++ rest, out) =
      .ok (.inl (rest, appendMatch (out ++ lits) dist len)) := by
  obtain ⟨hhi, hlo⟩ := tokenByte_nibbles lits.length (len - minMatch)
  have hol : (out ++ lits).length = out.length + lits.length := by simp
  simp only [decodePass, sequenceBytes, List.cons_append, hhi, hlo,
    List.append_assoc]
  rw [blockLiterals_append (by omega) husize, ok_bind]
  simp only
  rw [if_neg (by omega), takeMatch_append hd hd16 (by omega) hlen (by omega)
    husize, ok_bind]
  simp only
  rw [if_neg (by rw [appendMatch_length]; omega)]

/-- The last literals end the block. -/
theorem decodePass_lastLiterals {cap : Nat} (destEnd : Nat)
    (out lits : List U8) (rest : List U8)
    (hend : out.length + lits.length = destEnd) (hcap : destEnd ≤ cap)
    (husize : cap < usizeSize) :
    decodePass destEnd cap (lastBytes lits ++ rest, out) =
      .ok (.inr (rest, out ++ lits)) := by
  obtain ⟨hhi, -⟩ := tokenByte_nibbles lits.length 0
  simp only [decodePass, lastBytes, List.cons_append, hhi, List.append_assoc]
  rw [blockLiterals_append (by omega) husize, ok_bind]
  simp only
  rw [if_pos (by simp; omega)]

/-! ## A block -/

/-- The arguments of one call of `encode_sequence`. -/
structure Sequence where
  anchor : Nat
  matchRef : Nat
  matchOff : Nat
  matchLen : Nat

/-- A sequence that can be written: it takes its literals from the anchor
on, and the match repeats bytes of the window that starts at `dictOff`.  It
ends before `stop`, where the text ends. -/
structure SequenceOk (bytes : List U8) (dictOff stop : Nat)
    (s : Sequence) : Prop where
  anchor_le : s.anchor ≤ s.matchOff
  len_ge : minMatch ≤ s.matchLen
  ref_ge : dictOff ≤ s.matchRef
  ref_lt : s.matchRef < s.matchOff
  dist_lt : s.matchOff - s.matchRef < maxDistance
  end_lt : s.matchOff + s.matchLen < stop
  eq : BytesEq bytes s.matchOff s.matchRef s.matchLen

/-- Sequences that lead from anchor to anchor. -/
def Sequences (bytes : List U8) (dictOff stop : Nat) :
    Nat → List Sequence → Nat → Prop
  | a, [], a' => a = a'
  | a, s :: ss, a' => s.anchor = a ∧ SequenceOk bytes dictOff stop s ∧
      Sequences bytes dictOff stop (s.matchOff + s.matchLen) ss a'

theorem Sequences.snoc {bytes : List U8} {dictOff stop a a' : Nat}
    {ss : List Sequence} {s : Sequence}
    (h : Sequences bytes dictOff stop a ss a') (ha : s.anchor = a')
    (hs : SequenceOk bytes dictOff stop s) :
    Sequences bytes dictOff stop a (ss ++ [s]) (s.matchOff + s.matchLen) := by
  induction ss generalizing a with
  | nil => exact ⟨ha.trans h.symm, hs, rfl⟩
  | cons t ts ih => exact ⟨h.1, h.2.1, ih h.2.2⟩

/-- The bytes from `lo` to `hi`. -/
def between (bytes : List U8) (lo hi : Nat) : List U8 :=
  (bytes.drop lo).take (hi - lo)

theorem between_length (bytes : List U8) (lo hi : Nat) (h : hi ≤ bytes.length) : (between bytes lo hi).length = hi - lo := by
  rw [between, List.length_take, List.length_drop]
  omega

theorem between_append (bytes : List U8) {lo mid hi : Nat} (h : lo ≤ mid)
    (h' : mid ≤ hi) :
    between bytes lo mid ++ between bytes mid hi = between bytes lo hi := by
  rw [between, between, between,
    show hi - lo = (mid - lo) + (hi - mid) by omega, List.take_add,
    List.drop_drop, show lo + (mid - lo) = mid by omega]

/-- The bytes that the calls of `encode_sequence` append. -/
def sequencesBytes (bytes : List U8) (ss : List Sequence) : List U8 :=
  ss.flatMap fun s => sequenceBytes (between bytes s.anchor s.matchOff)
    (s.matchOff - s.matchRef) s.matchLen

/-- The block of the given sequences: their bytes and the last literals,
which start at `a'`. -/
def blockBytes (bytes : List U8) (ss : List Sequence) (a' stop : Nat) :
    List U8 :=
  sequencesBytes bytes ss ++ lastBytes (between bytes a' stop)

/-- A valid sequence is written without a panic. -/
theorem encodeSequence_ok {bytes : List U8} {dictOff stop : Nat}
    {s : Sequence} (h : SequenceOk bytes dictOff stop s)
    (hstop : stop ≤ bytes.length) (out : List U8) :
    encodeSequence bytes s.anchor s.matchRef s.matchOff s.matchLen out =
      .ok (out ++ sequenceBytes (between bytes s.anchor s.matchOff)
        (s.matchOff - s.matchRef) s.matchLen) := by
  have h₁ := h.anchor_le
  have h₂ := h.ref_lt
  have h₃ := h.dist_lt
  have h₄ := h.end_lt
  have h₅ := h.len_ge
  have hlits : (between bytes s.anchor s.matchOff).length =
      s.matchOff - s.anchor := between_length _ _ _ (by omega)
  have hslice : slice bytes s.anchor (s.anchor + (s.matchOff - s.anchor)) =
      some (between bytes s.anchor s.matchOff) := by
    rw [slice_eq_some (by omega) (by omega), Nat.add_sub_cancel_left]
    rfl
  have hdec : (Outcome.guardOk (0 < s.matchOff - s.matchRef ∧
      s.matchOff - s.matchRef < 1 <<< 16) : Result Unit) = .ok () :=
    guardOk_pos ⟨by omega, h₃⟩
  rw [encodeSequence, checkedSub_of_le h₁, checkedSub_of_le (by omega),
    guardOk_pos h₅]
  simp only [expect_some, ok_bind, encodeLiterals, hslice,
    hdec, Outcome.ok.injEq]
  simp only [sequenceBytes, hlits, tokenByte, extBytes]
  rw [encodeLen_append (s.matchLen - 0x0F - minMatch),
    encodeLen_append (s.matchOff - s.anchor - 0x0F)]
  have hext : s.matchLen - 0x0F - minMatch = s.matchLen - minMatch - 0x0F := by
    omega
  have hiff : minMatch + 0x0F ≤ s.matchLen ↔
      0x0F ≤ s.matchLen - minMatch := by omega
  rw [hext]
  by_cases hl : 0x0F ≤ s.matchOff - s.anchor <;>
    by_cases hm : 0x0F ≤ s.matchLen - minMatch <;>
    simp [hl, hm, hiff]

/-- The last literals are written without a panic. -/
theorem encodeLastLiterals_ok {bytes : List U8} {a stop : Nat}
    (ha : a ≤ stop) (hstop : stop ≤ bytes.length) (out : List U8) :
    encodeLastLiterals bytes a (stop - a) out =
      .ok (out ++ lastBytes (between bytes a stop)) := by
  have hlits : (between bytes a stop).length = stop - a :=
    between_length _ _ _ hstop
  have hslice : slice bytes a (a + (stop - a)) =
      some (between bytes a stop) := by
    rw [slice_eq_some (by omega) (by omega), Nat.add_sub_cancel_left]
    rfl
  rw [encodeLastLiterals]
  simp only [encodeLiterals, hslice, expect_some, ok_bind,
    Outcome.ok.injEq, lastBytes, hlits, tokenByte, extBytes]
  rw [encodeLen_append]
  by_cases hl : 0x0F ≤ stop - a <;> simp [hl]

/-- What a compressor has written when it stands at an anchor: valid
sequences up to the anchor, behind the output it was given. -/
def Written (bytes : List U8) (dictOff stop start : Nat) (out₀ : List U8)
    (anchor : Nat) (out : List U8) : Prop :=
  ∃ ss, Sequences bytes dictOff stop start ss anchor ∧
    out = out₀ ++ sequencesBytes bytes ss

theorem Written.nil {bytes out₀ : List U8} {dictOff stop start : Nat} :
    Written bytes dictOff stop start out₀ start out₀ :=
  ⟨[], rfl, by simp [sequencesBytes]⟩

/-- Writing one more sequence. -/
theorem Written.encodeSequence {bytes out₀ out : List U8}
    {dictOff stop start anchor : Nat} {s : Sequence}
    (h : Written bytes dictOff stop start out₀ anchor out)
    (hs : SequenceOk bytes dictOff stop s) (hstop : stop ≤ bytes.length)
    (ha : s.anchor = anchor) :
    ∃ out', Lz4.encodeSequence bytes s.anchor s.matchRef s.matchOff s.matchLen
        out = .ok out' ∧
      Written bytes dictOff stop start out₀ (s.matchOff + s.matchLen) out' := by
  obtain ⟨ss, hss, rfl⟩ := h
  refine ⟨_, encodeSequence_ok hs hstop _, ss ++ [s], hss.snoc ha hs, ?_⟩
  simp [sequencesBytes]

/-- Decoding the sequences of a text.  `pre` is what the decoder holds
before the window. -/
theorem decodeBlock_sequences {bytes : List U8} {dictOff stop a a' : Nat}
    {ss : List Sequence} (pre : List U8) (cap : Nat)
    (hs : Sequences bytes dictOff stop a ss a') (hda : dictOff ≤ a)
    (hstop : stop ≤ bytes.length) (ha : a ≤ stop)
    (hcap : pre.length + (stop - dictOff) ≤ cap) (husize : cap < usizeSize)
    (rest : List U8) (fuel : Nat) (hfuel : ss.length < fuel) :
    iterate (decodePass (pre.length + (stop - dictOff)) cap) fuel
        (blockBytes bytes ss a' stop ++ rest,
          pre ++ between bytes dictOff a) =
      .ok (rest, pre ++ between bytes dictOff stop) := by
  induction ss generalizing a fuel with
  | nil =>
    obtain ⟨fuel, rfl⟩ : ∃ k, fuel = k + 1 := ⟨fuel - 1, by
      simp only [List.length_nil] at hfuel
      omega⟩
    have haa : a = a' := hs
    subst haa
    refine iterate_leave ?_
    have hlen := between_length bytes dictOff a
      (by omega)
    have hlen' := between_length bytes a stop hstop
    have := decodePass_lastLiterals (pre.length + (stop - dictOff)) (pre ++ between bytes dictOff a) (between bytes a stop)
      rest (by rw [List.length_append, hlen, hlen']; omega) hcap husize
    rw [blockBytes, sequencesBytes, List.flatMap_nil, List.nil_append, this,
      List.append_assoc, between_append bytes hda ha]
  | cons s ss ih =>
    obtain ⟨fuel, rfl⟩ : ∃ k, fuel = k + 1 := ⟨fuel - 1, by
      simp only [List.length_cons] at hfuel
      omega⟩
    obtain ⟨hanchor, hok, hs'⟩ := hs
    have h₁ := hok.anchor_le
    have h₂ := hok.ref_lt
    have h₃ := hok.dist_lt
    have h₄ := hok.end_lt
    have h₅ := hok.len_ge
    have h₆ := hok.ref_ge
    rw [hanchor] at h₁
    have hlen := between_length bytes dictOff a
      (by omega)
    have hlen' := between_length bytes a s.matchOff
      (by omega)
    have hpass := decodePass_sequence (pre.length + (stop - dictOff)) cap (s.matchOff - s.matchRef) s.matchLen (between bytes a s.matchOff) (pre ++ between bytes dictOff a)
      (blockBytes bytes ss a' stop ++ rest) (by omega)
      (by rw [maxDistance] at h₃; simpa using h₃)
      (by rw [List.length_append, hlen, hlen']; omega) h₅
      (by rw [List.length_append, hlen, hlen']; omega) hcap husize
    rw [List.append_assoc, between_append bytes hda h₁] at hpass
    -- The match continues the text.
    have hmatch : appendMatch (pre ++ between bytes dictOff s.matchOff)
        (s.matchOff - s.matchRef) s.matchLen =
        pre ++ between bytes dictOff (s.matchOff + s.matchLen) := by
      have htake : ∀ i, pre ++ between bytes dictOff i =
          (pre ++ bytes.drop dictOff).take (pre.length + (i - dictOff)) := by
        intro i
        rw [List.take_length_add_append]
        rfl
      rw [htake, htake, show s.matchOff + s.matchLen - dictOff =
        s.matchOff - dictOff + s.matchLen by omega, ← Nat.add_assoc]
      refine appendMatch_take _ (by omega) (by omega) _ ?_ ?_
      · rw [List.length_append, List.length_drop]
        omega
      · intro k hk
        rw [List.getElem?_append_right (by omega),
          List.getElem?_append_right (by omega), List.getElem?_drop,
          List.getElem?_drop]
        have := hok.eq k hk
        rwa [show dictOff + (pre.length + (s.matchOff - dictOff) + k -
            pre.length) = s.matchOff + k by omega,
          show dictOff + (pre.length + (s.matchOff - dictOff) -
            (s.matchOff - s.matchRef) + k - pre.length) = s.matchRef + k
            by omega]
    rw [hmatch] at hpass
    have hblock : blockBytes bytes (s :: ss) a' stop ++ rest =
        sequenceBytes (between bytes a s.matchOff) (s.matchOff - s.matchRef)
          s.matchLen ++ (blockBytes bytes ss a' stop ++ rest) := by
      simp only [blockBytes, sequencesBytes, List.flatMap_cons,
        List.append_assoc, hanchor]
    rw [hblock, iterate_continue hpass]
    exact ih hs' (by omega) (by omega) fuel
      (by simp only [List.length_cons] at hfuel; omega)

theorem blockBytes_length (bytes : List U8) (ss : List Sequence)
    (a' stop : Nat) : ss.length < (blockBytes bytes ss a' stop).length := by
  induction ss with
  | nil => simp [blockBytes, sequencesBytes, lastBytes]
  | cons s ss ih =>
    simp only [blockBytes, sequencesBytes, List.flatMap_cons,
      List.append_assoc, List.length_append, List.length_cons,
      sequenceBytes] at ih ⊢
    omega

/-- `decompress` reads a block of valid sequences back.  The destination
holds the dictionary before `dOff` and has room for the text, and the input
may go on after the block. -/
theorem decompress_of_sequences {bytes : List U8}
    {dictOff start stop a' : Nat} {ss : List Sequence}
    (hs : Sequences bytes dictOff stop start ss a')
    (hds : dictOff ≤ start) (hss : start ≤ stop)
    (hstop : stop ≤ bytes.length) {input : SliceInput} {tail : List U8}
    (hin : input.rest = blockBytes bytes ss a' stop ++ tail)
    {dest : List U8} {dOff : Nat} (hfit : dOff + (stop - start) ≤ dest.length)
    (husize : dest.length < usizeSize) (hdOff : start - dictOff ≤ dOff)
    (hdict : between dest (dOff - (start - dictOff)) dOff =
      between bytes dictOff start) :
    decompress input (stop - start) dest dOff =
      .ok ⟨input.advance (blockBytes bytes ss a' stop).length,
        splice dest dOff (between bytes start stop),
        dOff + (stop - start)⟩ := by
  have hadd : checkedAdd dOff (stop - start) = some (dOff + (stop - start)) :=
    if_pos (by omega)
  have href := decompress_refines input (stop - start) dest dOff _ hadd hfit
  set pre := dest.take (dOff - (start - dictOff)) with hpre
  have hprelen : pre.length = dOff - (start - dictOff) := by
    rw [hpre, List.length_take]
    omega
  have hout : dest.take dOff = pre ++ between bytes dictOff start := by
    rw [← hdict, between, ← List.take_add]
    congr 1
    omega
  have hend : dOff + (stop - start) = pre.length + (stop - dictOff) := by
    omega
  have hfuel := blockBytes_length bytes ss a' stop
  have hdec := decodeBlock_sequences pre dest.length hs hds
    hstop hss (by omega) husize tail (input.rest.length + 1)
    (by rw [hin, List.length_append]; omega)
  rw [decodeBlock, hout, hend, hin] at href
  rw [hin] at hdec
  rw [hdec] at href
  obtain ⟨s, hs', hrel, -⟩ := href.ok_right
  have hlen : (pre ++ between bytes dictOff stop).length =
      dOff + (stop - start) := by
    rw [List.length_append, between_length _ _ _ hstop]
    omega
  have hinput : s.input =
      input.advance (blockBytes bytes ss a' stop).length := by
    refine SliceInput.ext_rest ?_ ?_
    · rw [hrel.input.2]
      rfl
    · rw [hrel.input.1, SliceInput.rest_advance, hin, List.drop_left]
  have hdest : s.dest = splice dest dOff (between bytes start stop) := by
    have hmid : (between bytes start stop).length = stop - start :=
      between_length _ _ _ hstop
    rw [hrel.dest, splice, hout, hmid, List.append_assoc]
    simp only
    rw [hlen, ← between_append bytes hds hss]
    simp only [List.append_assoc]
  have hd : s.dOff = dOff + (stop - start) := by
    rw [hrel.dOff]
    exact hlen
  rw [hs']
  cases s
  simp only at hinput hdest hd
  rw [hinput, hdest, hd]

/-- `block` is the text `bytes[dictOff + dictLen..][..len]`: `decompress`
reads it from any input that starts with the block, into any destination
that has room and holds the dictionary before `dOff`, and it takes exactly
the bytes of the block. -/
def DecodesTo (block bytes : List U8) (dictOff dictLen len : Nat) : Prop :=
  ∀ (input : SliceInput) (tail dest : List U8) (dOff : Nat),
    input.rest = block ++ tail → dest.length < usizeSize →
    dOff + len ≤ dest.length →
    (len ≠ 0 → dictLen ≤ dOff ∧ between dest (dOff - dictLen) dOff =
      between bytes dictOff (dictOff + dictLen)) →
    decompress input len dest dOff =
      .ok ⟨input.advance block.length,
        splice dest dOff (between bytes (dictOff + dictLen)
          (dictOff + dictLen + len)),
        dOff + len⟩

theorem Sequences.decodesTo {bytes : List U8} {dictOff dictLen len a' : Nat}
    {ss : List Sequence}
    (hss : Sequences bytes dictOff (dictOff + dictLen + len)
      (dictOff + dictLen) ss a')
    (hstop : dictOff + dictLen + len ≤ bytes.length) :
    DecodesTo (blockBytes bytes ss a' (dictOff + dictLen + len)) bytes
      dictOff dictLen len := by
  intro input tail dest dOff hin husize hfit hdest
  have hlen : dictOff + dictLen + len - (dictOff + dictLen) = len := by omega
  rw [← hlen] at hfit
  by_cases hz : len = 0
  · -- An empty text has no match, so the dictionary is not needed.
    subst hz
    have hnil : Sequences bytes (dictOff + dictLen) (dictOff + dictLen + 0)
        (dictOff + dictLen) ss a' := by
      cases ss with
      | nil => exact hss
      | cons s ss =>
        obtain ⟨h₁, h₂, -⟩ := hss
        have := h₂.anchor_le
        have := h₂.end_lt
        omega
    have := decompress_of_sequences hnil (Nat.le_refl _) (by omega) hstop hin
      hfit husize (by omega) (by simp [between])
    simpa using this
  · obtain ⟨hd, heq⟩ := hdest hz
    have hdl : dictOff + dictLen - dictOff = dictLen := by omega
    have := decompress_of_sequences hss (by omega) (by omega) hstop hin hfit
      husize (by omega) (by rw [hdl]; exact heq)
    rwa [hlen] at this

end LuceneRust.Codecs.Lz4
