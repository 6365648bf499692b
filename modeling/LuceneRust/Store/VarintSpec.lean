import LuceneRust.Store.DataInput

/-!
# Reading a varint back

`Reads rd bs a` says that the reader `rd` takes exactly the bytes `bs` off
the front of any input and returns `a`, whatever follows.  It composes
along a bind, so the readers of a whole file are put together from the
readers of its parts.

The decoder in view and the two byte loops are three ways to add up the
7-bit groups of a value.  `or_group` is the step that they share.
-/

namespace LuceneRust.Store

open RustSem

/-- The reader `rd` reads `bs` as `a`. -/
def Reads {α : Type} (rd : SliceInput → Result (α × SliceInput))
    (bs : List U8) (a : α) : Prop :=
  ∀ (inp : SliceInput) (tail : List U8), inp.rest = bs ++ tail →
    rd inp = .ok (a, inp.advance bs.length)

section Reads

variable {α β : Type} {bs cs : List U8} {a : α} {b : β}

theorem Reads.bind {f : SliceInput → Result (α × SliceInput)}
    {g : α → SliceInput → Result (β × SliceInput)} (hf : Reads f bs a)
    (hg : Reads (g a) cs b) :
    Reads (fun inp => f inp >>= fun x => g x.1 x.2) (bs ++ cs) b := by
  intro inp tail h
  rw [List.append_assoc] at h
  have hrest := SliceInput.rest_advance_append h
  simp only [hf inp _ h, ok_bind]
  rw [hg _ tail hrest, SliceInput.advance_advance, List.length_append]

theorem Reads.map {f : SliceInput → Result (α × SliceInput)} (g : α → β)
    (hf : Reads f bs a) :
    Reads (fun inp => f inp >>= fun x => .ok (g x.1, x.2)) bs (g a) := by
  intro inp tail h
  simp only [hf inp tail h, ok_bind]

theorem Reads.readN (bs : List U8) :
    Reads (fun inp => inp.readN bs.length) bs bs := by
  intro inp tail h
  exact SliceInput.readN_append h

theorem Reads.readByte (b : U8) : Reads SliceInput.readByte [b] b := by
  intro inp tail h
  exact SliceInput.readByte_cons h

end Reads

/-! ## The groups of a varint -/

/-- What a byte says: `b &&& 0x7F` is its group, and bit 7 its
continuation. -/
theorem low7_cont (b : U8) :
    (b &&& 0x7F#8 ||| 0x80#8) &&& 0x7F#8 = b &&& 0x7F#8 ∧
      ¬ (b &&& 0x7F#8 ||| 0x80#8) < 0x80#8 ∧
      (b &&& 0x7F#8 ||| 0x80#8) &&& 0x80#8 ≠ 0#8 := by
  revert b
  decide +kernel

/-- A byte without the continuation bit. -/
theorem last_byte {b : U8} (h : b.toNat < 128) :
    b &&& 0x7F#8 = b ∧ b < 0x80#8 ∧ b &&& 0x80#8 = 0#8 := by
  revert b
  decide +kernel

/-- One group and the groups behind it. -/
theorem or_group {w : Nat} (v : U64) (s : Nat) :
    (v.setWidth 8 &&& 0x7F#8).setWidth w <<< s |||
      (v >>> 7).setWidth w <<< (s + 7) = v.setWidth w <<< s := by
  rw [Nat.add_comm, BitVec.shiftLeft_add, ← BitVec.shiftLeft_or_distrib]
  congr 1
  apply BitVec.eq_of_getLsbD_eq
  intro i hi
  rw [BitVec.getLsbD_or, BitVec.getLsbD_setWidth, BitVec.getLsbD_and,
    BitVec.getLsbD_setWidth, getLsbD_low7 (by decide),
    BitVec.getLsbD_shiftLeft, BitVec.getLsbD_setWidth,
    BitVec.getLsbD_ushiftRight, BitVec.getLsbD_setWidth]
  by_cases h7 : i < 7
  · simp [hi, h7, show i < 8 by omega]
  · simp [hi, h7, show i - 7 < w by omega, show 7 + (i - 7) = i by omega]

/-- The cases of `encodeVarint`, with the bytes as the decoders see them. -/
theorem encodeVarint_cases (v : U64) :
    (v.toNat < 128 ∧ encodeVarint v = [v.setWidth 8] ∧
        (v.setWidth 8).toNat < 128) ∨
      (128 ≤ v.toNat ∧ encodeVarint v =
        (v.setWidth 8 &&& 0x7F#8 ||| 0x80#8) :: encodeVarint (v >>> 7)) := by
  rcases Nat.lt_or_ge v.toNat 128 with h | h
  · refine Or.inl ⟨h, ?_, ?_⟩
    · have hone := mt (and_not_low7_ne_zero v).1 (by omega)
      rw [encodeVarint, if_neg hone]
    · rw [BitVec.toNat_setWidth]
      omega
  · refine Or.inr ⟨h, ?_⟩
    rw [encodeVarint, if_pos ((and_not_low7_ne_zero v).2 (by omega)),
      BitVec.setWidth_and]
    rfl

/-- The room that is left after one group. -/
theorem room_next {w i : Nat} {v : U64} (h128 : 128 ≤ v.toNat)
    (hv : v.toNat < 2 ^ (w - 7 * i)) :
    7 * (i + 1) < w ∧ (v >>> 7).toNat < 2 ^ (w - 7 * (i + 1)) := by
  have hlt : 7 < w - 7 * i := by
    by_contra hle
    have : 2 ^ (w - 7 * i) ≤ 2 ^ 7 :=
      Nat.pow_le_pow_right (by decide) (by omega)
    omega
  have hpow : 2 ^ (w - 7 * i) = 2 ^ (w - 7 * (i + 1)) * 128 := by
    rw [show w - 7 * i = w - 7 * (i + 1) + 7 by omega, Nat.pow_add]
  refine ⟨by omega, ?_⟩
  rw [shiftRight_seven, Nat.div_lt_iff_lt_mul (by decide)]
  omega

/-! ## The decoder in view -/

theorem varintFast_encodeVarint (w : Nat) (tail : List U8) (n : Nat) :
    ∀ (v : U64) (i : Nat) (acc : BitVec w), v.toNat < n → 7 * i < w →
      v.toNat < 2 ^ (w - 7 * i) →
      varintFast w (encodeVarint v ++ tail) i acc =
        some (acc ||| v.setWidth w <<< (7 * i),
          i + (encodeVarint v).length) := by
  induction n with
  | zero =>
    intro v i acc hn
    exact absurd hn (Nat.not_lt_zero _)
  | succ n ih =>
    intro v i acc hn hi hv
    have hmod : 7 * i % w = 7 * i := Nat.mod_eq_of_lt hi
    rcases encodeVarint_cases v with ⟨hlt, he, hb⟩ | ⟨hge, he⟩
    · obtain ⟨hlow, hend, -⟩ := last_byte hb
      rw [he, List.singleton_append, varintFast, if_pos hend, hlow, hmod]
      have hsmall : (v.setWidth 8).setWidth w = v.setWidth w := by
        apply BitVec.eq_of_toNat_eq
        simp only [BitVec.toNat_setWidth]
        rw [Nat.mod_eq_of_lt (by omega : v.toNat < 2 ^ 8)]
      rw [hsmall]
      rfl
    · obtain ⟨hlow, hmore, -⟩ := low7_cont (v.setWidth 8)
      obtain ⟨hi', hv'⟩ := room_next hge hv
      have hdec : (v >>> 7).toNat < n := by
        rw [shiftRight_seven]
        omega
      rw [he, List.cons_append, varintFast, if_neg hmore, hlow, hmod,
        ih (v >>> 7) (i + 1) _ hdec hi' hv', BitVec.or_assoc, Nat.mul_add,
        or_group, List.length_cons]
      congr 2
      omega

/-! ## The byte loops -/

/-- The last group of a varint. -/
theorem or_last {w : Nat} {v : U64} (h : v.toNat < 128) (s : Nat) :
    (v.setWidth 8 &&& 0x7F#8).setWidth w <<< s = v.setWidth w <<< s := by
  have hzero : v >>> 7 = 0#64 := by
    apply BitVec.eq_of_toNat_eq
    rw [shiftRight_seven, Nat.div_eq_of_lt h]
    rfl
  have hgroup := or_group (w := w) v s
  rw [hzero] at hgroup
  simpa using hgroup

/-- The loop with the first byte `b` of `v` read already. -/
theorem iterate_readVarintPass {w k : Nat} (hk : w ≤ 7 * (k + 1))
    (tail : List U8) (fuel : Nat) :
    ∀ (v : U64) (i : Nat) (acc : BitVec w) (b : U8) (bs : List U8)
      (inp : SliceInput), encodeVarint v = b :: bs → inp.rest = bs ++ tail →
      7 * i < w → v.toNat < 2 ^ (w - 7 * i) → k + 1 ≤ fuel + i →
      iterate (readVarintPass w (7 * k)) fuel
          (b, acc ||| (b &&& 0x7F#8).setWidth w <<< (7 * i), 7 * (i + 1), inp) =
        .ok (acc ||| v.setWidth w <<< (7 * i), inp.advance bs.length) := by
  induction fuel with
  | zero =>
    intro v i acc b bs inp _ _ hi _ hfuel
    omega
  | succ fuel ih =>
    intro v i acc b bs inp he hrest hi hv hfuel
    rcases encodeVarint_cases v with ⟨hlt, he', hb⟩ | ⟨hge, he'⟩
    · obtain ⟨rfl, rfl⟩ := List.cons.inj (he.symm.trans he')
      obtain ⟨-, -, hend⟩ := last_byte hb
      refine iterate_leave ?_
      rw [readVarintPass, if_neg (by simp [hend]), or_last hlt]
      simp
    · obtain ⟨rfl, rfl⟩ := List.cons.inj (he.symm.trans he')
      obtain ⟨hlow, -, hmore⟩ := low7_cont (v.setWidth 8)
      obtain ⟨hi', hv'⟩ := room_next hge hv
      obtain ⟨b', bs', hnext⟩ : ∃ b' bs', encodeVarint (v >>> 7) = b' :: bs' := by
        rcases encodeVarint_cases (v >>> 7) with ⟨-, h, -⟩ | ⟨-, h⟩
        · exact ⟨_, _, h⟩
        · exact ⟨_, _, h⟩
      have hread := SliceInput.readByte_cons
        (show inp.rest = b' :: (bs' ++ tail) by rw [hrest, hnext]; rfl)
      have hrest' : (inp.advance 1).rest = bs' ++ tail := by
        rw [SliceInput.rest_advance, hrest, hnext]
        rfl
      have hstep : readVarintPass w (7 * k)
          ((v.setWidth 8 &&& 0x7F#8 ||| 0x80#8),
            acc ||| ((v.setWidth 8 &&& 0x7F#8 ||| 0x80#8) &&&
              0x7F#8).setWidth w <<< (7 * i), 7 * (i + 1), inp) =
          .ok (.inl (b', acc ||| (v.setWidth 8 &&& 0x7F#8).setWidth w
              <<< (7 * i) ||| (b' &&& 0x7F#8).setWidth w <<< (7 * (i + 1)),
            7 * (i + 1 + 1), inp.advance 1)) := by
        rw [readVarintPass, if_pos hmore, if_neg (by omega), hread,
          ok_bind, Nat.mod_eq_of_lt hi', hlow]
        rfl
      rw [iterate_continue hstep, ih (v >>> 7) (i + 1) _ b' bs' _ hnext hrest'
        hi' hv' (by omega), SliceInput.advance_advance, hnext,
        BitVec.or_assoc, Nat.mul_add, or_group, List.length_cons,
        Nat.add_comm 1]

theorem reads_readVarintLoop {w k : Nat} (hw : 0 < w)
    (hk : w ≤ 7 * (k + 1)) (hfuel : k ≤ 10) {v : U64} (hv : v.toNat < 2 ^ w) :
    Reads (readVarintLoop w (7 * k)) (encodeVarint v) (v.setWidth w) := by
  intro inp tail h
  obtain ⟨b, bs, he⟩ : ∃ b bs, encodeVarint v = b :: bs := by
    rcases encodeVarint_cases v with ⟨-, h, -⟩ | ⟨-, h⟩
    · exact ⟨_, _, h⟩
    · exact ⟨_, _, h⟩
  rw [he] at h
  have hrest : (inp.advance 1).rest = bs ++ tail := by
    rw [SliceInput.rest_advance, h]
    rfl
  have hloop := iterate_readVarintPass hk tail 11 v 0 0#w b bs _ he hrest
    hw hv (by omega)
  simp only [Nat.mul_zero, BitVec.shiftLeft_zero, BitVec.zero_or,
    Nat.zero_add, Nat.mul_one] at hloop
  simp only [readVarintLoop, SliceInput.readByte_cons h, ok_bind]
  rw [hloop, SliceInput.advance_advance, he, List.length_cons, Nat.add_comm 1]

theorem iterate_readZlongPass (tail : List U8) (fuel : Nat) :
    ∀ (v : U64) (i : Nat) (acc : U64) (inp : SliceInput),
      inp.rest = encodeVarint v ++ tail → 7 * i < 64 →
      v.toNat < 2 ^ (64 - 7 * i) → 10 ≤ fuel + i →
      iterate readZlongPass fuel (acc, 7 * i, inp) =
        .ok (acc ||| v <<< (7 * i), inp.advance (encodeVarint v).length) := by
  induction fuel with
  | zero =>
    intro v i acc inp _ hi _ hfuel
    omega
  | succ fuel ih =>
    intro v i acc inp hrest hi hv hfuel
    have hmod : 7 * i % 64 = 7 * i := Nat.mod_eq_of_lt hi
    rcases encodeVarint_cases v with ⟨hlt, he, hb⟩ | ⟨hge, he⟩
    · obtain ⟨-, -, hend⟩ := last_byte hb
      rw [he] at hrest ⊢
      refine iterate_leave ?_
      simp only [readZlongPass, SliceInput.readByte_cons hrest,
        ok_bind]
      rw [if_pos hend, hmod, or_last hlt, BitVec.setWidth_eq]
      rfl
    · obtain ⟨hlow, -, hmore⟩ := low7_cont (v.setWidth 8)
      obtain ⟨hi', hv'⟩ := room_next hge hv
      rw [he, List.cons_append] at hrest
      have hrest' : (inp.advance 1).rest = encodeVarint (v >>> 7) ++ tail := by
        rw [SliceInput.rest_advance, hrest]
        rfl
      have hstep : readZlongPass (acc, 7 * i, inp) =
          .ok (.inl (acc ||| (v.setWidth 8 &&& 0x7F#8).setWidth 64
            <<< (7 * i), 7 * (i + 1), inp.advance 1)) := by
        simp only [readZlongPass, SliceInput.readByte_cons hrest,
          ok_bind]
        rw [if_neg hmore, if_neg (by omega), hmod, hlow]
        rfl
      have hgroup := or_group (w := 64) v (7 * i)
      simp only [BitVec.setWidth_eq] at hgroup
      rw [iterate_continue hstep, ih (v >>> 7) (i + 1) _ _ hrest' hi' hv'
        (by omega), SliceInput.advance_advance, BitVec.or_assoc, Nat.mul_add,
        hgroup, he, List.length_cons, Nat.add_comm 1]

theorem reads_readZlongLoop (v : U64) :
    Reads readZlongLoop (encodeVarint v) v := by
  intro inp tail h
  have hloop := iterate_readZlongPass tail 11 v 0 0#64 inp h (by decide)
    v.isLt (by decide)
  rw [readZlongLoop, show (0 : U64) = 0#64 from rfl]
  simpa using hloop

/-! ## The readers -/

theorem encodeVarint_length_le {v : U64} {w n : Nat} (hv : v.toNat < 2 ^ w)
    (hn : w ≤ 7 * n) (hpos : 0 < n) : (encodeVarint v).length ≤ n := by
  obtain ⟨k, hk, -, -, hge⟩ := varintLen_spec v
  rw [encodeVarint_length, hk]
  rcases hge with rfl | hge
  · exact hpos
  · have : 7 * k < w := by
      by_contra hle
      have : 2 ^ w ≤ 2 ^ (7 * k) :=
        Nat.pow_le_pow_right (by decide) (by omega)
      omega
    omega

/-- Both paths of a varint reader: in view, and near the end. -/
theorem reads_readInView {w : Nat} (window : Nat) (hw : 0 < w)
    (hwin : w ≤ 7 * window) {v : U64} (hv : v.toNat < 2 ^ w)
    {slow : SliceInput → Result (BitVec w × SliceInput)}
    (hslow : Reads slow (encodeVarint v) (v.setWidth w)) :
    Reads (SliceInput.readInView w window slow) (encodeVarint v)
      (v.setWidth w) := by
  intro inp tail h
  have hlen := encodeVarint_length_le hv hwin (by omega)
  rcases Nat.lt_or_ge inp.buf.length (inp.pos + window) with hshort | hin
  · rw [SliceInput.readInView, slice_eq_none hshort]
    exact hslow inp tail h
  · have hview : (inp.buf.drop inp.pos).take window =
        encodeVarint v ++ tail.take (window - (encodeVarint v).length) := by
      rw [show inp.buf.drop inp.pos = encodeVarint v ++ tail from h,
        List.take_append, List.take_of_length_le hlen]
    have hfast := varintFast_encodeVarint w
      (tail.take (window - (encodeVarint v).length)) (v.toNat + 1) v 0 0#w
      (by omega) (by omega) hv
    rw [SliceInput.readInView, slice_eq_some (by omega) hin,
      Nat.add_sub_cancel_left, hview, Option.bind_some, hfast]
    simp

/-- `write_vint`, then `read_vint`. -/
theorem reads_readVint (v : U32) :
    Reads SliceInput.readVint (encodeVarint (v.setWidth 64)) v := by
  have hv : (v.setWidth 64).toNat < 2 ^ 32 := by
    rw [BitVec.toNat_setWidth_of_le (by decide)]
    exact v.isLt
  have hloop := reads_readVarintLoop (w := 32) (k := 4) (by decide)
    (by decide) (by decide) hv
  have hread := reads_readInView 5 (by decide) (by decide) hv hloop
  rwa [BitVec.setWidth_setWidth_of_le v (by decide), BitVec.setWidth_eq]
    at hread

/-- `write_vlong`, then `read_vlong`. -/
theorem reads_readVlong (v : U64) :
    Reads SliceInput.readVlong (encodeVarint v) v := by
  have hloop := reads_readVarintLoop (w := 64) (k := 9) (by decide)
    (by decide) (by decide) v.isLt
  have hread := reads_readInView 10 (by decide) (by decide) v.isLt
    hloop
  rwa [BitVec.setWidth_eq] at hread

/-! ## Zigzag -/

theorem zigzagEncode_getLsbD {w : Nat} (v : BitVec w) {i : Nat} (hi : i < w) :
    (zigzagEncode v).getLsbD i =
      (v.msb ^^ (decide (0 < i) && v.getLsbD (i - 1))) := by
  have hmsb : (v.sshiftRight (w - 1)).getLsbD i = v.msb := by
    rw [BitVec.getLsbD_sshiftRight]
    by_cases h0 : i = 0
    · subst h0
      simp [BitVec.msb_eq_getLsbD_last, show w - 1 < w by omega, hi.ne']
    · simp [hi, show ¬ w - 1 + i < w by omega]
  rw [zigzagEncode, BitVec.getLsbD_xor, hmsb, BitVec.getLsbD_shiftLeft]
  by_cases h0 : i = 0
  · simp [h0]
  · simp [hi, h0, show 0 < i by omega]

/-- Minus a bit is that bit everywhere. -/
theorem getLsbD_neg_and_one {w : Nat} (v : BitVec w) {i : Nat} (hi : i < w) :
    (-(v &&& 1#w)).getLsbD i = v.getLsbD 0 := by
  have hbit : v &&& 1#w = if v.getLsbD 0 then 1#w else 0#w := by
    apply BitVec.eq_of_getLsbD_eq
    intro j hj
    by_cases h0 : j = 0
    · subst h0
      cases h : v.getLsbD 0 <;> simp [h]
    · cases v.getLsbD 0 <;> simp [h0]
  rw [hbit]
  cases v.getLsbD 0 with
  | false => simp
  | true =>
    rw [if_pos rfl, BitVec.neg_one_eq_allOnes, BitVec.getLsbD_allOnes]
    simpa using hi

theorem zigzagDecode_zigzagEncode {w : Nat} (v : BitVec w) :
    zigzagDecode (zigzagEncode v) = v := by
  apply BitVec.eq_of_getLsbD_eq
  intro i hi
  rw [zigzagDecode, BitVec.getLsbD_xor, BitVec.getLsbD_ushiftRight,
    getLsbD_neg_and_one _ hi, zigzagEncode_getLsbD v (show 0 < w by omega)]
  rcases Nat.lt_or_ge (1 + i) w with hlt | hge
  · rw [zigzagEncode_getLsbD v hlt]
    rw [show 1 + i - 1 = i by omega]
    cases v.msb <;> simp
  · rw [BitVec.getLsbD_of_ge _ _ hge, BitVec.msb_eq_getLsbD_last]
    simp [show w - 1 = i by omega]

/-- `write_zlong`, then `read_zlong`. -/
theorem reads_readZlong (v : U64) :
    Reads SliceInput.readZlong (encodeVarint (zigzagEncode v)) v := by
  have hloop := reads_readZlongLoop (zigzagEncode v)
  have hread := (reads_readInView 10 (w := 64) (by decide)
    (by decide) (zigzagEncode v).isLt
    (by rwa [BitVec.setWidth_eq])).map zigzagDecode
  rwa [BitVec.setWidth_eq, zigzagDecode_zigzagEncode] at hread

/-- `write_zint`, then `read_zint`. -/
theorem reads_readZint (v : U32) :
    Reads SliceInput.readZint (encodeVarint ((zigzagEncode v).setWidth 64))
      v := by
  have hread := (reads_readVint (zigzagEncode v)).map zigzagDecode
  rwa [zigzagDecode_zigzagEncode] at hread

end LuceneRust.Store
