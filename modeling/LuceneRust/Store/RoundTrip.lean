import LuceneRust.Store.VarintSpec

/-!
# Every `DataOutput` primitive is undone by its `DataInput` counterpart

The writers of the module `DataOutput` append bytes, and the readers of the
module `DataInput` read them back.  Varints are in `VarintSpec`; this module
has the words of a fixed width, the group varints, the strings and their
collections, and then a whole sequence of writes.

* A group is a flag byte and the low bytes of four values.
  `groupBytes_word` says that a masked word read at a value's place is the
  value, which is what all three group readers do.
* `Value` is one call of the writer with its argument, `Value.write` and
  `Value.read` are the two sides, and `readAll_writeAll` is the round trip
  of a sequence.
-/

namespace LuceneRust.Store

open RustSem

/-! ## Words of a fixed width -/

/-- A little-endian word. -/
theorem reads_readLe {w n : Nat} (v : BitVec w) (h : w ≤ 8 * n) :
    Reads (SliceInput.readLe w n) (toLeBytes n v) v := by
  have hread := (Reads.readN (toLeBytes n v)).map (fromLeBytes w)
  rwa [fromLeBytes_toLeBytes n v h, toLeBytes_length] at hread

theorem reads_readBeU32 (v : U32) :
    Reads SliceInput.readBeU32 (toBeBytes 4 v) v := by
  have hread := (Reads.readN (toBeBytes 4 v)).map
    fun b => fromLeBytes 32 b.reverse
  have hlen : (toBeBytes 4 v).length = 4 := by simp [toBeBytes]
  rwa [toBeBytes, List.reverse_reverse, fromLeBytes_toLeBytes 4 v (by decide),
    ← toBeBytes, hlen] at hread

/-- The two halves of a big-endian long. -/
theorem toBeBytes_halves (v : U64) :
    toBeBytes 8 v = toBeBytes 4 ((v >>> 32).setWidth 32) ++
      toBeBytes 4 (v.setWidth 32) := by
  have hhi : ∀ i < 4, v.extractLsb' (8 * (4 + i)) 8 =
      ((v >>> 32).setWidth 32).extractLsb' (8 * i) 8 := by
    intro i hi
    apply BitVec.eq_of_getLsbD_eq
    intro j hj
    simp [hj, show 8 * i + j < 32 by omega,
      show 8 * (4 + i) + j = 32 + (8 * i + j) by omega]
  have hlo : ∀ i < 4, v.extractLsb' (8 * i) 8 =
      (v.setWidth 32).extractLsb' (8 * i) 8 := by
    intro i hi
    apply BitVec.eq_of_getLsbD_eq
    intro j hj
    simp [hj, show 8 * i + j < 32 by omega]
  rw [toBeBytes, toBeBytes, toBeBytes, ← List.reverse_append, toLeBytes,
    toLeBytes, toLeBytes, show List.range 8 = List.range (4 + 4) from rfl,
    List.range_add, List.map_append, List.map_map]
  congr 2
  · exact List.map_congr_left fun i hi => hlo i (List.mem_range.1 hi)
  · exact List.map_congr_left fun i hi => hhi i (List.mem_range.1 hi)

theorem reads_readBeU64 (v : U64) :
    Reads SliceInput.readBeU64 (toBeBytes 8 v) v := by
  have hjoin : (((v >>> 32).setWidth 32).setWidth 64 <<< 32) |||
      (v.setWidth 32).setWidth 64 = v := by
    apply BitVec.eq_of_getLsbD_eq
    intro i hi
    by_cases h : i < 32
    · simp [hi, h]
    · simp [hi, h, show i - 32 < 32 by omega, show 32 + (i - 32) = i by omega]
  have hread := (reads_readBeU32 ((v >>> 32).setWidth 32)).bind
    (g := fun (hi : U32) inp => inp.readBeU32 >>= fun lo =>
      .ok ((hi.setWidth 64 <<< 32) ||| lo.1.setWidth 64, lo.2))
    ((reads_readBeU32 (v.setWidth 32)).map fun lo =>
      (((v >>> 32).setWidth 32).setWidth 64 <<< 32) ||| lo.setWidth 64)
  rwa [hjoin, ← toBeBytes_halves] at hread

/-! ## One value of a group -/

/-- The bytes that a group keeps of `v`. -/
def groupBytes (v : U32) : List U8 := (toLeBytes 4 v).take (groupLen v)

theorem groupLen_spec (v : U32) :
    1 ≤ groupLen v ∧ groupLen v ≤ 4 ∧ v.toNat < 2 ^ (8 * groupLen v) := by
  have hlt := BitVec.toNat_lt_two_pow_sub_clz (x := v ||| 1#32)
  have hor : v.toNat ≤ (v ||| 1#32).toNat := by
    rw [BitVec.toNat_or]
    exact Nat.left_le_or
  have hne : v ||| 1#32 ≠ 0#32 := by
    intro h
    have hbit := congrArg (fun x => x.getLsbD 0) h
    simp at hbit
  have hclz : (v ||| 1#32).clz.toNat < 32 := by
    have := (BitVec.clz_lt_iff_ne_zero (x := v ||| 1#32)).2 hne
    rw [BitVec.lt_def] at this
    simpa using this
  rw [groupLen]
  generalize (v ||| 1#32).clz.toNat = c at hlt hclz
  have hpow : 2 ^ (32 - c) ≤ 2 ^ (8 * (4 - c / 8)) :=
    Nat.pow_le_pow_right (by decide) (by omega)
  exact ⟨by omega, by omega, by omega⟩

theorem groupBytes_length (v : U32) : (groupBytes v).length = groupLen v := by
  have := (groupLen_spec v).2.1
  simp [groupBytes, Nat.min_eq_left this]

/-- The bits of a value lie in the bytes that are kept. -/
theorem getLsbD_of_groupLen {v : U32} {i : Nat} (h : 8 * groupLen v ≤ i) :
    v.getLsbD i = false :=
  Nat.testBit_lt_two_pow ((groupLen_spec v).2.2.trans_le
    (Nat.pow_le_pow_right (by decide) h))

theorem groupMask_getLsbD {n i : Nat} (hn : n ≤ 3) (hi : i < 32) :
    (SliceInput.groupMask n).getLsbD i = decide (i < 8 * (n + 1)) := by
  have key : ∀ (n : Fin 4) (i : Fin 32),
      (SliceInput.groupMask n).getLsbD i = decide (i.val < 8 * (n.val + 1)) := by
    decide
  exact key ⟨n, by omega⟩ ⟨i, hi⟩

/-- A bit of a word whose first bytes are the bytes kept of `v`. -/
theorem getLsbD_groupBytes (v : U32) (more : List U8) {i : Nat}
    (hi : i < 8 * groupLen v) :
    (fromLeBytes 32 (groupBytes v ++ more)).getLsbD i = v.getLsbD i := by
  have h4 := (groupLen_spec v).2.1
  have hdiv : i / 8 < groupLen v := by omega
  have hbyte : (groupBytes v ++ more).getD (i / 8) 0 =
      v.extractLsb' (8 * (i / 8)) 8 := by
    rw [List.getD_append _ _ _ _ (by rw [groupBytes_length]; exact hdiv),
      groupBytes, List.getD_eq_getElem?_getD, List.getElem?_take_of_lt hdiv,
      toLeBytes_getElem? 4 v (by omega), Option.getD_some]
  have hmod : i % 8 < 8 := Nat.mod_lt _ (by decide)
  rw [getLsbD_fromLeBytes, hbyte, BitVec.getLsbD_extractLsb',
    Nat.div_add_mod i 8]
  simp [show i < 32 by omega, hmod]

/-- A word read at the place of `v` and masked to its length is `v`. -/
theorem groupBytes_word (v : U32) (more : List U8) :
    fromLeBytes 32 (groupBytes v ++ more) &&&
      SliceInput.groupMask (groupLen v - 1) = v := by
  obtain ⟨h1, h4, -⟩ := groupLen_spec v
  apply BitVec.eq_of_getLsbD_eq
  intro i hi
  rw [BitVec.getLsbD_and, groupMask_getLsbD (by omega) hi,
    show groupLen v - 1 + 1 = groupLen v by omega]
  by_cases h : i < 8 * groupLen v
  · simp [h, getLsbD_groupBytes v more h]
  · simp [h, getLsbD_of_groupLen (Nat.le_of_not_lt h)]

/-- The bytes kept of `v`, read alone. -/
theorem fromLeBytes_groupBytes (v : U32) :
    fromLeBytes 32 (groupBytes v) = v := by
  apply BitVec.eq_of_getLsbD_eq
  intro i hi
  by_cases h : i < 8 * groupLen v
  · have := getLsbD_groupBytes v [] h
    rwa [List.append_nil] at this
  · rw [getLsbD_of_groupLen (Nat.le_of_not_lt h), getLsbD_fromLeBytes]
    have : (groupBytes v).getD (i / 8) 0 = 0#8 := by
      rw [List.getD_eq_default _ _ (by rw [groupBytes_length]; omega)]
      rfl
    rw [this]
    simp

/-! ## One group -/

/-- The four values of a group. -/
structure Quad where
  a : U32
  b : U32
  c : U32
  d : U32

namespace Quad

def vals (q : Quad) : List U32 := [q.a, q.b, q.c, q.d]

/-- The bytes of a group. -/
def bytes (q : Quad) : List U8 :=
  groupFlag q.a q.b q.c q.d :: q.vals.flatMap groupBytes

end Quad

/-- The values of a group, put one behind the other. -/
theorem foldlM_groupPut (vs : List U32) :
    ∀ (g : List U8) (n : Nat), n + 4 * vs.length ≤ g.length →
      ∃ g', vs.foldlM groupPut (g, n) =
          .ok (g', n + (vs.flatMap groupBytes).length) ∧
        g'.take (n + (vs.flatMap groupBytes).length) =
          g.take n ++ vs.flatMap groupBytes := by
  induction vs with
  | nil =>
    intro g n _
    exact ⟨g, rfl, by simp⟩
  | cons v vs ih =>
    intro g n hn
    rw [List.length_cons] at hn
    obtain ⟨-, h4, -⟩ := groupLen_spec v
    have hstep : groupPut (g, n) v =
        .ok (splice g n (toLeBytes 4 v), n + groupLen v) := by
      rw [groupPut, guardOk_pos (show n + 4 ≤ g.length by omega),
        ok_bind]
    have hlen : (splice g n (toLeBytes 4 v)).length = g.length :=
      splice_length (by rw [toLeBytes_length]; omega)
    have htake : (splice g n (toLeBytes 4 v)).take (n + groupLen v) =
        g.take n ++ groupBytes v := by
      have hn' : (g.take n).length = n := List.length_take_of_le (by omega)
      rw [splice, List.take_append, List.take_of_length_le (by omega), hn',
        Nat.add_sub_cancel_left, List.take_append_of_le_length
          (by rw [toLeBytes_length]; exact h4), groupBytes]
    obtain ⟨g', hrun, hpre⟩ := ih (splice g n (toLeBytes 4 v))
      (n + groupLen v) (by omega)
    have hsum : n + ((v :: vs).flatMap groupBytes).length =
        n + groupLen v + (vs.flatMap groupBytes).length := by
      rw [List.flatMap_cons, List.length_append, groupBytes_length]
      omega
    refine ⟨g', ?_, ?_⟩
    · rw [List.foldlM_cons, hstep, ok_bind, hrun, hsum]
    · rw [hsum, hpre, htake, List.flatMap_cons, List.append_assoc]

theorem writeGroup_eq (out : List U8) (q : Quad) :
    writeGroup out q.a q.b q.c q.d = .ok (out ++ q.bytes) := by
  obtain ⟨g, hrun, htake⟩ := foldlM_groupPut q.vals
    (groupFlag q.a q.b q.c q.d :: List.replicate 16 0) 1 (by simp [Quad.vals])
  rw [writeGroup, show [q.a, q.b, q.c, q.d] = q.vals from rfl, hrun,
    ok_bind]
  dsimp only
  rw [htake]
  rfl

theorem Quad.bytes_length_le (q : Quad) : q.bytes.length ≤ 17 := by
  have ha := (groupLen_spec q.a).2.1
  have hb := (groupLen_spec q.b).2.1
  have hc := (groupLen_spec q.c).2.1
  have hd := (groupLen_spec q.d).2.1
  simp only [Quad.bytes, Quad.vals, List.flatMap_cons, List.flatMap_nil,
    List.length_cons, List.length_append, groupBytes_length, List.length_nil]
  omega

/-- The flag byte gives the four lengths back. -/
theorem flagLen_groupFlag (a b c d : U32) :
    SliceInput.flagLen (groupFlag a b c d) 0 = groupLen a - 1 ∧
      SliceInput.flagLen (groupFlag a b c d) 1 = groupLen b - 1 ∧
      SliceInput.flagLen (groupFlag a b c d) 2 = groupLen c - 1 ∧
      SliceInput.flagLen (groupFlag a b c d) 3 = groupLen d - 1 := by
  have key : ∀ a b c d : Fin 4,
      let flag := BitVec.ofNat 8 ((a.val <<< 6) ||| (b.val <<< 4) |||
        (c.val <<< 2) ||| d.val)
      SliceInput.flagLen flag 0 = a ∧ SliceInput.flagLen flag 1 = b ∧
        SliceInput.flagLen flag 2 = c ∧ SliceInput.flagLen flag 3 = d := by
    decide +kernel
  have h : ∀ v : U32, groupLen v - 1 < 4 := by
    intro v
    have := (groupLen_spec v).2.1
    omega
  exact key ⟨_, h a⟩ ⟨_, h b⟩ ⟨_, h c⟩ ⟨_, h d⟩

/-! ## The three group readers -/

theorem foldlM_four {σ : Type} {f : σ → Nat → Result σ} {s₀ s₁ s₂ s₃ s₄ : σ}
    (h₀ : f s₀ 0 = .ok s₁) (h₁ : f s₁ 1 = .ok s₂) (h₂ : f s₂ 2 = .ok s₃)
    (h₃ : f s₃ 3 = .ok s₄) : (List.range 4).foldlM f s₀ = .ok s₄ := by
  rw [show List.range 4 = [0, 1, 2, 3] from rfl]
  simp only [List.foldlM_cons, List.foldlM_nil, h₀, h₁, h₂, h₃,
    ok_bind, Outcome.pure_eq]

/-- The values that a group is read as. -/
def Quad.longs (q : Quad) : List U64 := q.vals.map fun v => v.setWidth 64

theorem groupFastPut_eq {bytes more : List U8} {flag : U8} {n j : Nat}
    {v : U32} (dst : List U64)
    (hflag : SliceInput.flagLen flag j = groupLen v - 1)
    (hlen : n + 4 ≤ bytes.length) (h : bytes.drop n = groupBytes v ++ more) :
    SliceInput.groupFastPut bytes flag (n, dst) j =
      .ok (n + groupLen v, dst ++ [v.setWidth 64]) := by
  obtain ⟨h1, h4, -⟩ := groupLen_spec v
  have hword : (groupBytes v ++ more).take 4 =
      groupBytes v ++ more.take (4 - groupLen v) := by
    rw [List.take_append, groupBytes_length,
      List.take_of_length_le (by rw [groupBytes_length]; exact h4)]
  simp only [SliceInput.groupFastPut]
  rw [slice_eq_some (by omega) hlen, Nat.add_sub_cancel_left, h, hword,
    expect_some, ok_bind, hflag, groupBytes_word,
    show n + (groupLen v - 1) + 1 = n + groupLen v by omega]

/-- A group in view. -/
theorem foldlM_groupFastPut (q : Quad) (more : List U8) (dst : List U64)
    (h17 : 17 ≤ (q.bytes ++ more).length) :
    (List.range 4).foldlM (SliceInput.groupFastPut (q.bytes ++ more)
        (groupFlag q.a q.b q.c q.d)) (1, dst) =
      .ok (q.bytes.length, dst ++ q.longs) := by
  obtain ⟨fa, fb, fc, fd⟩ := flagLen_groupFlag q.a q.b q.c q.d
  have ha := (groupLen_spec q.a).2.1
  have hb := (groupLen_spec q.b).2.1
  have hc := (groupLen_spec q.c).2.1
  have h₀ : (q.bytes ++ more).drop 1 = groupBytes q.a ++ (groupBytes q.b ++
      (groupBytes q.c ++ (groupBytes q.d ++ more))) := by
    simp [Quad.bytes, Quad.vals]
  have h₁ := congrArg (List.drop (groupBytes q.a).length) h₀
  rw [List.drop_drop, List.drop_left, groupBytes_length] at h₁
  have h₂ := congrArg (List.drop (groupBytes q.b).length) h₁
  rw [List.drop_drop, List.drop_left, groupBytes_length] at h₂
  have h₃ := congrArg (List.drop (groupBytes q.c).length) h₂
  rw [List.drop_drop, List.drop_left, groupBytes_length] at h₃
  rw [foldlM_four (groupFastPut_eq dst fa (by omega) h₀)
    (groupFastPut_eq _ fb (by omega) h₁) (groupFastPut_eq _ fc (by omega) h₂)
    (groupFastPut_eq _ fd (by omega) h₃)]
  simp only [Quad.bytes, Quad.vals, Quad.longs, List.flatMap_cons,
    List.flatMap_nil, List.length_cons, List.length_append, groupBytes_length,
    List.length_nil, List.map_cons, List.map_nil, List.append_assoc,
    List.cons_append, List.nil_append, Outcome.ok.injEq, Prod.mk.injEq,
    and_true]
  omega

theorem groupSlowPut_eq {inp : SliceInput} {more : List U8} {flag : U8}
    {j : Nat} {v : U32} (dst : List U64)
    (hflag : SliceInput.flagLen flag j = groupLen v - 1)
    (h : inp.rest = groupBytes v ++ more) :
    SliceInput.groupSlowPut flag (dst, inp) j =
      .ok (dst ++ [v.setWidth 64], inp.advance (groupLen v)) := by
  obtain ⟨h1, -, -⟩ := groupLen_spec v
  have hread := SliceInput.readN_append h
  rw [groupBytes_length] at hread
  simp only [SliceInput.groupSlowPut]
  rw [hflag, show groupLen v - 1 + 1 = groupLen v by omega, hread,
    ok_bind, fromLeBytes_groupBytes]

theorem groupPeekPut_eq {inp : SliceInput} {more : List U8} {flag : U8}
    {j : Nat} {v : U32} (dst : List U64)
    (hflag : SliceInput.flagLen flag j = groupLen v - 1)
    (h : inp.rest = groupBytes v ++ more) (hlen : 4 ≤ inp.rest.length) :
    SliceInput.groupPeekPut flag (dst, inp) j =
      .ok (dst ++ [v.setWidth 64], inp.advance (groupLen v)) := by
  obtain ⟨h1, h4, -⟩ := groupLen_spec v
  have hword : inp.rest.take 4 =
      groupBytes v ++ more.take (4 - groupLen v) := by
    rw [h, List.take_append, groupBytes_length,
      List.take_of_length_le (by rw [groupBytes_length]; exact h4)]
  simp only [SliceInput.groupPeekPut, SliceInput.peekU32Le, SliceInput.readLe,
    SliceInput.readN_of_le hlen, ok_bind]
  rw [hflag, show groupLen v - 1 + 1 = groupLen v by omega,
    SliceInput.skip_of_le (by omega), ok_bind, hword,
    groupBytes_word]

/-- The values of a group read off the cursor.  `m` is the number of bytes
that the reader of one value looks at. -/
theorem foldlM_groupValues (q : Quad) (m : Nat) (dst : List U64)
    {f : List U64 × SliceInput → Nat → Result (List U64 × SliceInput)}
    {inp : SliceInput} {tail : List U8} (hlen : m ≤ inp.rest.length - 12)
    (h : inp.rest = q.vals.flatMap groupBytes ++ tail)
    (hf : ∀ (dst : List U64) (inp : SliceInput) (j : Nat) (v : U32)
      (more : List U8),
      SliceInput.flagLen (groupFlag q.a q.b q.c q.d) j = groupLen v - 1 →
      inp.rest = groupBytes v ++ more → m ≤ inp.rest.length →
      f (dst, inp) j = .ok (dst ++ [v.setWidth 64],
        inp.advance (groupLen v))) :
    (List.range 4).foldlM f (dst, inp) = .ok (dst ++ q.longs,
      inp.advance (q.vals.flatMap groupBytes).length) := by
  obtain ⟨fa, fb, fc, fd⟩ := flagLen_groupFlag q.a q.b q.c q.d
  have ha := (groupLen_spec q.a).2.1
  have hb := (groupLen_spec q.b).2.1
  have hc := (groupLen_spec q.c).2.1
  have h₀ : inp.rest = groupBytes q.a ++ (groupBytes q.b ++
      (groupBytes q.c ++ (groupBytes q.d ++ tail))) := by
    simp [h, Quad.vals]
  have h₁ := SliceInput.rest_advance_append h₀
  have h₂ := SliceInput.rest_advance_append h₁
  have h₃ := SliceInput.rest_advance_append h₂
  simp only [groupBytes_length, SliceInput.advance_advance] at h₁ h₂ h₃
  have s₀ := hf dst inp 0 q.a _ fa h₀ (by omega)
  have s₁ := hf (dst ++ [q.a.setWidth 64]) _ 1 q.b _ fb h₁
    (by rw [SliceInput.rest_advance, List.length_drop]; omega)
  have s₂ := hf (dst ++ [q.a.setWidth 64] ++ [q.b.setWidth 64]) _ 2 q.c _ fc
    h₂ (by rw [SliceInput.rest_advance, List.length_drop]; omega)
  have s₃ := hf (dst ++ [q.a.setWidth 64] ++ [q.b.setWidth 64] ++
    [q.c.setWidth 64]) _ 3 q.d _ fd
    h₃ (by rw [SliceInput.rest_advance, List.length_drop]; omega)
  simp only [SliceInput.advance_advance] at s₁ s₂ s₃
  rw [foldlM_four s₀ s₁ s₂ s₃]
  simp [Quad.longs, Quad.vals, groupBytes_length, Nat.add_assoc]

/-- A group that the default reader decodes, on either of its paths. -/
theorem groupDefault_eq (q : Quad) (dst : List U64) {inp : SliceInput}
    {tail : List U8} (h : inp.rest = q.bytes ++ tail) :
    SliceInput.groupDefault dst inp =
      .ok (dst ++ q.longs, inp.advance q.bytes.length) := by
  rw [Quad.bytes, List.cons_append] at h
  have hrest : (inp.advance 1).rest = q.vals.flatMap groupBytes ++ tail := by
    rw [SliceInput.rest_advance, h]
    rfl
  have hadv : (inp.advance 1).advance (q.vals.flatMap groupBytes).length =
      inp.advance q.bytes.length := by
    rw [SliceInput.advance_advance, Quad.bytes, List.length_cons,
      Nat.add_comm]
  simp only [SliceInput.groupDefault, SliceInput.readByte_cons h,
    ok_bind]
  rw [← hadv]
  split
  · rename_i hpeek
    rw [← SliceInput.rest_length] at hpeek
    exact foldlM_groupValues q 4 dst (by omega) hrest
      fun dst inp j v more hflag hr hl => groupPeekPut_eq dst hflag hr hl
  · exact foldlM_groupValues q 0 dst (Nat.zero_le _) hrest
      fun dst inp j v more hflag hr _ => groupSlowPut_eq dst hflag hr

/-- The groups in view are a prefix of the groups. -/
theorem groupsFast_eq (qs : List Quad) (more : List U8) :
    ∀ (inp : SliceInput) (dst : List U64),
      inp.rest = qs.flatMap Quad.bytes ++ more →
      ∃ seen left, qs = seen ++ left ∧
        SliceInput.groupsFast qs.length inp dst =
          .ok (dst ++ seen.flatMap Quad.longs, left.length,
            inp.advance (seen.flatMap Quad.bytes).length) := by
  induction qs with
  | nil =>
    intro inp dst _
    exact ⟨[], [], rfl, by simp [SliceInput.groupsFast]⟩
  | cons q qs ih =>
    intro inp dst h
    rw [List.flatMap_cons, List.append_assoc] at h
    rcases Nat.lt_or_ge inp.buf.length (inp.pos + 17) with hshort | hin
    · refine ⟨[], q :: qs, rfl, ?_⟩
      rw [List.length_cons, SliceInput.groupsFast, slice_eq_none hshort]
      simp
    · have hle := q.bytes_length_le
      have hview : (inp.buf.drop inp.pos).take 17 = q.bytes ++
          (qs.flatMap Quad.bytes ++ more).take (17 - q.bytes.length) := by
        rw [show inp.buf.drop inp.pos = _ from h, List.take_append,
          List.take_of_length_le hle]
      have h17 : ((inp.buf.drop inp.pos).take 17).length = 17 := by
        rw [List.length_take, List.length_drop]
        omega
      rw [hview] at h17
      obtain ⟨seen, left, hsplit, hrun⟩ := ih (inp.advance q.bytes.length)
        (dst ++ q.longs) (SliceInput.rest_advance_append h)
      refine ⟨q :: seen, left, by rw [hsplit]; rfl, ?_⟩
      have hflag : (q.bytes ++ (qs.flatMap Quad.bytes ++ more).take
          (17 - q.bytes.length))[0]? = some (groupFlag q.a q.b q.c q.d) := rfl
      rw [List.length_cons, SliceInput.groupsFast,
        slice_eq_some (by omega) hin, Nat.add_sub_cancel_left, hview]
      simp only [hflag, expect_some, ok_bind,
        foldlM_groupFastPut q _ dst (Nat.le_of_eq h17.symm)]
      rw [hrun, SliceInput.advance_advance, List.flatMap_cons,
        List.flatMap_cons, List.length_append, List.append_assoc]

/-! ## Repeated reads -/

/-- A reader that is called once for every item, and appends what it read. -/
theorem foldlM_range_reads {ι β : Type}
    {f : List β × SliceInput → Nat → Result (List β × SliceInput)}
    (enc : ι → List U8) (val : ι → List β) (items : List ι)
    (hf : ∀ x ∈ items, ∀ (dst : List β) (inp : SliceInput) (tail : List U8)
      (j : Nat), inp.rest = enc x ++ tail →
      f (dst, inp) j = .ok (dst ++ val x, inp.advance (enc x).length))
    (dst : List β) {inp : SliceInput} {tail : List U8}
    (h : inp.rest = items.flatMap enc ++ tail) :
    (List.range items.length).foldlM f (dst, inp) =
      .ok (dst ++ items.flatMap val,
        inp.advance (items.flatMap enc).length) := by
  -- The index of a pass plays no role, so the range may start anywhere.
  suffices hgen : ∀ (n : Nat) (dst : List β) (inp : SliceInput),
      inp.rest = items.flatMap enc ++ tail →
      (List.range' n items.length).foldlM f (dst, inp) =
        .ok (dst ++ items.flatMap val,
          inp.advance (items.flatMap enc).length) by
    rw [List.range_eq_range']
    exact hgen 0 dst inp h
  clear h
  induction items with
  | nil =>
    intro n dst inp _
    simp
  | cons x xs ih =>
    intro n dst inp h
    rw [List.flatMap_cons, List.append_assoc] at h
    have hx := hf x (List.mem_cons_self ..) dst inp _ n h
    have hxs := ih (fun y hy => hf y (List.mem_cons_of_mem x hy)) (n + 1)
      (dst ++ val x) _ (SliceInput.rest_advance_append h)
    rw [List.length_cons, List.range'_succ, List.foldlM_cons, hx,
      ok_bind, hxs, SliceInput.advance_advance, List.flatMap_cons,
      List.flatMap_cons, List.length_append, List.append_assoc]

/-! ## Group varints -/

/-- The bytes of a plain vint. -/
def vintBytes (v : U32) : List U8 := encodeVarint (v.setWidth 64)

theorem writeVint_eq (bmi2 : Bool) (out : List U8) (v : U32) :
    writeVint bmi2 out v = out ++ vintBytes v :=
  pushVarint_eq bmi2 out (v.setWidth 64)

theorem foldl_writeVint (bmi2 : Bool) (vs : List U32) :
    ∀ out, vs.foldl (writeVint bmi2) out = out ++ vs.flatMap vintBytes := by
  induction vs with
  | nil =>
    intro out
    simp
  | cons v vs ih =>
    intro out
    rw [List.foldl_cons, writeVint_eq, ih, List.flatMap_cons,
      List.append_assoc]

/-- Whole groups and fewer than four values. -/
theorem exists_quads : ∀ vs : List U32, ∃ (qs : List Quad) (rest : List U32),
    vs = qs.flatMap Quad.vals ++ rest ∧ rest.length < 4
  | a :: b :: c :: d :: vs => by
    obtain ⟨qs, rest, h, hlt⟩ := exists_quads vs
    exact ⟨⟨a, b, c, d⟩ :: qs, rest, by simp [h, Quad.vals], hlt⟩
  | [] => ⟨[], [], rfl, by simp⟩
  | [a] => ⟨[], [a], rfl, by simp⟩
  | [a, b] => ⟨[], [a, b], rfl, by simp⟩
  | [a, b, c] => ⟨[], [a, b, c], rfl, by simp⟩

theorem writeGroupVints_eq (bmi2 : Bool) (qs : List Quad) {rest : List U32}
    (hlt : rest.length < 4) :
    ∀ out, writeGroupVints bmi2 out (qs.flatMap Quad.vals ++ rest) =
      .ok (out ++ (qs.flatMap Quad.bytes ++ rest.flatMap vintBytes)) := by
  induction qs with
  | nil =>
    intro out
    rw [List.flatMap_nil, List.nil_append, writeGroupVints, foldl_writeVint]
    · rfl
    · rintro a b c d tail rfl
      simp at hlt
      omega
  | cons q qs ih =>
    intro out
    rw [List.flatMap_cons, List.append_assoc]
    show (writeGroup out q.a q.b q.c q.d >>= fun out =>
      writeGroupVints bmi2 out (qs.flatMap Quad.vals ++ rest)) = _
    rw [writeGroup_eq, ok_bind, ih, List.flatMap_cons]
    simp only [List.append_assoc]

/-- The tail of a group varint sequence, one vint per value. -/
theorem groupVintsDefault_eq (qs : List Quad) {rest : List U32}
    (hlt : rest.length < 4) (dst : List U64) {inp : SliceInput}
    {tail : List U8}
    (h : inp.rest = qs.flatMap Quad.bytes ++ (rest.flatMap vintBytes ++ tail)) :
    SliceInput.groupVintsDefault (4 * qs.length + rest.length) dst inp =
      .ok (dst ++ qs.flatMap Quad.longs ++ rest.map fun v => v.setWidth 64,
        inp.advance ((qs.flatMap Quad.bytes).length +
          (rest.flatMap vintBytes).length)) := by
  have hgroups := foldlM_range_reads
    (f := fun s _ => SliceInput.groupDefault s.1 s.2) Quad.bytes Quad.longs qs
    (fun q _ dst inp tail _ hr => groupDefault_eq q dst hr) dst h
  have hrest := foldlM_range_reads (f := SliceInput.groupTail) vintBytes
    (fun v => [v.setWidth 64]) rest
    (fun v _ dst inp tail _ hr => by
      simp only [SliceInput.groupTail, reads_readVint v inp tail hr,
        ok_bind]
      rfl)
    (dst ++ qs.flatMap Quad.longs) (SliceInput.rest_advance_append h)
  simp only [SliceInput.groupVintsDefault]
  rw [show (4 * qs.length + rest.length) / 4 = qs.length by omega,
    show (4 * qs.length + rest.length) % 4 = rest.length by omega, hgroups,
    ok_bind]
  dsimp only
  rw [hrest, SliceInput.advance_advance, List.map_eq_flatMap]

theorem reads_readGroupVints (qs : List Quad) {rest : List U32}
    (hlt : rest.length < 4) :
    Reads (SliceInput.readGroupVints (qs.flatMap Quad.vals ++ rest).length)
      (qs.flatMap Quad.bytes ++ rest.flatMap vintBytes)
      ((qs.flatMap Quad.vals ++ rest).map fun v => v.setWidth 64) := by
  have hcount : (qs.flatMap Quad.vals ++ rest).length =
      4 * qs.length + rest.length := by
    have : (qs.flatMap Quad.vals).length = 4 * qs.length := by
      induction qs with
      | nil => rfl
      | cons q qs ih =>
        rw [List.flatMap_cons, List.length_append, ih, List.length_cons]
        simp only [Quad.vals, List.length_cons, List.length_nil]
        omega
    rw [List.length_append, this]
  have hvals : ∀ qs : List Quad, qs.flatMap Quad.longs =
      (qs.flatMap Quad.vals).map fun v => v.setWidth 64 := by
    intro qs
    rw [List.map_flatMap]
    rfl
  intro inp tail h
  rw [List.append_assoc] at h
  obtain ⟨seen, left, rfl, hfast⟩ := groupsFast_eq qs _ inp [] h
  rw [List.flatMap_append, List.append_assoc] at h
  have hslow := groupVintsDefault_eq left hlt (seen.flatMap Quad.longs)
    (SliceInput.rest_advance_append h)
  simp only [SliceInput.readGroupVints]
  rw [hcount, show (4 * (seen ++ left).length + rest.length) / 4 =
      (seen ++ left).length by omega, hfast, ok_bind]
  dsimp only
  rw [show (4 * (seen ++ left).length + rest.length) % 4 = rest.length by
      omega, List.nil_append, hslow, SliceInput.advance_advance]
  simp only [hvals, List.flatMap_append, List.map_append, List.length_append,
    Nat.add_assoc]

/-! ## Strings -/

theorem fromUtf8_utf8Bytes (s : String) :
    SliceInput.fromUtf8 (utf8Bytes s) = some s := by
  have hbytes : (⟨((utf8Bytes s).map UInt8.ofBitVec).toArray⟩ : ByteArray) =
      s.toByteArray := by
    rw [utf8Bytes, List.map_map]
    have hid : UInt8.ofBitVec ∘ UInt8.toBitVec = id := rfl
    rw [hid, List.map_id, Array.toArray_toList]
  rw [SliceInput.fromUtf8, hbytes, String.fromUTF8?,
    dif_pos s.isValidUTF8]
  rfl

/-- The bytes of a length. -/
def lengthBytes (n : Nat) : List U8 := vintBytes (BitVec.ofNat 32 n)

/-- `read_length` of a length that the rest of the input can hold. -/
theorem readLength_eq {n : Nat} (hn : n < 2 ^ 31) (what : String)
    {inp : SliceInput} {tail : List U8}
    (h : inp.rest = lengthBytes n ++ tail) (htail : n ≤ tail.length) :
    inp.readLength what = .ok (n, inp.advance (lengthBytes n).length) := by
  have hread := reads_readVint (BitVec.ofNat 32 n) inp tail h
  have hrem : (inp.advance (lengthBytes n).length).remaining = tail.length := by
    rw [← SliceInput.rest_length, SliceInput.rest_advance_append h]
  have hint : (BitVec.ofNat 32 n).toInt = n := by
    rw [BitVec.toInt_eq_toNat_of_lt (by rw [BitVec.toNat_ofNat]; omega),
      BitVec.toNat_ofNat, Nat.mod_eq_of_lt (by omega)]
  simp only [SliceInput.readLength]
  rw [hread, ok_bind]
  dsimp only
  rw [hint, if_neg (by omega)]
  show (if (inp.advance (lengthBytes n).length).remaining < n then _ else _) = _
  rw [hrem, if_neg (by omega)]
  rfl

/-- The bytes of a string. -/
def stringBytes (s : String) : List U8 :=
  lengthBytes (utf8Bytes s).length ++ utf8Bytes s

theorem writeString_eq (bmi2 : Bool) (out : List U8) (s : String) :
    writeString bmi2 out s = out ++ stringBytes s := by
  rw [writeString, writeVint_eq, writeBytes, stringBytes, lengthBytes,
    List.append_assoc]

theorem reads_readString {s : String} (hs : (utf8Bytes s).length < 2 ^ 31) :
    Reads SliceInput.readString (stringBytes s) s := by
  intro inp tail h
  rw [stringBytes, List.append_assoc] at h
  have hrest := SliceInput.rest_advance_append h
  have hin := congrArg List.length hrest
  rw [SliceInput.rest_length, SliceInput.remaining, List.length_append] at hin
  have hview := readLength_eq hs "string" h (by simp)
  have hpos := (inp.advance
    (lengthBytes (utf8Bytes s).length).length).pos_le
  simp only [SliceInput.readString, hview, ok_bind]
  rw [slice_eq_some (by omega) (by omega), Nat.add_sub_cancel_left]
  rw [SliceInput.rest] at hrest
  rw [hrest, List.take_left, expect_some, ok_bind,
    fromUtf8_utf8Bytes]
  dsimp only
  rw [SliceInput.advance_advance, stringBytes, List.length_append]

theorem encodeVarint_length_pos (v : U64) : 0 < (encodeVarint v).length := by
  rcases encodeVarint_cases v with ⟨-, h, -⟩ | ⟨-, h⟩
  · simp [h]
  · simp [h]

theorem stringBytes_length_pos (s : String) : 0 < (stringBytes s).length := by
  have := encodeVarint_length_pos
    ((BitVec.ofNat 32 (utf8Bytes s).length).setWidth 64)
  rw [stringBytes, List.length_append, lengthBytes, vintBytes]
  omega

theorem length_le_flatMap {ι : Type} {enc : ι → List U8}
    (hpos : ∀ x, 0 < (enc x).length) (items : List ι) :
    items.length ≤ (items.flatMap enc).length := by
  induction items with
  | nil => simp
  | cons x xs ih =>
    have := hpos x
    rw [List.flatMap_cons, List.length_append, List.length_cons]
    omega

/-- The bytes of a key and its value. -/
def pairBytes (kv : String × String) : List U8 :=
  stringBytes kv.1 ++ stringBytes kv.2

theorem writeMapOfStrings_eq (bmi2 : Bool) (out : List U8)
    (map : List (String × String)) :
    writeMapOfStrings bmi2 out map =
      out ++ (lengthBytes map.length ++ map.flatMap pairBytes) := by
  have hloop : ∀ (map : List (String × String)) (out : List U8),
      map.foldl (fun out kv => writeString bmi2
        (writeString bmi2 out kv.1) kv.2) out = out ++ map.flatMap pairBytes := by
    intro map
    induction map with
    | nil =>
      intro out
      simp
    | cons kv map ih =>
      intro out
      rw [List.foldl_cons, ih, writeString_eq, writeString_eq,
        List.flatMap_cons, pairBytes]
      simp only [List.append_assoc]
  rw [writeMapOfStrings, hloop, writeVint_eq, lengthBytes, List.append_assoc]

/-- The loop of `readMapOfStrings`. -/
theorem foldlM_readPairs {map : List (String × String)}
    (hmap : ∀ kv ∈ map, (utf8Bytes kv.1).length < 2 ^ 31 ∧ (utf8Bytes kv.2).length < 2 ^ 31)
    {inp : SliceInput} {tail : List U8} (h : inp.rest = map.flatMap pairBytes ++ tail) :
    (List.range map.length).foldlM (fun (s : List (String × String) × SliceInput) _ => do
        let (k, inp) ← s.2.readString
        let (v, inp) ← inp.readString
        .ok (s.1 ++ [(k, v)], inp)) ([], inp) =
      (.ok (map, inp.advance (map.flatMap pairBytes).length) :
        Result (List (String × String) × SliceInput)) := by
  rw [foldlM_range_reads pairBytes (fun kv => [kv]) map
    (fun kv hkv dst inp tail j hr => by
      obtain ⟨hk, hv⟩ := hmap kv hkv
      rw [pairBytes, List.append_assoc] at hr
      simp only [reads_readString hk _ _ hr, ok_bind,
        reads_readString hv _ _ (SliceInput.rest_advance_append hr),
        SliceInput.advance_advance, pairBytes, List.length_append])
    [] h, List.flatMap_singleton', List.nil_append]

theorem reads_readMapOfStrings {map : List (String × String)}
    (hlen : map.length < 2 ^ 31)
    (hmap : ∀ kv ∈ map, (utf8Bytes kv.1).length < 2 ^ 31 ∧
      (utf8Bytes kv.2).length < 2 ^ 31) :
    Reads SliceInput.readMapOfStrings
      (lengthBytes map.length ++ map.flatMap pairBytes) map := by
  intro inp tail h
  rw [List.append_assoc] at h
  have hpos : ∀ kv : String × String, 0 < (pairBytes kv).length := by
    intro kv
    have := stringBytes_length_pos kv.1
    rw [pairBytes, List.length_append]
    omega
  have hcount := length_le_flatMap hpos map
  have hloop := foldlM_readPairs hmap (SliceInput.rest_advance_append h)
  simp only [SliceInput.readMapOfStrings]
  rw [readLength_eq hlen _ h (by rw [List.length_append]; omega),
    ok_bind]
  dsimp only
  rw [hloop, SliceInput.advance_advance, List.length_append]

theorem writeSetOfStrings_eq (bmi2 : Bool) (out : List U8)
    (set : List String) :
    writeSetOfStrings bmi2 out set =
      out ++ (lengthBytes set.length ++ set.flatMap stringBytes) := by
  have hloop : ∀ (set : List String) (out : List U8),
      set.foldl (writeString bmi2) out = out ++ set.flatMap stringBytes := by
    intro set
    induction set with
    | nil =>
      intro out
      simp
    | cons s set ih =>
      intro out
      rw [List.foldl_cons, ih, writeString_eq, List.flatMap_cons,
        List.append_assoc]
  rw [writeSetOfStrings, hloop, writeVint_eq, lengthBytes, List.append_assoc]

theorem reads_readSetOfStrings {set : List String}
    (hlen : set.length < 2 ^ 31)
    (hset : ∀ s ∈ set, (utf8Bytes s).length < 2 ^ 31) :
    Reads SliceInput.readSetOfStrings
      (lengthBytes set.length ++ set.flatMap stringBytes) set := by
  intro inp tail h
  rw [List.append_assoc] at h
  have hcount := length_le_flatMap stringBytes_length_pos set
  have hloop := foldlM_range_reads stringBytes (fun s => [s]) set
    (f := fun s _ => do
      let (k, inp) ← s.2.readString
      .ok (s.1 ++ [k], inp))
    (fun s hs dst inp tail j hr => by
      simp only [reads_readString (hset s hs) _ _ hr, ok_bind])
    [] (SliceInput.rest_advance_append h)
  simp only [SliceInput.readSetOfStrings]
  rw [readLength_eq hlen _ h (by rw [List.length_append]; omega),
    ok_bind]
  dsimp only
  rw [hloop, SliceInput.advance_advance, List.length_append,
    List.flatMap_singleton', List.nil_append]

/-! ## A sequence of writes -/

/-- One call of a writer with its argument.  A group varint is written from
`u32` values and read as longs, so the type of its values is a parameter. -/
inductive Value (γ : Type) where
  | byte (b : U8)
  | bytes (bs : List U8)
  | vint (v : U32)
  | vlong (v : U64)
  | zint (v : U32)
  | zlong (v : U64)
  | groupVints (vs : List γ)
  | beU32 (v : U32)
  | beU64 (v : U64)
  | i16 (v : U16)
  | i32 (v : U32)
  | i64 (v : U64)
  | string (s : String)
  | mapOfStrings (map : List (String × String))
  | setOfStrings (set : List String)
  deriving DecidableEq

/-- One call of a reader: the primitive, and the length of the buffer that
the caller passes where there is one. -/
inductive Kind where
  | byte
  | bytes (n : Nat)
  | vint
  | vlong
  | zint
  | zlong
  | groupVints (limit : Nat)
  | beU32
  | beU64
  | i16
  | i32
  | i64
  | string
  | mapOfStrings
  | setOfStrings

namespace Value

/-- The reader that goes with a writer. -/
def kind {γ : Type} : Value γ → Kind
  | byte _ => .byte
  | bytes bs => .bytes bs.length
  | vint _ => .vint
  | vlong _ => .vlong
  | zint _ => .zint
  | zlong _ => .zlong
  | groupVints vs => .groupVints vs.length
  | beU32 _ => .beU32
  | beU64 _ => .beU64
  | i16 _ => .i16
  | i32 _ => .i32
  | i64 _ => .i64
  | string _ => .string
  | mapOfStrings _ => .mapOfStrings
  | setOfStrings _ => .setOfStrings

/-- The value as its reader returns it: the values of a group, as longs. -/
def asRead : Value U32 → Value U64
  | byte b => .byte b
  | bytes bs => .bytes bs
  | vint v => .vint v
  | vlong v => .vlong v
  | zint v => .zint v
  | zlong v => .zlong v
  | groupVints vs => .groupVints (vs.map fun v => v.setWidth 64)
  | beU32 v => .beU32 v
  | beU64 v => .beU64 v
  | i16 v => .i16 v
  | i32 v => .i32 v
  | i64 v => .i64 v
  | string s => .string s
  | mapOfStrings map => .mapOfStrings map
  | setOfStrings set => .setOfStrings set

/-- What a caller of the writer has to respect. -/
def Fits : Value U32 → Prop
  | vlong v => 0 ≤ v.toInt
  | string s => (utf8Bytes s).length < 2 ^ 31
  | mapOfStrings map => map.length < 2 ^ 31 ∧
      ∀ kv ∈ map, (utf8Bytes kv.1).length < 2 ^ 31 ∧
        (utf8Bytes kv.2).length < 2 ^ 31
  | setOfStrings set => set.length < 2 ^ 31 ∧
      ∀ s ∈ set, (utf8Bytes s).length < 2 ^ 31
  | _ => True

/-- One write. -/
def write (bmi2 : Bool) (out : List U8) : Value U32 → Result (List U8)
  | byte b => .ok (writeByte out b)
  | bytes bs => .ok (writeBytes out bs)
  | vint v => .ok (writeVint bmi2 out v)
  | vlong v => writeVlong bmi2 out v
  | zint v => .ok (writeZint bmi2 out v)
  | zlong v => .ok (writeZlong bmi2 out v)
  | groupVints vs => writeGroupVints bmi2 out vs
  | beU32 v => .ok (writeBeU32 out v)
  | beU64 v => .ok (writeBeU64 out v)
  | i16 v => .ok (writeI16 out v)
  | i32 v => .ok (writeI32 out v)
  | i64 v => .ok (writeI64 out v)
  | string s => .ok (writeString bmi2 out s)
  | mapOfStrings map => .ok (writeMapOfStrings bmi2 out map)
  | setOfStrings set => .ok (writeSetOfStrings bmi2 out set)

end Value

/-- A reader whose result is wrapped. -/
def readAs {α : Type} (c : α → Value U64)
    (rd : SliceInput → Result (α × SliceInput)) (inp : SliceInput) :
    Result (Value U64 × SliceInput) :=
  rd inp >>= fun x => .ok (c x.1, x.2)

/-- One read. -/
def Kind.read : Kind → SliceInput → Result (Value U64 × SliceInput)
  | byte => readAs .byte SliceInput.readByte
  | bytes n => readAs .bytes fun inp => inp.readN n
  | vint => readAs .vint SliceInput.readVint
  | vlong => readAs .vlong SliceInput.readVlong
  | zint => readAs .zint SliceInput.readZint
  | zlong => readAs .zlong SliceInput.readZlong
  | groupVints limit => readAs .groupVints (SliceInput.readGroupVints limit)
  | beU32 => readAs .beU32 SliceInput.readBeU32
  | beU64 => readAs .beU64 SliceInput.readBeU64
  | i16 => readAs .i16 SliceInput.readI16
  | i32 => readAs .i32 SliceInput.readI32
  | i64 => readAs .i64 SliceInput.readI64
  | string => readAs .string SliceInput.readString
  | mapOfStrings => readAs .mapOfStrings SliceInput.readMapOfStrings
  | setOfStrings => readAs .setOfStrings SliceInput.readSetOfStrings

/-- A sequence of writes on one `Vec<u8>`. -/
def writeAll (bmi2 : Bool) (out : List U8) (vals : List (Value U32)) :
    Result (List U8) :=
  vals.foldlM (Value.write bmi2) out

/-- A sequence of reads on one `SliceInput`. -/
def readAll : List Kind → SliceInput → Result (List (Value U64) × SliceInput)
  | [], inp => .ok ([], inp)
  | k :: ks, inp => do
    let (v, inp) ← k.read inp
    let (vs, inp) ← readAll ks inp
    .ok (v :: vs, inp)

theorem Reads.wrap {α : Type} {rd : SliceInput → Result (α × SliceInput)}
    {bs : List U8} {a : α} (h : Reads rd bs a) (c : α → Value U64) :
    Reads (readAs c rd) bs (c a) := h.map c

/-- One write appends bytes that the counterpart reads as the value. -/
theorem Value.write_reads (bmi2 : Bool) {v : Value U32} (hv : v.Fits) :
    ∃ bs, (∀ out, v.write bmi2 out = .ok (out ++ bs)) ∧
      Reads v.kind.read bs v.asRead := by
  cases v with
  | byte b => exact ⟨[b], fun out => rfl, (Reads.readByte b).wrap .byte⟩
  | bytes bs => exact ⟨bs, fun out => rfl, (Reads.readN bs).wrap .bytes⟩
  | vint v =>
    refine ⟨vintBytes v, fun out => ?_, (reads_readVint v).wrap .vint⟩
    rw [write, writeVint_eq]
  | vlong v =>
    refine ⟨encodeVarint v, fun out => ?_, (reads_readVlong v).wrap .vlong⟩
    rw [write, writeVlong, guardOk_pos (show 0 ≤ v.toInt from hv), ok_bind,
      writeVlongRawU64, pushVarint_eq]
  | zint v =>
    refine ⟨vintBytes (zigzagEncode v), fun out => ?_,
      (reads_readZint v).wrap .zint⟩
    rw [write, writeZint, writeVint_eq]
  | zlong v =>
    refine ⟨encodeVarint (zigzagEncode v), fun out => ?_,
      (reads_readZlong v).wrap .zlong⟩
    rw [write, writeZlong, writeVlongRawU64, pushVarint_eq]
  | groupVints vs =>
    obtain ⟨qs, rest, rfl, hlt⟩ := exists_quads vs
    exact ⟨_, writeGroupVints_eq bmi2 qs hlt,
      (reads_readGroupVints qs hlt).wrap .groupVints⟩
  | beU32 v => exact ⟨_, fun out => rfl, (reads_readBeU32 v).wrap .beU32⟩
  | beU64 v => exact ⟨_, fun out => rfl, (reads_readBeU64 v).wrap .beU64⟩
  | i16 v =>
    exact ⟨_, fun out => rfl, (reads_readLe (n := 2) v (by decide)).wrap .i16⟩
  | i32 v =>
    exact ⟨_, fun out => rfl, (reads_readLe (n := 4) v (by decide)).wrap .i32⟩
  | i64 v =>
    exact ⟨_, fun out => rfl, (reads_readLe (n := 8) v (by decide)).wrap .i64⟩
  | string s =>
    refine ⟨stringBytes s, fun out => ?_, (reads_readString hv).wrap .string⟩
    rw [write, writeString_eq]
  | mapOfStrings map =>
    refine ⟨_, fun out => ?_,
      (reads_readMapOfStrings hv.1 hv.2).wrap .mapOfStrings⟩
    rw [write, writeMapOfStrings_eq]
  | setOfStrings set =>
    refine ⟨_, fun out => ?_,
      (reads_readSetOfStrings hv.1 hv.2).wrap .setOfStrings⟩
    rw [write, writeSetOfStrings_eq]

/-- A sequence of writes appends bytes that the counterparts read back. -/
theorem writeAll_reads (bmi2 : Bool) (vals : List (Value U32))
    (hfit : ∀ v ∈ vals, v.Fits) :
    ∃ bs, (∀ out, writeAll bmi2 out vals = .ok (out ++ bs)) ∧
      Reads (readAll (vals.map Value.kind)) bs (vals.map Value.asRead) := by
  induction vals with
  | nil =>
    refine ⟨[], fun out => by simp [writeAll], ?_⟩
    intro inp tail _
    simp [readAll]
  | cons v vals ih =>
    obtain ⟨bs, hwrite, hread⟩ := v.write_reads bmi2
      (hfit v (List.mem_cons_self ..))
    obtain ⟨cs, hwrites, hreads⟩ := ih
      fun u hu => hfit u (List.mem_cons_of_mem v hu)
    refine ⟨bs ++ cs, fun out => ?_, ?_⟩
    · rw [writeAll, List.foldlM_cons, hwrite, ok_bind, ← writeAll,
        hwrites, List.append_assoc]
    · exact hread.bind (g := fun x inp =>
        readAll (vals.map Value.kind) inp >>= fun xs => .ok (x :: xs.1, xs.2))
        (hreads.map fun xs => v.asRead :: xs)

/-- Every `DataOutput` primitive is undone by its `DataInput` counterpart,
and the two varint encoders agree. -/
theorem readAll_writeAll (bmi2 : Bool) (vals : List (Value U32))
    (hfit : ∀ v ∈ vals, v.Fits) :
    (∃ buf inp, writeAll bmi2 [] vals = .ok buf ∧
      readAll (vals.map Value.kind) (SliceInput.new buf) =
        .ok (vals.map Value.asRead, inp) ∧
      inp.buf = buf ∧ inp.pos = buf.length) ∧
      ∀ (out : List U8) (v : U64),
        pushVarint bmi2 out v = out ++ encodeVarint v := by
  refine ⟨?_, pushVarint_eq bmi2⟩
  obtain ⟨bs, hwrite, hread⟩ := writeAll_reads bmi2 vals hfit
  have hrest : (SliceInput.new bs).rest = bs ++ [] := by simp
  refine ⟨bs, _, hwrite [], hread _ [] hrest, rfl, ?_⟩
  rw [SliceInput.pos_advance (by rw [hrest, List.append_nil])]
  exact Nat.zero_add _

theorem readAll_writeAll_mixed :
    let vals : List (Value U32) :=
      [.vint 0xFFFFFFFF, .vlong 300, .zlong 0x8000000000000000,
        .groupVints [1, 256, 65536, 0, 7], .string "né", .mapOfStrings [("", "v")]]
    (∀ v ∈ vals, v.Fits) ∧
      ∃ buf inp, writeAll true [] vals = .ok buf ∧
        readAll (vals.map Value.kind) (SliceInput.new buf) =
          .ok (vals.map Value.asRead, inp) ∧
        inp.buf = buf ∧ inp.pos = buf.length := by
  intro vals
  have hfit : ∀ v ∈ vals, v.Fits := by
    simp only [vals, List.forall_mem_cons, Value.Fits]
    refine ⟨trivial, by decide, trivial, trivial, by decide, ?_, by simp⟩
    decide
  exact ⟨hfit, (readAll_writeAll true vals hfit).1⟩

end LuceneRust.Store
