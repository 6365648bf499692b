import LuceneRust.Codecs.DirectMonotonic
import LuceneRust.Store.RoundTrip
import Mathlib.Data.List.Forall2

/-!
# The three readers of a monotonic sequence agree

`deltaAt` says what the delta at an index of a block is: the packed value,
or the error of the checked reader.  Each reader chooses between a load of
eight bytes and that checked reader, and each of them computes `deltaAt`
(`blockDelta_eq`, `resolve_get`, `fillRun_eq`).

The round trip then needs `deltaAt` only: the writer's deltas are packed
where the block's header says, and adding the line back undoes the
subtraction, whatever the line is.
-/

namespace LuceneRust.Codecs.DirectMonotonic

open RustSem BitStream
open Store (Result Error SliceInput Reads)
open DirectReader (isSupportedBits unsignedBitsRequired paddingBytesNeeded)
open Util (PackedLongs)

/-! ## An index and its block -/

theorem toNat_blockMask {s : Nat} (hs : s ≤ maxBlockShift) :
    (blockMask s).toNat = 2 ^ s - 1 := by
  have hlt : 2 ^ s < 2 ^ 64 :=
    Nat.pow_lt_pow_right (by decide) (by unfold maxBlockShift at hs; omega)
  have hpos : 0 < 2 ^ s := Nat.two_pow_pos s
  have hone : (1#64).toNat = 1 := rfl
  rw [blockMask, BitVec.toNat_sub, BitVec.toNat_shiftLeft, Nat.shiftLeft_eq,
    hone, Nat.one_mul]
  omega

theorem toNat_and_blockMask {s : Nat} (hs : s ≤ maxBlockShift) (index : U64) :
    (index &&& blockMask s).toNat = index.toNat % 2 ^ s := by
  rw [BitVec.toNat_and, toNat_blockMask hs, Nat.and_two_pow_sub_one_eq_mod]

theorem two_pow_le {s : Nat} (hs : s ≤ maxBlockShift) : 2 ^ s ≤ 2 ^ 22 :=
  Nat.pow_le_pow_right (by decide) hs

/-- A negative index lands on no block. -/
theorem blocks_neg (m : Meta) {index : U64} (h : 2 ^ 63 ≤ index.toNat) :
    m.blocks[(index.sshiftRight m.blockShift).toNat]? = none := by
  have hle := m.blocks_le
  have hneg := sshiftRight_neg h m.blockShift
  exact List.getElem?_eq_none (by omega)

/-! ## The delta of a block -/

/-- The delta at index `k` of a block. -/
def deltaAt (data : List U8) (block : Block) (k : Nat) : Result U64 :=
  if block.bpv = 0#8 then .ok 0#64
  else
    match (tryUsize block.offset).bind fun o => sliceFrom data o with
    | none => .err (.eof 0)
    | some slice => DirectReader.get slice block.bpv (BitVec.ofNat 64 k)

/-- The deltas of a block with a width. -/
theorem deltaAt_packed {data slice : List U8} {block : Block}
    (hbpv : block.bpv ≠ 0#8)
    (hslice : (tryUsize block.offset).bind (fun o => sliceFrom data o) =
      some slice) (k : Nat) :
    deltaAt data block k =
      DirectReader.get slice block.bpv (BitVec.ofNat 64 k) := by
  rw [deltaAt, if_neg hbpv, hslice]

theorem supported_of_ne {block : Block} (h : block.bpv ≠ 0#8) :
    isSupportedBits block.bpv = true := block.bpv_ok.resolve_left h

/-- An index in a block does not overflow the bit position. -/
theorem bitPos_eq {b : U8} (hb : b.toNat ≤ 64) {k : Nat} (hk : k < 2 ^ 22) :
    DirectReader.bitPos b (BitVec.ofNat 64 k) = k * b.toNat := by
  have hmul : k * b.toNat ≤ 2 ^ 22 * 64 := Nat.mul_le_mul (by omega) hb
  rw [DirectReader.bitPos, BitVec.toNat_mul, BitVec.toNat_ofNat,
    BitVec.toNat_setWidth_of_le (by decide),
    Nat.mod_eq_of_lt (show k < 2 ^ 64 by omega),
    Nat.mod_eq_of_lt (by omega)]

/-- The checked reader where a whole window is in the slice. -/
theorem directGet_window {slice : List U8} {b : U8}
    (h : isSupportedBits b = true) {k : Nat} (hk : k < 2 ^ 22)
    (hlen : k * b.toNat / 8 + 8 ≤ slice.length) :
    DirectReader.get slice b (BitVec.ofNat 64 k) =
      .ok (field slice (k * b.toNat) b.toNat) := by
  obtain ⟨-, h64, -⟩ := DirectReader.supported_width h
  have hfit := DirectReader.shift_fits h (BitVec.ofNat 64 k)
  have hneed : DirectReader.bytesNeeded b (BitVec.ofNat 64 k) ≤ 8 := by
    rw [DirectReader.bytesNeeded]
    omega
  rw [DirectReader.get_eq h, bitPos_eq h64 hk, if_pos (by omega)]

theorem allOnes_isMask {w : Nat} (h : w ≤ 64) :
    IsMask (BitVec.allOnes 64 >>> (64 - w)) w := by
  intro j hj
  rw [BitVec.getLsbD_ushiftRight, BitVec.getLsbD_allOnes]
  by_cases hw : j < w
  · simp [hw, show 64 - w + j < 64 by omega]
  · simp [hw, show ¬ 64 - w + j < 64 by omega]

/-- `fast_packed_get` answers only with a whole window in view. -/
theorem fastPackedGet_some {data : List U8} {offset : U64} {b : U8} {k : Nat}
    {v : U64} (hk : k < 2 ^ 22)
    (h : fastPackedGet data offset b (BitVec.ofNat 64 k) = some v) :
    isSupportedBits b = true ∧ ∃ slice,
      (tryUsize offset).bind (fun o => sliceFrom data o) = some slice ∧
        k * b.toNat / 8 + 8 ≤ slice.length ∧
        v = field slice (k * b.toNat) b.toNat := by
  have hknat : (BitVec.ofNat 64 k).toNat = k := by
    rw [BitVec.toNat_ofNat, Nat.mod_eq_of_lt (by omega)]
  have hktry : tryUsize (BitVec.ofNat 64 k) = some k := by
    rw [tryUsize, if_pos ((nonneg_iff _).2 (by omega)), hknat]
  unfold fastPackedGet at h
  cases hb : isSupportedBits b with
  | false => simp [hb] at h
  | true =>
    obtain ⟨hpos, h64, -⟩ := DirectReader.supported_width hb
    have hfit := DirectReader.shift_fits hb (BitVec.ofNat 64 k)
    rw [bitPos_eq h64 hk] at hfit
    have hmul : k * b.toNat ≤ 2 ^ 22 * 64 := Nat.mul_le_mul (by omega) h64
    simp only [hb, Bool.not_true, Bool.false_eq_true, if_false, hktry,
      Option.bind_eq_bind, Option.bind_some,
      if_pos (show k * b.toNat < 2 ^ 64 by omega),
      if_pos (show 64 - b.toNat < 64 by omega), Option.bind_eq_some_iff] at h
    obtain ⟨o, ho, byte, hbyte, limit, hlimit, window, hwindow, hv⟩ := h
    have hbyte' := checkedAdd_eq_some hbyte
    have hlimit' := checkedAdd_eq_some hlimit
    subst hbyte' hlimit'
    have hin : o + k * b.toNat / 8 + 8 ≤ data.length := by
      by_contra hout
      rw [slice_eq_none (by omega)] at hwindow
      cases hwindow
    rw [slice_eq_some (by omega) hin, Nat.add_sub_cancel_left,
      Option.some.injEq] at hwindow
    refine ⟨rfl, data.drop o, ?_, ?_, ?_⟩
    · rw [ho, Option.bind_some, sliceFrom, if_pos (by omega)]
    · rw [List.length_drop]
      omega
    · rw [← Option.some.inj hv, ← hwindow,
        window_eq_field (allOnes_isMask h64) hfit (by omega), field_drop]
      congr 1
      omega

/-- The bytes from an offset, seen through both casts of the source. -/
theorem sliceFrom_offset {data : List U8} (hdata : data.length < 2 ^ 63)
    (offset : U64) :
    (tryUsize offset).bind (fun o => sliceFrom data o) =
      sliceFrom data offset.toNat := by
  unfold tryUsize
  by_cases h : 0 ≤ offset.toInt
  · rw [if_pos h, Option.bind_some]
  · rw [nonneg_iff] at h
    rw [if_neg (mt (nonneg_iff offset).1 h), Option.bind_none, sliceFrom,
      if_neg (by omega)]

/-- `get` computes the delta of the block. -/
theorem blockDelta_eq {data : List U8} (hdata : data.length < 2 ^ 63)
    (block : Block) {k : Nat} (hk : k < 2 ^ 22) :
    blockDelta data block (BitVec.ofNat 64 k) = deltaAt data block k := by
  by_cases hbpv : block.bpv = 0#8
  · rw [blockDelta, deltaAt, if_pos hbpv, if_pos hbpv]
  · rw [blockDelta, if_neg hbpv]
    cases hfast : fastPackedGet data block.offset block.bpv
        (BitVec.ofNat 64 k) with
    | none =>
      have hslice := sliceFrom_offset hdata block.offset
      rw [deltaAt, if_neg hbpv]
      cases h : sliceFrom data block.offset.toNat with
      | none => rw [hslice, h]
      | some slice => rw [hslice, h]
    | some v =>
      obtain ⟨hb, slice, hslice, hlen, hv⟩ := fastPackedGet_some hk hfast
      rw [deltaAt_packed hbpv hslice, directGet_window hb hk hlen, hv]

/-- A resolved block reads the slice at its offset. -/
theorem resolve_some {data : List U8} {block : Block} {p : PackedLongs}
    (h : resolve data block = some p) :
    (tryUsize block.offset).bind (fun o => sliceFrom data o) = some p.bytes ∧
      p.bits = block.bpv.toNat := by
  unfold resolve at h
  simp only [Option.bind_eq_bind, Option.bind_eq_some_iff] at h
  obtain ⟨o, ho, slice, hslice, hnew⟩ := h
  unfold PackedLongs.new at hnew
  split at hnew
  · cases hnew
  · cases hnew
    exact ⟨by rw [ho, Option.bind_some, hslice], rfl⟩

/-- A value that the resolved block can load is the delta. -/
theorem deltaAt_resolved {data : List U8} {block : Block} {p : PackedLongs}
    (hp : resolve data block = some p) {k : Nat} (hk : k < 2 ^ 22)
    (hfast : k < p.fastLimit) : deltaAt data block k = .ok (p.value k) := by
  obtain ⟨hslice, hbits⟩ := resolve_some hp
  have hbpv : block.bpv ≠ 0#8 := by
    intro h0
    have := p.width.1
    rw [hbits, h0] at this
    exact absurd this (by decide)
  have hlen := p.fast k hfast
  rw [hbits] at hlen
  rw [deltaAt_packed hbpv hslice, directGet_window (supported_of_ne hbpv) hk hlen,
    p.value_eq, hbits]

section Readers

variable (fl : FloatOps)

/-- The value at index `k` of a block. -/
def valueAt (data : List U8) (block : Block) (k : Nat) : Result U64 := do
  let delta ← deltaAt data block k
  .ok (block.min + fl.scaled block.avg k + delta)

/-- `get` at an index that is not negative. -/
theorem get_eq {data : List U8} (hdata : data.length < 2 ^ 63) (m : Meta)
    {index : U64} (hindex : index.toNat < 2 ^ 63) :
    get fl data m index =
      match m.blocks[index.toNat / 2 ^ m.blockShift]? with
      | none => .err (.eof 0)
      | some block =>
        valueAt fl data block (index.toNat % 2 ^ m.blockShift) := by
  have hmask := toNat_and_blockMask m.shift_le index
  have hk : index.toNat % 2 ^ m.blockShift < 2 ^ 22 :=
    (Nat.mod_lt _ (Nat.two_pow_pos _)).trans_le (two_pow_le m.shift_le)
  have hof : index &&& blockMask m.blockShift =
      BitVec.ofNat 64 (index.toNat % 2 ^ m.blockShift) := by
    rw [← hmask, BitVec.ofNat_toNat, BitVec.setWidth_eq]
  simp only [get]
  rw [toNat_sshiftRight hindex]
  cases m.blocks[index.toNat / 2 ^ m.blockShift]? with
  | none => rfl
  | some block =>
    simp only [valueAt]
    rw [hmask, hof, blockDelta_eq hdata block hk]

theorem get_neg (data : List U8) (m : Meta) {index : U64}
    (h : 2 ^ 63 ≤ index.toNat) : get fl data m index = .err (.eof 0) := by
  simp only [get, blocks_neg m h]

/-! ## `Reader` -/

/-- `Reader::get` is `get`, errors included. -/
theorem reader_get_eq {data : List U8} (hdata : data.length < 2 ^ 63)
    (m : Meta) (index : U64) :
    (Reader.new data m).get fl index = get fl data m index := by
  rcases Nat.lt_or_ge index.toNat (2 ^ 63) with hpos | hneg
  · have hshift := toNat_sshiftRight hpos m.blockShift
    have hdiv := Nat.div_le_self index.toNat (2 ^ m.blockShift)
    have hmask := toNat_and_blockMask m.shift_le index
    have hk : index.toNat % 2 ^ m.blockShift < 2 ^ 22 :=
      (Nat.mod_lt _ (Nat.two_pow_pos _)).trans_le (two_pow_le m.shift_le)
    have htry : tryUsize (index.sshiftRight m.blockShift) =
        some (index.toNat / 2 ^ m.blockShift) := by
      rw [tryUsize, if_pos ((nonneg_iff _).2 (by omega)), hshift]
    simp only [Reader.get, Reader.new, htry, Option.bind_some,
      List.getElem?_map]
    cases hblock : m.blocks[index.toNat / 2 ^ m.blockShift]? with
    | none => rfl
    | some block =>
      have hget := get_eq fl hdata m hpos
      rw [hblock] at hget
      simp only [Option.map_some, hmask]
      by_cases hbpv : block.bpv = 0#8
      · have hzero : deltaAt data block (index.toNat % 2 ^ m.blockShift) =
            .ok 0#64 := by rw [deltaAt, if_pos hbpv]
        rw [hget]
        simp [valueAt, hzero, hbpv]
      · simp only [hbpv, decide_false, Bool.false_eq_true, if_false]
        cases hp : resolve data block with
        | none => rfl
        | some p =>
          rw [Option.bind_some, p.get_eq]
          by_cases hfast : index.toNat % 2 ^ m.blockShift < p.fastLimit
          · rw [if_pos hfast, hget]
            simp only [valueAt]
            rw [deltaAt_resolved hp hk hfast, ok_bind, p.value_eq]
          · rw [if_neg hfast]
  · have htry : tryUsize (index.sshiftRight m.blockShift) = none := by
      have := sshiftRight_neg hneg m.blockShift
      rw [tryUsize, if_neg (mt (nonneg_iff _).1 (by omega))]
    simp only [Reader.get, Reader.new, htry, Option.bind_none]

/-! ## `fill` -/

/-- Setting the slots of a run from `d` on, one after the other. -/
theorem foldlM_set {f : Nat → Result U64}
    {g : List U64 → Nat → Result (List U64)}
    (hg : ∀ run k, g run k = f k >>= fun v => .ok (run.set k v)) (n : Nat) :
    ∀ (d : Nat) (run : List U64), run.length = d + n →
      (List.range' d n).foldlM g run =
        (List.range' d n).mapM f >>= fun vs => .ok (run.take d ++ vs) := by
  induction n with
  | zero =>
    intro d run hlen
    have hall : run.take d = run := List.take_of_length_le (by omega)
    simp [hall]
  | succ n ih =>
    intro d run hlen
    rw [List.range'_succ, List.foldlM_cons, List.mapM_cons, hg]
    cases hf : f d with
    | err e => rfl
    | panic => rfl
    | ok v =>
      have htake : (run.set d v).take (d + 1) = run.take d ++ [v] := by
        rw [List.take_succ_eq_append_getElem (by simp; omega), List.take_set,
          List.set_eq_of_length_le (by simp), List.getElem_set_self]
      simp only [ok_bind, bind_assoc, Outcome.pure_eq]
      rw [ih (d + 1) (run.set d v) (by rw [List.length_set]; omega), htake]
      simp only [List.append_assoc, List.singleton_append]

theorem ofNat_add_ofNat (b k : Nat) :
    BitVec.ofNat 64 b + BitVec.ofNat 64 k = BitVec.ofNat 64 (b + k) :=
  (BitVec.ofNat_add b k).symm

/-- The last loop of a run adds the line to the deltas. -/
theorem mapM_valueAt (data : List U8) (block : Block) {n b d : Nat}
    (hb : b + (d + n) ≤ 2 ^ 22) :
    (List.range' d n).mapM (fun k => valueAt fl data block (b + k)) =
      (List.range' d n).mapM (fun k => deltaAt data block (b + k)) >>=
        fun vs => .ok (vs.mapIdx fun k v => block.min + fl.scaled block.avg
          (BitVec.ofNat 64 b + BitVec.ofNat 64 (d + k)).toNat + v) := by
  induction n generalizing d with
  | zero => rfl
  | succ n ih =>
    have hnat : (BitVec.ofNat 64 b + BitVec.ofNat 64 d).toNat = b + d := by
      rw [ofNat_add_ofNat, BitVec.toNat_ofNat, Nat.mod_eq_of_lt (by omega)]
    rw [List.range'_succ, List.mapM_cons, List.mapM_cons, ih (by omega)]
    simp only [valueAt, bind_assoc, ok_bind, Outcome.pure_eq,
      List.mapIdx_cons, Nat.add_zero, hnat]
    refine bind_congr fun v => bind_congr fun vs => ?_
    simp only [Nat.add_assoc, Nat.add_comm 1]

theorem fillTail_eq {data : List U8} {block : Block} (hbpv : block.bpv ≠ 0#8)
    (b : Nat) (run : List U64) (k : Nat) :
    fillTail data block (BitVec.ofNat 64 b) run k =
      deltaAt data block (b + k) >>= fun v => .ok (run.set k v) := by
  rw [fillTail, deltaAt, if_neg hbpv, ofNat_add_ofNat]
  cases (tryUsize block.offset).bind fun o => sliceFrom data o with
  | none => rfl
  | some slice => rfl

/-- The slots behind the decoded prefix: whatever prefix that is, the run
ends as the deltas of the block. -/
theorem foldlM_fillTail {data : List U8} {block : Block} {b decoded : Nat}
    {run : List U64} (hle : decoded ≤ run.length)
    (hbpv : block.bpv ≠ 0#8 ∨ decoded = run.length)
    (hpre : (List.range' 0 decoded).mapM
      (fun k => deltaAt data block (b + k)) = .ok (run.take decoded)) :
    (List.range' decoded (run.length - decoded)).foldlM
        (fillTail data block (BitVec.ofNat 64 b)) run =
      (List.range' 0 run.length).mapM fun k => deltaAt data block (b + k) := by
  have hsplit : List.range' 0 run.length = List.range' 0 decoded ++
      List.range' decoded (run.length - decoded) := by
    have := List.range'_append_1 (s := 0) (m := decoded)
      (n := run.length - decoded)
    rw [Nat.zero_add, Nat.add_sub_cancel' hle] at this
    exact this.symm
  rw [hsplit, List.mapM_append, hpre, ok_bind]
  rcases hbpv with hbpv | rfl
  · exact foldlM_set (fillTail_eq hbpv b) _ _ _ (by omega)
  · simp

/-- The deltas that the packed reader decodes. -/
theorem mapM_decodeRun {data : List U8} {block : Block} {p : PackedLongs}
    (hp : resolve data block = some p) {b n : Nat} (hb : b + n ≤ 2 ^ 22)
    (hn : b + n ≤ p.fastLimit ∨ n = 0) :
    (List.range' 0 n).mapM (fun k => deltaAt data block (b + k)) =
      .ok (p.decodeRun b n) := by
  rw [PackedLongs.decodeRun, ← List.range_eq_range']
  refine mapM_ok fun k hk => ?_
  rw [List.mem_range] at hk
  exact deltaAt_resolved hp (by omega) (by omega)

/-- The decoded start of a run is deltas of the block. -/
theorem fillDecode_spec (data : List U8) (block : Block) {b : Nat}
    {run : List U64} (hb : b + run.length ≤ 2 ^ 22) :
    ∃ run' decoded,
      fillDecode data block (BitVec.ofNat 64 b) run = (run', decoded) ∧
      run'.length = run.length ∧ decoded ≤ run'.length ∧
      (block.bpv ≠ 0#8 ∨ decoded = run'.length) ∧
      (List.range' 0 decoded).mapM (fun k => deltaAt data block (b + k)) =
        .ok (run'.take decoded) := by
  have hnat : (BitVec.ofNat 64 b).toNat = b := by
    rw [BitVec.toNat_ofNat, Nat.mod_eq_of_lt (by omega)]
  unfold fillDecode
  by_cases hbpv : block.bpv = 0#8
  · refine ⟨_, _, if_pos hbpv, by simp, by simp, by simp, ?_⟩
    rw [mapM_ok (g := fun _ => 0#64) fun k _ => by rw [deltaAt, if_pos hbpv]]
    simp
  · rw [if_neg hbpv, if_pos (supported_of_ne hbpv)]
    cases hp : resolve data block with
    | none => exact ⟨run, 0, rfl, rfl, Nat.zero_le _, Or.inl hbpv, by simp⟩
    | some p =>
      have hlen : (p.decodeRun b (min run.length (p.fastLimit - b)) ++
          run.drop (min run.length (p.fastLimit - b))).length =
          run.length := by
        rw [List.length_append, List.length_drop, PackedLongs.decodeRun,
          List.length_map, List.length_range]
        omega
      refine ⟨_, _, by rw [hnat]; exact p.decodeRange_eq b run, hlen,
        by omega, Or.inl hbpv, ?_⟩
      rw [mapM_decodeRun hp (by omega) (by omega)]
      congr 1
      rw [List.take_left' (by simp [PackedLongs.decodeRun])]

/-- A run inside one block is the values of the block, one by one. -/
theorem fillRun_eq (data : List U8) (block : Block) {b : Nat}
    {run : List U64} (hb : b + run.length ≤ 2 ^ 22) :
    fillRun fl data block (BitVec.ofNat 64 b) run =
      (List.range' 0 run.length).mapM
        fun k => valueAt fl data block (b + k) := by
  obtain ⟨run', decoded, hdec, hlen, hle, hbpv, hpre⟩ :=
    fillDecode_spec data block hb
  simp only [fillRun, hdec]
  rw [foldlM_fillTail hle hbpv hpre, hlen, mapM_valueAt fl data block
    (by omega)]
  simp only [Nat.zero_add]

/-- Two loops over ranges that start at different places. -/
theorem mapM_range'_congr {f g : Nat → Result U64} (n : Nat) :
    ∀ a b, (∀ k < n, f (a + k) = g (b + k)) →
      (List.range' a n).mapM f = (List.range' b n).mapM g := by
  induction n with
  | zero =>
    intro a b _
    rfl
  | succ n ih =>
    intro a b h
    have hrest := ih (a + 1) (b + 1) fun k hk => by
      rw [Nat.add_assoc, Nat.add_assoc, Nat.add_comm 1]
      exact h (k + 1) (by omega)
    rw [List.range'_succ, List.range'_succ, List.mapM_cons, List.mapM_cons,
      hrest, show f a = g b from h 0 (by omega)]

/-- The index of slot `i`: where it is not negative, the sum is exact. -/
theorem fill_index (first : U64) {i : Nat} (hi : i < 2 ^ 63) :
    (checkedAddI64 first i = none ∧
        2 ^ 63 ≤ (first + BitVec.ofNat 64 i).toNat) ∨
      checkedAddI64 first i = some (first + BitVec.ofNat 64 i) := by
  unfold checkedAddI64
  by_cases h : first.toInt + i < 2 ^ 63
  · exact Or.inr (if_pos h)
  · have hlt := first.isLt
    refine Or.inl ⟨if_neg h, ?_⟩
    rw [BitVec.toInt_eq_toNat_cond] at h
    rw [BitVec.toNat_add, BitVec.toNat_ofNat, Nat.mod_eq_of_lt (by omega)]
    split at h
    · rw [Nat.mod_eq_of_lt (by omega)]
      omega
    · omega

/-- An index further on in the same block. -/
theorem get_in_block {data : List U8} (hdata : data.length < 2 ^ 63)
    (m : Meta) {index : U64} (hindex : index.toNat < 2 ^ 63) {block : Block}
    (hblock : m.blocks[index.toNat / 2 ^ m.blockShift]? = some block) {k : Nat}
    (hk : index.toNat % 2 ^ m.blockShift + k < 2 ^ m.blockShift) :
    get fl data m (index + BitVec.ofNat 64 k) =
      valueAt fl data block (index.toNat % 2 ^ m.blockShift + k) := by
  have hle := two_pow_le m.shift_le
  have hpos := Nat.two_pow_pos m.blockShift
  have hdm := Nat.div_add_mod index.toNat (2 ^ m.blockShift)
  -- The end of the longs is the end of a block.
  have hend : index.toNat + k < 2 ^ 63 := by
    have hpow : 2 ^ 63 = 2 ^ m.blockShift * 2 ^ (63 - m.blockShift) := by
      have := m.shift_le
      unfold maxBlockShift at this
      rw [← Nat.pow_add, Nat.add_sub_cancel' (by omega)]
    have hq : index.toNat / 2 ^ m.blockShift < 2 ^ (63 - m.blockShift) := by
      rw [Nat.div_lt_iff_lt_mul hpos, Nat.mul_comm, ← hpow]
      exact hindex
    have hmul := Nat.mul_le_mul_left (2 ^ m.blockShift) hq
    rw [Nat.mul_succ, ← hpow] at hmul
    omega
  have hnat : (index + BitVec.ofNat 64 k).toNat = index.toNat + k := by
    rw [BitVec.toNat_add, BitVec.toNat_ofNat,
      Nat.mod_eq_of_lt (show k < 2 ^ 64 by omega),
      Nat.mod_eq_of_lt (by omega)]
  have hsum : index.toNat + k = 2 ^ m.blockShift *
      (index.toNat / 2 ^ m.blockShift) +
        (index.toNat % 2 ^ m.blockShift + k) := by omega
  have hdiv : (index.toNat + k) / 2 ^ m.blockShift =
      index.toNat / 2 ^ m.blockShift := by
    rw [hsum, Nat.mul_add_div hpos, Nat.div_eq_of_lt hk, Nat.add_zero]
  have hmod : (index.toNat + k) % 2 ^ m.blockShift =
      index.toNat % 2 ^ m.blockShift + k := by
    rw [hsum, Nat.mul_add_mod, Nat.mod_eq_of_lt hk]
  rw [get_eq fl hdata m (by omega), hnat, hdiv, hmod, hblock]

/-- One pass of `fill`: it fails as `get` fails, or it does some slots. -/
theorem fillPass_eq {data : List U8} (hdata : data.length < 2 ^ 63) (m : Meta)
    (first : U64) {i : Nat} {out : List U64} (hi : i < out.length)
    (hlen : out.length < 2 ^ 63) :
    (fillPass fl data m first (i, out) = .err (.eof 0) ∧
        get fl data m (first + BitVec.ofNat 64 i) = .err (.eof 0)) ∨
      ∃ n, 0 < n ∧ i + n ≤ out.length ∧
        fillPass fl data m first (i, out) =
          (List.range' i n).mapM
              (fun k => get fl data m (first + BitVec.ofNat 64 k)) >>=
            fun vs => .ok (.inl (i + n, splice out i vs)) := by
  simp only [fillPass, if_pos hi, if_pos (show i < 2 ^ 63 by omega)]
  rcases fill_index first (show i < 2 ^ 63 by omega) with ⟨hnone, hneg⟩ | hsome
  · rw [hnone]
    exact Or.inl ⟨rfl, get_neg fl data m hneg⟩
  · rw [hsome]
    generalize hidx : first + BitVec.ofNat 64 i = index
    dsimp only
    by_cases hneg : index.toInt < 0
    · rw [if_pos hneg]
      have : ¬ index.toNat < 2 ^ 63 :=
        mt (nonneg_iff index).2 (Int.not_le.2 hneg)
      exact Or.inl ⟨rfl, get_neg fl data m (by omega)⟩
    · have hnn : index.toNat < 2 ^ 63 := (nonneg_iff index).1 (Int.not_lt.1 hneg)
      rw [if_neg hneg, toNat_sshiftRight hnn]
      cases hblock : m.blocks[index.toNat / 2 ^ m.blockShift]? with
      | none =>
        refine Or.inl ⟨rfl, ?_⟩
        rw [get_eq fl hdata m hnn, hblock]
      | some block =>
        have hle := two_pow_le m.shift_le
        have hb := Nat.mod_lt index.toNat (Nat.two_pow_pos m.blockShift)
        have hmask := toNat_and_blockMask m.shift_le index
        have hof : index &&& blockMask m.blockShift =
            BitVec.ofNat 64 (index.toNat % 2 ^ m.blockShift) := by
          rw [← hmask, BitVec.ofNat_toNat, BitVec.setWidth_eq]
        have hroom : (blockMask m.blockShift -
            (index &&& blockMask m.blockShift) + 1#64).toNat =
            2 ^ m.blockShift - index.toNat % 2 ^ m.blockShift := by
          have hone : (1#64).toNat = 1 := rfl
          rw [BitVec.toNat_add, BitVec.toNat_sub, hmask,
            toNat_blockMask m.shift_le, hone]
          omega
        have hin : (tryUsize (blockMask m.blockShift -
            (index &&& blockMask m.blockShift) + 1#64)).getD
              (usizeSize - 1) =
            2 ^ m.blockShift - index.toNat % 2 ^ m.blockShift := by
          rw [tryUsize, if_pos ((nonneg_iff _).2 (by omega)),
            Option.getD_some, hroom]
        right
        dsimp only
        rw [hin]
        generalize hn : min (out.length - i)
          (2 ^ m.blockShift - index.toNat % 2 ^ m.blockShift) = n
        refine ⟨n, by omega, by omega, ?_⟩
        have hrun : ((out.drop i).take n).length = n := by
          rw [List.length_take, List.length_drop]
          omega
        rw [slice_eq_some (by omega) (by omega), Nat.add_sub_cancel_left,
          expect_some, ok_bind, hof,
          fillRun_eq fl data block (by omega), hrun]
        congr 1
        refine mapM_range'_congr n 0 i fun k hk => ?_
        rw [Nat.zero_add, ← get_in_block fl hdata m hnn hblock (by omega),
          ← hidx, BitVec.add_assoc, ofNat_add_ofNat]

/-- `fill` from slot `i` on. -/
theorem iterate_fillPass {data : List U8} (hdata : data.length < 2 ^ 63)
    (m : Meta) (first : U64) (fuel : Nat) :
    ∀ (i : Nat) (out : List U64), i ≤ out.length → out.length < 2 ^ 63 →
      out.length < fuel + i →
      iterate (fillPass fl data m first) fuel (i, out) =
        (List.range' i (out.length - i)).mapM
            (fun k => get fl data m (first + BitVec.ofNat 64 k)) >>=
          fun vs => .ok (out.take i ++ vs) := by
  induction fuel with
  | zero =>
    intro i out hi hlen hfuel
    omega
  | succ fuel ih =>
    intro i out hi hlen hfuel
    rcases Nat.eq_or_lt_of_le hi with heq | hlt
    · have hleave : fillPass fl data m first (i, out) = .ok (.inr out) := by
        simp only [fillPass]
        rw [if_neg (by omega)]
      rw [iterate_leave hleave, heq, Nat.sub_self]
      simp
    · rcases fillPass_eq fl hdata m first hlt hlen with
        ⟨hpass, hget⟩ | ⟨n, hpos, hn, hpass⟩
      · rw [iterate, hpass, show out.length - i = out.length - i - 1 + 1 by omega,
          List.range'_succ, List.mapM_cons, hget]
        rfl
      · have hsplit : List.range' i (out.length - i) =
            List.range' i n ++ List.range' (i + n) (out.length - i - n) := by
          rw [List.range'_append_1, Nat.add_sub_cancel' (by omega)]
        rw [hsplit, List.mapM_append, iterate, hpass]
        cases hvs : (List.range' i n).mapM
            fun k => get fl data m (first + BitVec.ofNat 64 k) with
        | err e => rfl
        | panic => rfl
        | ok vs =>
          have hvlen := Outcome.mapM_length hvs
          rw [List.length_range'] at hvlen
          have hout : (splice out i vs).length = out.length :=
            splice_length (by omega)
          have htake := splice_take out vs hi
          rw [hvlen] at htake
          simp only [ok_bind]
          rw [ih (i + n) _ (by omega) (by omega) (by omega), hout, htake,
            Nat.sub_add_eq]
          simp only [bind_assoc, ok_bind, Outcome.pure_eq,
            List.append_assoc]

/-- `fill` answers what `get` answers for each index in turn, and fails as
the first `get` that fails. -/
theorem fill_eq {data : List U8} (hdata : data.length < 2 ^ 63) (m : Meta)
    (first : U64) {out : List U64} (hlen : out.length < 2 ^ 63) :
    fill fl data m first out = (List.range out.length).mapM
      fun k => get fl data m (first + BitVec.ofNat 64 k) := by
  rw [fill, iterate_fillPass fl hdata m first _ 0 out (Nat.zero_le _) hlen
    (by omega), List.range_eq_range', Nat.sub_zero]
  simp only [List.take_zero, List.nil_append]
  exact bind_pure _

end Readers

/-! ## What `write` writes -/

/-- The header of a block in the metadata. -/
def headerBytes (block : Block) : List U8 :=
  toLeBytes 8 block.min ++ (toLeBytes 4 block.avg ++
    (toLeBytes 8 block.offset ++ [block.bpv]))

theorem reads_readBlock (block : Block) :
    Reads readBlock (headerBytes block) block := by
  intro inp tail h
  simp only [headerBytes, List.append_assoc] at h
  have hmin := Store.reads_readLe (n := 8) block.min (by decide) _ _ h
  have h₁ := SliceInput.rest_advance_append h
  have havg := Store.reads_readLe (n := 4) block.avg (by decide) _ _ h₁
  have h₂ := SliceInput.rest_advance_append h₁
  have hoff := Store.reads_readLe (n := 8) block.offset (by decide) _ _ h₂
  have h₃ := SliceInput.rest_advance_append h₂
  simp only [readBlock, SliceInput.readI64, SliceInput.readI32, hmin, havg,
    hoff, SliceInput.readByte_cons h₃, ok_bind, dif_pos block.bpv_ok]
  simp only [SliceInput.advance_advance, headerBytes, List.length_append,
    List.length_singleton, Nat.add_assoc]

theorem reads_readBlocks {n : Nat} {blocks : List Block}
    (hn : blocks.length = n) :
    Reads (readBlocks n) (blocks.flatMap headerBytes) ⟨blocks, hn⟩ := by
  subst hn
  induction blocks with
  | nil =>
    intro inp tail _
    simp [readBlocks]
  | cons block blocks ih =>
    intro inp tail h
    rw [List.flatMap_cons, List.append_assoc] at h
    have hrest := ih _ tail (SliceInput.rest_advance_append h)
    simp only [List.length_cons, readBlocks, reads_readBlock block _ _ h,
      hrest, ok_bind, SliceInput.advance_advance, List.flatMap_cons,
      List.length_append]

theorem le_foldl_or (ds : List U64) :
    ∀ acc : U64, acc.toNat ≤ (ds.foldl (fun acc d => acc ||| d) acc).toNat ∧
      ∀ d ∈ ds, d.toNat ≤ (ds.foldl (fun acc d => acc ||| d) acc).toNat := by
  induction ds with
  | nil =>
    intro acc
    simp
  | cons d ds ih =>
    intro acc
    obtain ⟨hacc, hds⟩ := ih (acc ||| d)
    rw [BitVec.toNat_or] at hacc
    rw [List.foldl_cons]
    refine ⟨Nat.left_le_or.trans hacc, ?_⟩
    intro e he
    rcases List.mem_cons.1 he with rfl | he
    · exact Nat.right_le_or.trans hacc
    · exact hds e he

theorem exists_minI64 (ds : List U64) (h : ds ≠ []) :
    ∃ v, minI64 ds = some v := by
  cases ds with
  | nil => exact absurd rfl h
  | cons d ds => exact ⟨_, rfl⟩

/-- The packed deltas of a chunk take no more room than its longs. -/
theorem packed_length_le {b : U8} (hb : isSupportedBits b = true) {n : Nat}
    (hn : 0 < n) : (n * b.toNat + 7) / 8 + paddingBytesNeeded b ≤ 8 * n := by
  rw [DirectReader.isSupportedBits_iff] at hb
  simp only [paddingBytesNeeded]
  generalize b.toNat = w at hb
  simp only [DirectReader.supportedBits, List.mem_cons, List.not_mem_nil,
    or_false] at hb
  rcases hb with rfl | rfl | rfl | rfl | rfl | rfl | rfl | rfl | rfl | rfl |
    rfl | rfl | rfl | rfl <;> simp <;> omega

section Write

variable (fl : FloatOps)

/-- The data `data`, with something behind it, holds the chunk in `block`. -/
def Holds (data : List U8) (block : Block) (chunk : List U64) : Prop :=
  ∀ more k v, (data ++ more).length < 2 ^ 63 → chunk[k]? = some v →
    valueAt fl (data ++ more) block k = .ok v

/-- Packed deltas read back, at the offset of the block. -/
theorem deltaAt_encode (data : List U8) (block : Block) (ds : List U64)
    (hlen : ds.length ≤ 2 ^ 22) (hbpv : block.bpv ≠ 0#8)
    (hoff : block.offset = BitVec.ofNat 64 data.length)
    (hdata : data.length < 2 ^ 63) (more : List U8) {k : Nat} {d : U64}
    (hk : ds[k]? = some d) (hd : d.toNat < 2 ^ block.bpv.toNat) :
    deltaAt (data ++ (DirectReader.encode ds block.bpv ++ more)) block k =
      .ok d := by
  have hsup := supported_of_ne hbpv
  obtain ⟨-, h64, -⟩ := DirectReader.supported_width hsup
  obtain ⟨hpacks, henc⟩ := DirectReader.encode_packs ds h64
  have hklt := (List.getElem?_eq_some_iff.1 hk).1
  have hnat : block.offset.toNat = data.length := by
    rw [hoff, BitVec.toNat_ofNat, Nat.mod_eq_of_lt (by omega)]
  have hslice : (tryUsize block.offset).bind (fun o => sliceFrom
      (data ++ (DirectReader.encode ds block.bpv ++ more)) o) =
      some (DirectReader.encode ds block.bpv ++ more) := by
    rw [tryUsize, if_pos ((nonneg_iff _).2 (by omega)), hnat,
      Option.bind_some, sliceFrom, if_pos (by simp), List.drop_left]
  have hmul : (k + 1) * block.bpv.toNat ≤ ds.length * block.bpv.toNat :=
    Nat.mul_le_mul_right _ hklt
  rw [Nat.add_mul, Nat.one_mul] at hmul
  rw [deltaAt_packed hbpv hslice, DirectReader.get_eq hsup,
    DirectReader.bytesNeeded, bitPos_eq h64 (by omega), if_pos]
  · rw [field_append_left (by omega), hpacks.field hk hd]
  · rw [List.length_append]
    omega

/-- Undoing the subtractions of the writer. -/
theorem add_back (v line min : U64) : min + line + (v - line - min) = v := by
  rw [BitVec.add_comm min line, BitVec.add_assoc, BitVec.add_comm min,
    BitVec.sub_add_cancel, BitVec.add_comm line, BitVec.sub_add_cancel]

/-- The deltas of a chunk, as the writer packs them. -/
def deltasOf (avg : U32) (min : U64) (chunk : List U64) : List U64 :=
  (chunk.mapIdx fun i v => v - fl.scaled avg i).map fun d => d - min

theorem deltasOf_getElem? (avg : U32) (min : U64) {chunk : List U64} {k : Nat}
    {v : U64} (h : chunk[k]? = some v) :
    (deltasOf fl avg min chunk)[k]? = some (v - fl.scaled avg k - min) := by
  simp [deltasOf, List.getElem?_mapIdx, h]

/-- A block whose deltas read back holds its chunk. -/
theorem holds_of_deltaAt {data : List U8} {block : Block} {chunk : List U64}
    (h : ∀ more k d, (data ++ more).length < 2 ^ 63 →
      (deltasOf fl block.avg block.min chunk)[k]? = some d →
      deltaAt (data ++ more) block k = .ok d) : Holds fl data block chunk := by
  intro more k v hlen hk
  rw [valueAt, h more k _ hlen (deltasOf_getElem? fl _ _ hk), ok_bind,
    add_back]

/-- One chunk: its header and its packed deltas. -/
theorem writeBlock_spec {debugAssertions : Bool} {chunk : List U64}
    (data : List U8) (hne : chunk ≠ []) (hlen : chunk.length ≤ 2 ^ 22)
    (hasc : debugAssertions = true → ascending chunk = true)
    (metaBytes : List U8) (hdata : data.length < 2 ^ 63) :
    ∃ block db, writeBlock fl debugAssertions (metaBytes, data) chunk =
        .ok (metaBytes ++ headerBytes block, data ++ db) ∧
      db.length ≤ 8 * chunk.length ∧ Holds fl (data ++ db) block chunk := by
  simp only [writeBlock]
  rw [guardOk_pos hasc, ok_bind]
  generalize (if chunk.length ≤ 1 then 0#32 else
    fl.avgInc (chunk.getLastD 0#64 - chunk.headD 0#64) (chunk.length - 1)) = avg
  obtain ⟨min, hmin⟩ := exists_minI64 (chunk.mapIdx fun i v => v - fl.scaled avg i) (by simpa using hne)
  rw [hmin, expect_some, ok_bind]
  rw [← deltasOf]
  have hdlen : (deltasOf fl avg min chunk).length = chunk.length := by
    simp [deltasOf]
  have hpos : 0 < chunk.length := List.length_pos_iff.2 hne
  have hor := (le_foldl_or (deltasOf fl avg min chunk) 0#64).2
  generalize (deltasOf fl avg min chunk).foldl (fun acc d => acc ||| d) 0#64 =
    maxDelta at hor
  by_cases hzero : maxDelta = 0#64
  · -- All deltas are zero, and nothing is packed.
    refine ⟨⟨min, BitVec.ofNat 64 data.length, avg, 0#8, Or.inl rfl⟩, [], ?_,
      Nat.zero_le _, holds_of_deltaAt fl fun more k d _ hk => ?_⟩
    · rw [if_pos hzero]
      simp [headerBytes, Store.writeI64, Store.writeI32, Store.writeBytes]
    · have hd := hor d (List.mem_of_getElem? hk)
      rw [hzero] at hd
      have hd0 : d = 0#64 := BitVec.eq_of_toNat_eq (Nat.le_zero.1 hd)
      rw [deltaAt, if_pos rfl, hd0]
  · obtain ⟨hsup, hfits⟩ := DirectReader.unsignedBitsRequired_spec maxDelta
    obtain ⟨hw, h64, -⟩ := DirectReader.supported_width hsup
    have hbpv : unsignedBitsRequired maxDelta ≠ 0#8 := by
      intro h0
      rw [h0] at hw
      exact absurd hw (by decide)
    refine ⟨⟨min, BitVec.ofNat 64 data.length, avg,
        unsignedBitsRequired maxDelta, Or.inr hsup⟩,
      DirectReader.encode (deltasOf fl avg min chunk)
          (unsignedBitsRequired maxDelta) ++
        List.replicate (paddingBytesNeeded (unsignedBitsRequired maxDelta)) 0#8,
      ?_, ?_, holds_of_deltaAt fl fun more k d _ hk => ?_⟩
    · rw [if_neg hzero]
      simp [headerBytes, Store.writeI64, Store.writeI32, Store.writeBytes]
    · rw [List.length_append, List.length_replicate,
        (DirectReader.encode_packs _ h64).2, hdlen]
      exact packed_length_le hsup hpos
    · have hd := hor d (List.mem_of_getElem? hk)
      have hdelta := deltaAt_encode data ⟨min, BitVec.ofNat 64 data.length, avg, unsignedBitsRequired maxDelta, Or.inr hsup⟩ (deltasOf fl avg min chunk) (hdlen ▸ hlen) hbpv rfl hdata
        (List.replicate (paddingBytesNeeded (unsignedBitsRequired maxDelta))
          0#8 ++ more) hk (Nat.lt_of_le_of_lt hd hfits)
      simpa only [List.append_assoc] using hdelta

/-- A chunk stays where it is when more is written. -/
theorem Holds.append {data : List U8} {block : Block} {chunk : List U64}
    (h : Holds fl data block chunk) (db : List U8) :
    Holds fl (data ++ db) block chunk := by
  intro more k v hlen hk
  rw [List.append_assoc] at hlen ⊢
  exact h (db ++ more) k v hlen hk

/-- All chunks. -/
theorem foldlM_writeBlock (debugAssertions : Bool) (cs : List (List U64))
    (hcs : ∀ c ∈ cs, c ≠ [] ∧ c.length ≤ 2 ^ 22 ∧ (debugAssertions = true → ascending c = true)) :
    ∀ (metaBytes data : List U8),
      data.length + 8 * cs.flatten.length < 2 ^ 63 →
      ∃ blocks db, cs.foldlM (writeBlock fl debugAssertions)
          (metaBytes, data) =
          .ok (metaBytes ++ blocks.flatMap headerBytes, data ++ db) ∧
        (data ++ db).length < 2 ^ 63 ∧
        List.Forall₂ (Holds fl (data ++ db)) blocks cs := by
  induction cs with
  | nil =>
    intro metaBytes data hlen
    refine ⟨[], [], by simp, by simpa using hlen, List.Forall₂.nil⟩
  | cons c cs ih =>
    intro metaBytes data hlen
    rw [List.flatten_cons, List.length_append] at hlen
    obtain ⟨hne, hle, hasc⟩ := hcs c (List.mem_cons_self ..)
    obtain ⟨block, db, hw, hdb, hholds⟩ :=
      writeBlock_spec fl data hne hle hasc metaBytes (by omega)
    obtain ⟨blocks, db', hrest, hlen', hall⟩ := ih
      (fun d hd => hcs d (List.mem_cons_of_mem c hd))
      (metaBytes ++ headerBytes block) (data ++ db)
      (by rw [List.length_append]; omega)
    rw [List.append_assoc] at hlen' hall
    refine ⟨block :: blocks, db ++ db', ?_, hlen', List.Forall₂.cons ?_ hall⟩
    · rw [List.foldlM_cons, hw, ok_bind, hrest, List.flatMap_cons,
        List.append_assoc, List.append_assoc]
    · rw [← List.append_assoc]
      exact hholds.append fl db'

/-- The number of blocks of `n` values is the number of chunks. -/
theorem numBlocks_eq {n : Nat} (hn : n < 2 ^ 60) (s : Nat) :
    numBlocks (BitVec.ofNat 64 n) s = (n + 2 ^ s - 1) / 2 ^ s := by
  have hnat : (BitVec.ofNat 64 n).toNat = n := by
    rw [BitVec.toNat_ofNat, Nat.mod_eq_of_lt (by omega)]
  have hpos := Nat.two_pow_pos s
  have hq := Nat.div_le_self n (2 ^ s)
  have hdm := Nat.div_add_mod n (2 ^ s)
  have hmod := Nat.mod_lt n hpos
  have hshift : ((BitVec.ofNat 64 n).sshiftRight s).toNat = n / 2 ^ s := by
    rw [toNat_sshiftRight (by omega), hnat]
  have hback : (((BitVec.ofNat 64 n).sshiftRight s) <<< s).toNat =
      2 ^ s * (n / 2 ^ s) := by
    rw [BitVec.toNat_shiftLeft, hshift, Nat.shiftLeft_eq, Nat.mul_comm,
      Nat.mod_eq_of_lt (by omega)]
  have hint : ∀ v : U64, v.toNat < 2 ^ 63 → v.toInt = v.toNat := fun v hv =>
    BitVec.toInt_eq_toNat_of_lt (by omega)
  simp only [numBlocks]
  rw [hint _ (by omega), hint _ (by omega), hback, hnat]
  rcases Nat.eq_zero_or_pos (n % 2 ^ s) with h0 | h0
  · rw [if_neg (by omega), hshift,
      show n + 2 ^ s - 1 = 2 ^ s * (n / 2 ^ s) + (2 ^ s - 1) by omega,
      Nat.mul_add_div hpos,
      Nat.div_eq_of_lt (show 2 ^ s - 1 < 2 ^ s by omega), Nat.add_zero]
  · have hsucc := Nat.mul_succ (2 ^ s) (n / 2 ^ s)
    rw [if_pos (by omega), BitVec.toNat_add, hshift, BitVec.toNat_ofNat,
      show n + 2 ^ s - 1 = 2 ^ s * (n / 2 ^ s).succ + (n % 2 ^ s - 1) by omega,
      Nat.mul_add_div hpos,
      Nat.div_eq_of_lt (show n % 2 ^ s - 1 < 2 ^ s by omega)]
    exact Nat.mod_eq_of_lt (by omega)

end Write

/-! ## The round trip and the agreement of the readers -/

theorem forall₂_getElem? {α β : Type} {R : α → β → Prop} {as : List α}
    {bs : List β} (h : List.Forall₂ R as bs) {i : Nat} {b : β}
    (hb : bs[i]? = some b) : ∃ a, as[i]? = some a ∧ R a b := by
  obtain ⟨hlt, rfl⟩ := List.getElem?_eq_some_iff.1 hb
  have hlt' : i < as.length := by rwa [h.length_eq]
  exact ⟨_, List.getElem?_eq_getElem hlt', h.get hlt' hlt⟩

/-- What `write` writes, `load_meta` accepts and `get` reads back. -/
theorem get_write (fl : FloatOps) {debugAssertions : Bool}
    {values : List U64} (hlen : values.length < 2 ^ 60) {s : Nat}
    (hmin : minBlockShift ≤ s) (hmax : s ≤ maxBlockShift)
    (hasc : debugAssertions = true →
      ∀ c ∈ chunks (2 ^ s) values, ascending c = true) :
    ∃ metaBytes data m inp,
      write fl debugAssertions values s = .ok (metaBytes, data) ∧
      loadMeta (SliceInput.new metaBytes) (BitVec.ofNat 64 values.length) s =
        .ok (m, inp) ∧
      ∀ i v, values[i]? = some v →
        get fl data m (BitVec.ofNat 64 i) = .ok v := by
  have hpos := Nat.two_pow_pos s
  have hle := two_pow_le hmax
  obtain ⟨blocks, data, hwrite, hdata, hall⟩ := foldlM_writeBlock fl debugAssertions (chunks (2 ^ s) values)
    (fun c hc => ⟨(chunks_mem hpos hc).1, (chunks_mem hpos hc).2.trans hle,
      fun hd => hasc hd c hc⟩) [] []
    (by rw [chunks_flatten hpos, List.length_nil]; omega)
  rw [List.nil_append] at hwrite hdata hall
  rw [List.nil_append] at hwrite
  have hcount : blocks.length = numBlocks (BitVec.ofNat 64 values.length) s := by
    rw [hall.length_eq, numBlocks_eq hlen, chunks, List.length_map,
      List.length_range]
  have hnat : ∀ n < 2 ^ 60, (BitVec.ofNat 64 n).toNat = n := by
    intro n hn
    rw [BitVec.toNat_ofNat, Nat.mod_eq_of_lt (by omega)]
  obtain ⟨m, inp, hload, rfl, hblocks⟩ : ∃ m inp,
      loadMeta (SliceInput.new (blocks.flatMap headerBytes))
        (BitVec.ofNat 64 values.length) s = .ok (m, inp) ∧
      m.blockShift = s ∧ m.blocks = blocks := by
    have hnn : ¬ (BitVec.ofNat 64 values.length).toInt < 0 := by
      have := hnat _ hlen
      exact Int.not_lt.2 ((nonneg_iff _).2 (by omega))
    have hread := reads_readBlocks hcount
      (SliceInput.new (blocks.flatMap headerBytes)) [] (by simp)
    rw [loadMeta, dif_neg (Nat.not_lt.2 hmax), dif_neg hnn, hread,
      ok_bind]
    exact ⟨_, _, rfl, rfl, rfl⟩
  refine ⟨_, data, m, inp, ?_, hload, ?_⟩
  · rw [write, guardOk_pos ⟨hmin, hmax⟩, ok_bind, hwrite]
  · intro i v hi
    have hilt := (List.getElem?_eq_some_iff.1 hi).1
    have hidx := hnat i (by omega)
    obtain ⟨block, hblock, hholds⟩ :=
      forall₂_getElem? hall (chunks_getElem? hpos hilt)
    have hv := hholds [] (i % 2 ^ m.blockShift) v (by simpa using hdata)
      (by rw [List.getElem?_take_of_lt (Nat.mod_lt i hpos), List.getElem?_drop,
        Nat.mul_comm, Nat.div_add_mod, hi])
    rw [List.append_nil] at hv
    rw [get_eq fl hdata _ (by omega), hidx, hblocks, hblock]
    exact hv

/-- No reader panics. -/
theorem get_ne_panic (fl : FloatOps) {data : List U8}
    (hdata : data.length < 2 ^ 63) (m : Meta) (index : U64) :
    get fl data m index ≠ .panic := by
  have hdelta : ∀ (block : Block) k, deltaAt data block k ≠ .panic := by
    intro block k
    unfold deltaAt
    split
    · simp
    · rename_i hbpv
      split
      · simp
      · rw [DirectReader.get_eq (supported_of_ne hbpv)]
        split <;> simp
  rcases Nat.lt_or_ge index.toNat (2 ^ 63) with hpos | hneg
  · rw [get_eq fl hdata m hpos]
    cases m.blocks[index.toNat / 2 ^ m.blockShift]? with
    | none => simp
    | some block =>
      have := hdelta block (index.toNat % 2 ^ m.blockShift)
      simp only [valueAt]
      cases h : deltaAt data block (index.toNat % 2 ^ m.blockShift) with
      | panic => exact absurd h this
      | ok d => simp
      | err e => simp
  · rw [get_neg fl data m hneg]
    simp

/-- A loop that calls `f` at `0, 1, ...`: it returns all the values, or the
error of the first call that fails. -/
theorem mapM_range_cases {f : Nat → Result U64} (hf : ∀ k, f k ≠ .panic)
    (n : Nat) :
    (∃ vs, (List.range n).mapM f = .ok vs ∧ vs.length = n ∧
        ∀ k v, vs[k]? = some v → f k = .ok v) ∨
      ∃ k e, (List.range n).mapM f = .err e ∧ k < n ∧ f k = .err e ∧
        ∀ j < k, ∃ v, f j = .ok v := by
  induction n with
  | zero => exact Or.inl ⟨[], rfl, rfl, by simp⟩
  | succ n ih =>
    rw [List.range_succ, List.mapM_append]
    rcases ih with ⟨vs, hvs, hlen, hall⟩ | ⟨k, e, herr, hk, hke, hlt⟩
    · rw [hvs, ok_bind, List.mapM_cons, List.mapM_nil]
      cases hn : f n with
      | panic => exact absurd hn (hf n)
      | err e =>
        refine Or.inr ⟨n, e, rfl, by omega, hn, fun j hj => ?_⟩
        exact ⟨_, hall j _ (List.getElem?_eq_getElem (by omega))⟩
      | ok v =>
        refine Or.inl ⟨vs ++ [v], rfl, by simp [hlen], fun k u hk => ?_⟩
        rcases Nat.lt_or_ge k vs.length with hlt | hge
        · exact hall k u (by rwa [List.getElem?_append_left hlt] at hk)
        · have hk' := (List.getElem?_eq_some_iff.1 hk).1
          rw [List.length_append, List.length_singleton] at hk'
          obtain rfl : k = n := by omega
          rw [List.getElem?_append_right hge, hlen, Nat.sub_self] at hk
          rw [hn, Option.some.inj hk]
    · exact Or.inr ⟨k, e, by rw [herr]; rfl, by omega, hke, hlt⟩

/-- The round trip of `write`, and the agreement of `Reader` and `fill` with
`get` on any data. -/
theorem write_get_readers (fl : FloatOps) :
    (∀ (debugAssertions : Bool) (values : List U64) (s : Nat),
      values.length < 2 ^ 60 → minBlockShift ≤ s → s ≤ maxBlockShift →
      (debugAssertions = true →
        ∀ c ∈ chunks (2 ^ s) values, ascending c = true) →
      ∃ metaBytes data m inp,
        write fl debugAssertions values s = .ok (metaBytes, data) ∧
        loadMeta (SliceInput.new metaBytes) (BitVec.ofNat 64 values.length) s =
          .ok (m, inp) ∧
        ∀ i v, values[i]? = some v →
          get fl data m (BitVec.ofNat 64 i) = .ok v) ∧
    (∀ (data : List U8) (inp inp' : SliceInput) (n : U64) (s : Nat) (m : Meta),
      data.length < 2 ^ 63 → loadMeta inp n s = .ok (m, inp') →
      (∀ index, (Reader.new data m).get fl index = get fl data m index) ∧
      ∀ (first : U64) (out : List U64), out.length < 2 ^ 63 →
        let answer := fun k => get fl data m (first + BitVec.ofNat 64 k)
        (∃ vs, fill fl data m first out = .ok vs ∧
          vs.length = out.length ∧
          ∀ k v, vs[k]? = some v → answer k = .ok v) ∨
        ∃ k e, fill fl data m first out = .err e ∧ k < out.length ∧
          answer k = .err e ∧ ∀ j < k, ∃ v, answer j = .ok v) := by
  constructor
  · intro debugAssertions values s hlen hmin hmax hasc
    exact get_write fl hlen hmin hmax hasc
  · intro data inp inp' n s m hdata _
    refine ⟨reader_get_eq fl hdata m, ?_⟩
    intro first out hlen answer
    rw [fill_eq fl hdata m first hlen]
    exact mapM_range_cases (fun k => get_ne_panic fl hdata m _) out.length

/-- The values 5, 7, 9, 14: the slope is 3.0, and the deltas are 2, 1, 0, 2. -/
theorem write_get_readers_slope :
    let fl : FloatOps :=
      ⟨fun d n => if d = 9#64 ∧ n = 3 then 0x40400000#32 else 0#32,
        fun avg i => if avg = 0x40400000#32 then BitVec.ofNat 64 (3 * i)
          else 0#64⟩
    ∃ metaBytes data m inp,
      write fl true [5#64, 7#64, 9#64, 14#64] 2 = .ok (metaBytes, data) ∧
      loadMeta (SliceInput.new metaBytes) 4#64 2 = .ok (m, inp) ∧
      get fl data m 3#64 = .ok 14#64 ∧
      (Reader.new [0x92#8] m).get fl 1#64 = get fl [0x92#8] m 1#64 := by
  intro fl
  obtain ⟨metaBytes, data, m, inp, hwrite, hload, hget⟩ :=
    (write_get_readers fl).1 true [5#64, 7#64, 9#64, 14#64] 2 (by decide)
      (by decide) (by decide) (by decide)
  exact ⟨metaBytes, data, m, inp, hwrite, hload, hget 3 _ rfl,
    ((write_get_readers fl).2 [0x92#8] _ _ _ _ m (by decide) hload).1 1#64⟩

end LuceneRust.Codecs.DirectMonotonic
