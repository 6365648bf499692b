import LuceneRust.Util.BytesRefHash
import Mathlib.Data.List.Perm.Subperm
import Mathlib.Tactic.IntervalCases

/-!
# The pool of a `BytesRefHash`

`StoredAt pool start bytes` says that a string stands at a byte start, inside
the part of the pool that is written.

* `get_stored` reads it back.
* `addBytesRef_spec` is the write: it fails and leaves the pool as it is, or
  it stores the string, keeps every other one, and uses as many bytes as the
  string and its length take.
-/

namespace LuceneRust.Util

open RustSem
open Packed (Call)

namespace BytesRefBlockPool

variable {pool : BytesRefBlockPool} {start : U32} {bytes : List U8}

/-! ## One string -/

theorem encode_short (h : bytes.length < 128) :
    encode bytes = BitVec.ofNat 8 bytes.length :: bytes := if_pos h

theorem encode_long (h : ¬ bytes.length < 128) :
    encode bytes =
      (BitVec.ofNat 16 bytes.length ||| 0x8000#16).extractLsb' 8 8 ::
        (BitVec.ofNat 16 bytes.length ||| 0x8000#16).extractLsb' 0 8 :: bytes := if_neg h

theorem length_lt_encode (bytes : List U8) :
    bytes.length < (encode bytes).length ∧ (encode bytes).length ≤ bytes.length + 2 := by
  by_cases h : bytes.length < 128
  · rw [encode_short h, List.length_cons]
    omega
  · rw [encode_long h, List.length_cons, List.length_cons]
    omega

theorem and_0x80_ofNat {n : Nat} (h : n < 128) : BitVec.ofNat 8 n &&& 0x80#8 = 0#8 := by
  apply BitVec.eq_of_getLsbD_eq
  intro i hi
  have h7 : n >>> 7 % 2 = 0 := by
    rw [Nat.shiftRight_eq_div_pow]
    omega
  simp only [BitVec.getLsbD_and, BitVec.getLsbD_ofNat]
  interval_cases i <;> simp [h7, Nat.testBit]

/-- The length in two bytes. -/
theorem length_head {n : Nat} (h : n < 32768) :
    ((BitVec.ofNat 16 n ||| 0x8000#16).extractLsb' 8 8 &&& 0x80#8) ≠ 0#8 ∧
      (((BitVec.ofNat 16 n ||| 0x8000#16).extractLsb' 8 8 ++
        (BitVec.ofNat 16 n ||| 0x8000#16).extractLsb' 0 8) &&& 0x7fff#16).toNat = n := by
  have h15 : n >>> 15 % 2 = 0 := by
    rw [Nat.shiftRight_eq_div_pow]
    omega
  constructor
  · intro h0
    have := congrArg (fun x : U8 => x.getLsbD 7) h0
    simp at this
  · have hbits : (((BitVec.ofNat 16 n ||| 0x8000#16).extractLsb' 8 8 ++
        (BitVec.ofNat 16 n ||| 0x8000#16).extractLsb' 0 8) &&& 0x7fff#16) =
          BitVec.ofNat 16 n := by
      apply BitVec.eq_of_getLsbD_eq
      intro i hi
      simp only [BitVec.getLsbD_and, BitVec.getLsbD_append, BitVec.getLsbD_extractLsb',
        BitVec.getLsbD_or, BitVec.getLsbD_ofNat]
      interval_cases i <;> simp [h15, Nat.testBit]
    rw [hbits, BitVec.toNat_ofNat, Nat.mod_eq_of_lt (by omega)]

/-- A string stands at a byte start. -/
structure StoredIn (pool : BytesRefBlockPool) (start : U32) (bytes : List U8)
    (k pos : Nat) (block : List U8) : Prop where
  at_start : asUsize start = byteBlockSize * k + pos
  pos_lt : pos < byteBlockSize
  at_block : pool.blocks[k]? = some block
  short : bytes.length ≤ 32766
  encoded : (block.drop pos).take (encode bytes).length = encode bytes
  room : pos + (encode bytes).length ≤ block.length
  written : k + 1 = pool.blocks.length → pos + (encode bytes).length ≤ pool.byteUpto

/-- A string stands at a byte start, in some block. -/
def StoredAt (pool : BytesRefBlockPool) (start : U32) (bytes : List U8) : Prop :=
  ∃ k pos block, StoredIn pool start bytes k pos block

/-- A stored string is read back. -/
theorem get_stored (h : pool.StoredAt start bytes) : pool.get start = .ok bytes := by
  obtain ⟨k, pos, block, h⟩ := h
  have hpos := h.pos_lt
  have hroom := h.room
  obtain ⟨tail, htail⟩ : ∃ tail, block.drop pos = encode bytes ++ tail := by
    have hcut := List.take_append_drop (encode bytes).length (block.drop pos)
    rw [h.encoded] at hcut
    exact ⟨_, hcut.symm⟩
  have hget : ∀ i, block[pos + i]? = (encode bytes ++ tail)[i]? := by
    intro i
    rw [← htail, List.getElem?_drop]
  have hslice : ∀ n m, (encode bytes ++ tail).drop n = bytes ++ m →
      pos + n + bytes.length ≤ block.length →
      slice block (pos + n) (pos + n + bytes.length) = some bytes := by
    intro n m hn hle
    rw [slice_eq_some (by omega) hle, ← List.drop_drop, htail, hn,
      Nat.add_sub_cancel_left, List.take_left]
  rw [get, h.at_start, Nat.mul_add_div (by decide), Nat.div_eq_of_lt hpos, Nat.add_zero,
    h.at_block, expect_some, ok_bind, Nat.mul_add_mod, Nat.mod_eq_of_lt hpos]
  dsimp only
  by_cases hshort : bytes.length < 128
  · rw [encode_short hshort] at hget hslice hroom
    rw [List.length_cons] at hroom
    have h0 := hget 0
    rw [Nat.add_zero] at h0
    rw [h0, List.cons_append, List.getElem?_cons_zero, expect_some,
      ok_bind, if_pos (and_0x80_ofNat hshort), BitVec.toNat_ofNat,
      Nat.mod_eq_of_lt (by omega), hslice 1 tail rfl (by omega), expect_some]
  · rw [encode_long hshort] at hget hslice hroom
    rw [List.length_cons, List.length_cons] at hroom
    obtain ⟨hmark, hlen⟩ := length_head (n := bytes.length) (by have := h.short; omega)
    have h0 := hget 0
    have h1 := hget 1
    rw [Nat.add_zero] at h0
    rw [h0, List.cons_append, List.getElem?_cons_zero, expect_some,
      ok_bind, if_neg hmark, h1, List.cons_append, List.cons_append,
      List.getElem?_cons_succ, List.getElem?_cons_zero, expect_some,
      ok_bind, hlen, hslice 2 tail rfl (by omega), expect_some]

/-! ## Writing -/

/-- The blocks are whole, and the offset of the head block is an `i32`. -/
structure Wf (pool : BytesRefBlockPool) : Prop where
  whole : ∀ block ∈ pool.blocks, block.length = byteBlockSize
  offset : pool.byteOffset = byteBlockSize * pool.blocks.length - byteBlockSize
  upto : pool.byteUpto ≤ byteBlockSize
  none : pool.blocks = [] → pool.byteUpto = byteBlockSize
  small : pool.blocks.length ≤ 65536

/-- The bytes of the pool that are used. -/
def used (pool : BytesRefBlockPool) : Int := pool.byteOffset + pool.byteUpto

theorem wf_new : new.Wf :=
  ⟨fun _ h => absurd h (by simp [new]), rfl, Nat.le_refl _, fun _ => rfl, by decide⟩

theorem Wf.used_le (h : pool.Wf) : pool.used ≤ 2 ^ 31 := by
  have := h.offset
  have := h.upto
  have := h.small
  simp only [used, byteBlockSize] at *
  omega

/-- There is no room for `bytes` any more: the head block is full, and the
next one would pass 2 GiB. -/
def Full (pool : BytesRefBlockPool) (bytes : List U8) : Prop :=
  byteBlockSize < 2 + bytes.length + pool.byteUpto ∧ pool.blocks.length = 65536

instance : Decidable (Full pool bytes) := inferInstanceAs (Decidable (_ ∧ _))

theorem appendBytes_blocks {pool' : BytesRefBlockPool} {r : HashResult U32}
    (h : pool.appendBytes bytes = .ok (pool', r)) :
    pool'.blocks.length = pool.blocks.length := by
  rw [appendBytes] at h
  cases hlast : pool.blocks.getLast? with
  | none =>
    rw [hlast] at h
    cases h
    rfl
  | some buffer =>
    rw [hlast] at h
    obtain ⟨u, -, h⟩ := bind_eq_ok.1 h
    cases h
    have hpos : pool.blocks ≠ [] := fun hnil => by simp [hnil] at hlast
    have := List.length_pos_iff.2 hpos
    simp only [List.length_append, List.length_dropLast, List.length_singleton]
    omega

/-- A string takes one block more at most. -/
theorem addBytesRef_blocks {pool' : BytesRefBlockPool} {r : HashResult U32}
    (h : pool.addBytesRef bytes = .ok (pool', r)) :
    pool'.blocks.length ≤ pool.blocks.length + 1 := by
  simp only [addBytesRef] at h
  split at h
  · split at h
    · cases h
      exact Nat.le_succ _
    · split at h
      · cases h
        exact Nat.le_succ _
      · rename_i pool₁ hnext
        rw [appendBytes_blocks h]
        rw [nextBuffer] at hnext
        split at hnext
        · cases hnext
        · cases hnext
          simp
  · rw [appendBytes_blocks h]
    exact Nat.le_succ _

/-- `next_buffer`. -/
theorem nextBuffer_spec (h : pool.Wf) :
    if pool.blocks.length = 65536 then pool.nextBuffer = .error .poolOverflow
    else ∃ pool', pool.nextBuffer = .ok pool' ∧ pool'.Wf ∧
      pool'.byteUpto = 0 ∧ pool'.blocks ≠ [] ∧ pool.used ≤ pool'.used ∧
      ∀ s b, pool.StoredAt s b → pool'.StoredAt s b := by
  have hoff := h.offset
  have hsmall := h.small
  have hupto := h.upto
  simp only [byteBlockSize] at hoff hupto
  rw [nextBuffer]
  split
  · rename_i hfull
    rw [if_pos (by simp only [byteBlockSize]; omega)]
  · rename_i hfree
    refine ⟨_, if_neg (by simp only [byteBlockSize]; omega), ⟨?_, ?_, ?_, ?_, ?_⟩, rfl, ?_, ?_, ?_⟩
    · intro block hblock
      rcases List.mem_append.1 hblock with hmem | hmem
      · exact h.whole block hmem
      · rw [List.mem_singleton.1 hmem, List.length_replicate]
    · simp only [List.length_append, List.length_singleton, byteBlockSize]
      omega
    · exact Nat.zero_le _
    · intro hnil
      simp at hnil
    · simp only [List.length_append, List.length_singleton]
      omega
    · simp
    · simp only [used, byteBlockSize]
      omega
    · rintro s b ⟨k, pos, block, hs⟩
      have hk : k < pool.blocks.length := (List.getElem?_eq_some_iff.1 hs.at_block).1
      refine ⟨k, pos, block, hs.at_start, hs.pos_lt, ?_, hs.short, hs.encoded, hs.room, ?_⟩
      · rw [List.getElem?_append_left hk]
        exact hs.at_block
      · simp only [List.length_append, List.length_singleton]
        omega

/-- The write into the head block. -/
theorem appendBytes_spec (h : pool.Wf) (hne : pool.blocks ≠ []) (bytes : List U8)
    (hroom : 2 + bytes.length + pool.byteUpto ≤ byteBlockSize) :
    ∃ pool' start, pool.appendBytes bytes = .ok (pool', .ok start) ∧ pool'.Wf ∧
      pool'.StoredAt start bytes ∧
      pool'.used = pool.used + (encode bytes).length ∧
      ∀ s b, pool.StoredAt s b → pool'.StoredAt s b := by
  obtain ⟨blocks, buffer, hblocks⟩ : ∃ blocks buffer, pool.blocks = blocks ++ [buffer] :=
    ⟨_, _, (List.dropLast_append_getLast hne).symm⟩
  have hoff := h.offset
  have hsmall := h.small
  have hwhole := h.whole
  have henc := length_lt_encode bytes
  rw [hblocks, List.length_append, List.length_singleton] at hoff hsmall
  have hbuffer : buffer.length = byteBlockSize := hwhole buffer (by simp [hblocks])
  have hfits : pool.byteUpto + (encode bytes).length ≤ buffer.length := by omega
  have hstart : asUsize (BitVec.ofInt 32 (pool.byteUpto + pool.byteOffset)) =
      byteBlockSize * blocks.length + pool.byteUpto := by
    simp only [byteBlockSize] at hoff hroom ⊢
    have hval : (pool.byteUpto : Int) + pool.byteOffset =
        ((32768 * blocks.length + pool.byteUpto : Nat) : Int) := by omega
    have hlt : 32768 * blocks.length + pool.byteUpto < 2 ^ 31 := by omega
    rw [hval, BitVec.ofInt_natCast, asUsize, BitVec.signExtend_eq_setWidth_of_msb_false,
      BitVec.toNat_setWidth, BitVec.toNat_ofNat, Nat.mod_eq_of_lt (a := _ % 2 ^ 32),
      Nat.mod_eq_of_lt (by omega)]
    · omega
    · rw [BitVec.msb_eq_decide, BitVec.toNat_ofNat, Nat.mod_eq_of_lt (by omega)]
      simp
      omega
  rw [appendBytes, hblocks, List.getLast?_concat]
  dsimp only
  rw [guardOk_pos hfits, ok_bind, List.dropLast_concat]
  refine ⟨_, _, rfl, ⟨?_, ?_, ?_, ?_, ?_⟩, ?_, ?_, ?_⟩
  · intro block hblock
    rcases List.mem_append.1 hblock with hmem | hmem
    · exact hwhole block (by simp [hblocks, hmem])
    · rw [List.mem_singleton.1 hmem, splice_length hfits, hbuffer]
  · simp only [List.length_append, List.length_singleton]
    exact hoff
  · show pool.byteUpto + (encode bytes).length ≤ byteBlockSize
    omega
  · intro hnil
    simp at hnil
  · simp only [List.length_append, List.length_singleton]
    exact hsmall
  · refine ⟨blocks.length, pool.byteUpto, splice buffer pool.byteUpto (encode bytes), hstart,
      by omega, ?_, ?_, ?_, ?_, fun _ => Nat.le_refl _⟩
    · exact List.getElem?_concat_length
    · simp only [byteBlockSize] at hroom
      omega
    · have hlen : (buffer.take pool.byteUpto).length = pool.byteUpto :=
        List.length_take_of_le (by omega)
      rw [splice, List.drop_left' hlen, List.take_left]
    · rw [splice_length hfits]
      exact hfits
  · simp only [used]
    omega
  · rintro s b ⟨k, pos, block, hs⟩
    have hat := hs.at_block
    have hwritten := hs.written
    rw [hblocks] at hat hwritten
    have hk : k < (blocks ++ [buffer]).length := (List.getElem?_eq_some_iff.1 hat).1
    rw [List.length_append, List.length_singleton] at hk hwritten
    by_cases hhead : k = blocks.length
    · -- the head block: the string stands before what is written now
      subst hhead
      rw [List.getElem?_concat_length] at hat
      cases hat
      have hbefore := hwritten rfl
      refine ⟨blocks.length, pos, splice buffer pool.byteUpto (encode bytes), hs.at_start,
        hs.pos_lt, List.getElem?_concat_length, hs.short, ?_, ?_, ?_⟩
      · refine Eq.trans ?_ hs.encoded
        apply List.ext_getElem?
        intro i
        rw [List.getElem?_take, List.getElem?_take]
        split
        · rw [List.getElem?_drop, List.getElem?_drop, getElem?_splice hfits,
            if_neg (by omega)]
        · rfl
      · rw [splice_length hfits]
        exact hs.room
      · intro _
        show pos + (encode b).length ≤ pool.byteUpto + (encode bytes).length
        omega
    · refine ⟨k, pos, block, hs.at_start, hs.pos_lt, ?_, hs.short, hs.encoded, hs.room, ?_⟩
      · rw [List.getElem?_append_left (by omega)] at hat ⊢
        exact hat
      · simp only [List.length_append, List.length_singleton]
        omega

/-- `add_bytes_ref`. -/
theorem addBytesRef_spec (h : pool.Wf) (bytes : List U8) :
    if 32766 < bytes.length then
      pool.addBytesRef bytes = .ok (pool, .error (.maxBytesLengthExceeded bytes.length))
    else if pool.Full bytes then
      pool.addBytesRef bytes = .ok (pool, .error .poolOverflow)
    else ∃ pool' start, pool.addBytesRef bytes = .ok (pool', .ok start) ∧ pool'.Wf ∧
      pool'.StoredAt start bytes ∧ pool.used + (encode bytes).length ≤ pool'.used ∧
      ∀ s b, pool.StoredAt s b → pool'.StoredAt s b := by
  have hupto := h.upto
  have hnone := h.none
  rw [addBytesRef]
  by_cases hlong : 32766 < bytes.length
  · have hlen2 : byteBlockSize < 2 + bytes.length := by simp only [byteBlockSize]; omega
    rw [if_pos hlong, if_pos (by omega), if_pos hlen2]
  have hlen2 : ¬ byteBlockSize < 2 + bytes.length := by simp only [byteBlockSize]; omega
  rw [if_neg hlong, if_neg hlen2]
  by_cases hfits : byteBlockSize < 2 + bytes.length + pool.byteUpto
  · rw [if_pos hfits]
    have hnext := nextBuffer_spec h
    by_cases hfull : pool.blocks.length = 65536
    · rw [if_pos hfull] at hnext
      rw [if_pos ⟨hfits, hfull⟩, hnext]
    · rw [if_neg hfull] at hnext
      obtain ⟨pool₁, hok, hwf, hzero, hne, hused, hkeep⟩ := hnext
      rw [if_neg fun hF => hfull hF.2, hok]
      obtain ⟨pool₂, start, hrun, hwf₂, hstored, hused₂, hkeep₂⟩ :=
        appendBytes_spec hwf hne bytes (by omega)
      exact ⟨pool₂, start, hrun, hwf₂, hstored, by omega,
        fun s b hs => hkeep₂ s b (hkeep s b hs)⟩
  · rw [if_neg hfits, if_neg fun hF => hfits hF.1]
    have hne : pool.blocks ≠ [] := by
      intro hnil
      have := hnone hnil
      omega
    obtain ⟨pool₂, start, hrun, hwf₂, hstored, hused₂, hkeep₂⟩ :=
      appendBytes_spec h hne bytes (by omega)
    exact ⟨pool₂, start, hrun, hwf₂, hstored, by omega, hkeep₂⟩

/-! ## Counting -/

/-- Strings of at most one byte. -/
theorem short_strings {l : List (List U8)} (hnodup : l.Nodup)
    (hshort : ∀ b ∈ l, b.length ≤ 1) : l.length ≤ 257 := by
  have hsub : l ⊆ [] :: (List.range 256).map fun n => [BitVec.ofNat 8 n] := by
    intro b hb
    match b, hshort b hb with
    | [], _ => exact List.mem_cons_self
    | [x], _ =>
      refine List.mem_cons_of_mem _ (List.mem_map.2 ⟨x.toNat, List.mem_range.2 x.isLt, ?_⟩)
      rw [BitVec.ofNat_toNat, BitVec.setWidth_eq]
    | _ :: _ :: _, hlen => simp at hlen
  simpa using (List.Nodup.subperm hnodup hsub).length_le

/-- Different strings take about three bytes each. -/
theorem three_mul_length_le {l : List (List U8)} (hnodup : l.Nodup) :
    3 * l.length ≤ (l.map fun b => (encode b).length).sum + 771 := by
  have hsplit : ∀ l : List (List U8), 3 * (l.filter fun b => decide (1 < b.length)).length ≤
      (l.map fun b => (encode b).length).sum := by
    intro l
    induction l with
    | nil => exact Nat.le_refl _
    | cons b l ih =>
      have henc := (length_lt_encode b).1
      rw [List.filter_cons, List.map_cons, List.sum_cons]
      split
      · rename_i hb
        rw [decide_eq_true_eq] at hb
        rw [List.length_cons]
        omega
      · omega
  have hshort := short_strings (hnodup.filter fun b => !decide (1 < b.length))
    (fun b hb => by simpa using (List.mem_filter.1 hb).2)
  have hlen := List.length_eq_length_filter_add (l := l) fun b => decide (1 < b.length)
  have := hsplit l
  omega

end BytesRefBlockPool

end LuceneRust.Util
