import LuceneRust.Lib.BlockCodec
import LuceneRust.Util.Packed.BulkBytes

/-!
# `lucene_util::packed::bulk_operation`, encoding to bytes

`encode_bytes` writes values to big-endian bytes, in blocks that hold whole
values.  The format `packed` cuts the values into bytes as it goes; the format
`packedSingleBlock` writes its words.

* `blockBytes` is the code of a list of values, for both formats.
* `encodeBytes_eq` and `decodeBytes_eq` say that the encoder writes the code
  of the values and that the decoder reads it back.
* `blockBytes_lawful`: the code can be streamed block by block.
-/

namespace LuceneRust.Util.Packed

open RustSem ByteTape
open WordTape (valueAt valueAt_mul_add)
open BitStream (IsMask)

/-- `Format.byte_count`. -/
def Format.byteCount : Format → Nat → Nat → Nat
  | .packed, valueCount, bits => packedByteCount valueCount bits
  | .packedSingleBlock, valueCount, bits =>
    saturatingMul (Format.packedSingleBlock.longCount valueCount bits) 8

namespace BulkOperation

/-- `compute_iterations`. -/
def computeIterations (op : BulkOperation) (valueCount ramBudget : Nat) : Nat :=
  let iterations := ramBudget / (op.byteBlockCount + 8 * op.byteValueCount)
  if iterations = 0 then 1
  else if valueCount ≤ (iterations - 1) * op.byteValueCount then
    divCeil valueCount op.byteValueCount
  else iterations

/-! ## `encode_bytes` -/

/-- `blocks[i] = byte`. -/
def setByte (blocks : List U8) (i : Nat) (byte : U8) : Call (List U8) :=
  if i < blocks.length then .ok (blocks.set i byte) else .panic

/-- The state of the loop of `encode_bytes`. -/
structure ByteState where
  nextBlock : U32
  bitsLeft : Nat
  bo : Nat
  blocks : List U8

/-- The inner loop: the bytes that lie inside the value. -/
def bytePass (v : U64) (s : Nat × Nat × List U8) :
    Call ((Nat × Nat × List U8) ⊕ (Nat × Nat × List U8)) :=
  let (bits, bo, blocks) := s
  if 8 ≤ bits then do
    let bits := bits - 8
    let blocks ← setByte blocks bo ((v >>> bits).setWidth 8)
    .ok (.inl (bits, bo + 1, blocks))
  else .ok (.inr (bits, bo, blocks))

/-- One value of `encode_bytes`. -/
def packByte (bpv : Nat) (s : ByteState) (v : U64) : Call ByteState :=
  if bpv < s.bitsLeft then
    .ok { s with
      nextBlock := s.nextBlock ||| (v <<< (s.bitsLeft - bpv)).setWidth 32
      bitsLeft := s.bitsLeft - bpv }
  else do
    let bits := bpv - s.bitsLeft
    let blocks ← setByte s.blocks s.bo ((s.nextBlock.setWidth 64 ||| v >>> bits).setWidth 8)
    let (bits, bo, blocks) ← iterate (bytePass v) 9 (bits, s.bo + 1, blocks)
    let bitsLeft ← sub 8 bits
    .ok ⟨((v &&& ((1#64 <<< bits) - 1#64)) <<< bitsLeft).setWidth 32, bitsLeft, bo, blocks⟩

/-- `u64::to_be_bytes`. -/
def beBytes (v : U64) : List U8 := (toLeBytes 8 v).reverse

/-- One word of `encode_bytes`. -/
def putWord (op : BulkOperation) (values : List U64) (blocks : List U8) (i : Nat) :
    Call (List U8) := do
  let vals ← .expect (sliceFrom values (i * op.longValueCount))
  let block ← encodeSingle op vals
  .guardOk (i * 8 + 8 ≤ blocks.length)
  .ok (splice blocks (i * 8) (beBytes block))

/-- `encode_bytes`: the bytes after the call. -/
def encodeBytes (op : BulkOperation) (values : List U64) (blocks : List U8)
    (iterations : Nat) : Call (List U8) :=
  match op.format with
  | .packed => do
    let vals ← .expect (slice values 0 (op.byteValueCount * iterations))
    let s ← vals.foldlM (packByte op.bitsPerValue) ⟨0#32, 8, 0, blocks⟩
    .guardOk (s.bitsLeft = 8)
    .ok s.blocks
  | .packedSingleBlock => (List.range iterations).foldlM (putWord op values) blocks

/-! ## The codes -/

/-- The tape of the values in bytes. -/
def tapeBytes (w : Nat) (vs : List U64) : List U8 :=
  (List.range (vs.length * w / 8)).map fun e =>
    ofBits (fun k => valueAt vs w (8 * e + (7 - k))) 8

/-- The word of the values `c`, least significant first. -/
def blockWord (w : Nat) (c : List U64) : U64 :=
  ofBits (fun r => decide (r < c.length * w) && (c.getD (r / w) 0).getLsbD (r % w)) 64

/-- The words of the values in bytes. -/
def wordBytes (w : Nat) (vs : List U64) : List U8 :=
  (chunks (64 / w) vs).flatMap fun c => beBytes (blockWord w c)

/-- The code of values that fill whole blocks. -/
def blockBytes (format : Format) (w : Nat) (vs : List U64) : List U8 :=
  match format with
  | .packed => tapeBytes w vs
  | .packedSingleBlock => wordBytes w vs

/-- How many bytes `n` values need. -/
def neededBytes (format : Format) (w n : Nat) : Nat :=
  match format with
  | .packed => (n * w + 7) / 8
  | .packedSingleBlock => 8 * divCeil n (64 / w)

@[simp] theorem beBytes_length (v : U64) : (beBytes v).length = 8 := by
  rw [beBytes, List.length_reverse, toLeBytes_length]

theorem fromBeBytes (v : U64) : fromLeBytes 64 (beBytes v).reverse = v := by
  rw [beBytes, List.reverse_reverse, fromLeBytes_toLeBytes 8 v (by decide)]

/-! ### The tape -/

section Tape

variable {w : Nat} {vs : List U64} {bs : List U8}

theorem tapeBytes_length (w : Nat) (vs : List U64) :
    (tapeBytes w vs).length = vs.length * w / 8 := by
  rw [tapeBytes, List.length_map, List.length_range]

theorem bitAt_tapeBytes (w : Nat) (vs : List U64) {p : Nat} (hp : p < 8 * (vs.length * w / 8)) :
    bitAt (tapeBytes w vs) p = valueAt vs w p := by
  have hlt : p / 8 < vs.length * w / 8 := by omega
  rw [bitAt, List.getD_eq_getElem?_getD, tapeBytes, List.getElem?_map, List.getElem?_range hlt,
    Option.map_some, Option.getD_some, getLsbD_ofBits,
    show 8 * (p / 8) + (7 - (7 - p % 8)) = p by omega]
  simp [show 7 - p % 8 < 8 by omega]

/-- Bytes are known by their bits. -/
theorem eq_of_bitAt {as : List U8} (hlen : as.length = bs.length)
    (h : ∀ p < 8 * bs.length, bitAt as p = bitAt bs p) : as = bs := by
  apply List.ext_getElem hlen
  intro e ha hb
  apply BitVec.eq_of_getLsbD_eq
  intro k hk
  have hbit := h (8 * e + (7 - k)) (by omega)
  rw [bitAt_byte _ _ (by omega), bitAt_byte _ _ (by omega), List.getD_eq_getElem _ _ ha,
    List.getD_eq_getElem _ _ hb, show 7 - (7 - k) = k by omega] at hbit
  exact hbit

theorem eq_tapeBytes (hlen : bs.length = vs.length * w / 8)
    (h : ∀ p < 8 * bs.length, bitAt bs p = valueAt vs w p) : bs = tapeBytes w vs := by
  apply eq_of_bitAt
  · rw [hlen, tapeBytes_length]
  · intro p hp
    rw [tapeBytes_length] at hp
    rw [h p (by omega), bitAt_tapeBytes w vs hp]

theorem valueAt_append {as : List U64} (hw : 0 < w) (bs : List U64) (p : Nat) :
    valueAt (as ++ bs) w p =
      if p < as.length * w then valueAt as w p else valueAt bs w (p - as.length * w) := by
  by_cases hp : p < as.length * w
  · have htake := WordTape.valueAt_take (as ++ bs) hp
    rw [List.take_left] at htake
    rw [if_pos hp, htake]
  · have hdrop := WordTape.valueAt_drop hw (as ++ bs) as.length (p - as.length * w)
    rw [List.drop_left, show as.length * w + (p - as.length * w) = p by omega] at hdrop
    rw [if_neg hp, hdrop]

theorem tapeBytes_append {as : List U64} {j : Nat} (hw : 0 < w) (ha : as.length * w = 8 * j)
    (bs : List U64) : tapeBytes w (as ++ bs) = tapeBytes w as ++ tapeBytes w bs := by
  have hla : (tapeBytes w as).length = j := by
    rw [tapeBytes_length]
    omega
  have hlen : (as ++ bs).length * w = 8 * j + bs.length * w := by
    rw [List.length_append, Nat.add_mul, ha]
  symm
  apply eq_tapeBytes
  · rw [List.length_append, hla, tapeBytes_length, hlen]
    omega
  · intro p hp
    rw [List.length_append, hla, tapeBytes_length] at hp
    rw [valueAt_append hw, ha]
    by_cases hlt : p < 8 * j
    · rw [if_pos hlt, bitAt_append_left _ (by omega), bitAt_tapeBytes w as (by omega)]
    · have hdrop := bitAt_drop (tapeBytes w as ++ tapeBytes w bs) (p := p - 8 * j) (n := j)
      rw [← hla, List.drop_left, hla, show 8 * j + (p - 8 * j) = p by omega] at hdrop
      rw [if_neg hlt, ← hdrop, bitAt_tapeBytes w bs (by omega)]

/-- Values of zero are bytes of zero. -/
theorem tapeBytes_zeros (hw : 0 < w) (vs : List U64) {m k : Nat}
    (hk : (vs.length + m) * w = 8 * k) :
    (tapeBytes w (vs ++ List.replicate m 0#64)).drop ((vs.length * w + 7) / 8) =
      List.replicate (k - (vs.length * w + 7) / 8) 0#8 := by
  have hlen : (tapeBytes w (vs ++ List.replicate m 0#64)).length = k := by
    rw [tapeBytes_length, List.length_append, List.length_replicate, hk]
    omega
  apply eq_of_bitAt
  · rw [List.length_drop, hlen, List.length_replicate]
  · intro p hp
    rw [List.length_replicate] at hp
    have hbit := bitAt_tapeBytes w (vs ++ List.replicate m 0#64)
      (p := 8 * ((vs.length * w + 7) / 8) + p)
      (by rw [List.length_append, List.length_replicate, hk]; omega)
    rw [bitAt_drop, hbit, bitAt_replicate_zero, valueAt_append hw, if_neg (by omega), valueAt,
      WordTape.getD_replicate_zero]
    exact BitVec.getLsbD_zero

end Tape

/-! ### The encoder of the format `packed` -/

section Packed

variable {w : Nat} {vals : List U64} {blocks cur : List U8} {bo : Nat}

/-- The bytes before `bo` hold the tape of the values, and the others are as
they were. -/
structure Encoded (w : Nat) (vals : List U64) (blocks : List U8) (bo : Nat) (cur : List U8) :
    Prop where
  len : cur.length = blocks.length
  done : ∀ p < 8 * bo, bitAt cur p = valueAt vals w p
  rest : cur.drop bo = blocks.drop bo

/-- One byte more. -/
theorem Encoded.put (h : Encoded w vals blocks bo cur) (hbo : bo < blocks.length) {byte : U8}
    (hbyte : ∀ r < 8, byte.getLsbD (7 - r) = valueAt vals w (8 * bo + r)) :
    setByte cur bo byte = .ok (cur.set bo byte) ∧
      Encoded w vals blocks (bo + 1) (cur.set bo byte) := by
  have hlt : bo < cur.length := by
    rw [h.len]
    exact hbo
  refine ⟨if_pos hlt, by rw [List.length_set, h.len], ?_, ?_⟩
  · intro p hp
    by_cases hpe : p / 8 = bo
    · rw [bitAt, hpe, List.getD_eq_getElem?_getD, List.getElem?_set_self hlt, Option.getD_some,
        hbyte _ (by omega)]
      congr 1
      omega
    · rw [bitAt, List.getD_eq_getElem?_getD, List.getElem?_set_ne (Ne.symm hpe),
        ← List.getD_eq_getElem?_getD, ← bitAt, h.done p (by omega)]
  · have hrest := congrArg (List.drop 1) h.rest
    rw [List.drop_drop, List.drop_drop] at hrest
    rw [List.drop_set_of_lt (Nat.lt_succ_self bo), hrest]

/-- The encoder after `i` of the values: the bytes before `bo` are written,
and `nextBlock` holds what the next one starts with. -/
structure ByteInv (w : Nat) (vals : List U64) (blocks : List U8) (i : Nat) (s : ByteState) :
    Prop where
  pos : i * w + s.bitsLeft = 8 * s.bo + 8
  lo : 1 ≤ s.bitsLeft
  hi : s.bitsLeft ≤ 8
  written : Encoded w vals blocks s.bo s.blocks
  next : ∀ r < 8, s.nextBlock.getLsbD (7 - r) =
    (decide (8 * s.bo + r < i * w) && valueAt vals w (8 * s.bo + r))

/-- The inner loop writes the bytes that lie inside value `i`, up to the last
`bits` of its bits. -/
theorem bytePass_spec {i : Nat} {v : U64} (hv : vals[i]? = some v) (hw : w ≤ 64)
    (hlen : i * w + w ≤ 8 * blocks.length) {bits : Nat} (hbits : bits + 1 ≤ w)
    (hpos : 8 * bo + bits = i * w + w) (h : Encoded w vals blocks bo cur) :
    ∃ bits' bo' cur', iterate (bytePass v) 9 (bits, bo, cur) = .ok (bits', bo', cur') ∧
      bits' < 8 ∧ 8 * bo' + bits' = i * w + w ∧ Encoded w vals blocks bo' cur' := by
  have hrun := iterate_ok (bytePass v)
    (fun s => s.1 ≤ bits ∧ 8 * s.2.1 + s.1 = i * w + w ∧ Encoded w vals blocks s.2.1 s.2.2)
    (fun s => s.1 / 8)
    (fun s => s.1 < 8 ∧ 8 * s.2.1 + s.1 = i * w + w ∧ Encoded w vals blocks s.2.1 s.2.2)
    ?_ 9 (bits, bo, cur) ⟨Nat.le_refl _, hpos, h⟩ (by dsimp only; omega)
  · obtain ⟨⟨bits', bo', cur'⟩, hrun, hlt, hpos', h'⟩ := hrun
    exact ⟨bits', bo', cur', hrun, hlt, hpos', h'⟩
  rintro ⟨b, o, c⟩ ⟨hb, hp, hc⟩
  unfold bytePass
  dsimp only at hb hp hc ⊢
  by_cases h8 : 8 ≤ b
  · left
    have hbyte : ∀ r < 8, ((v >>> (b - 8)).setWidth 8).getLsbD (7 - r) =
        valueAt vals w (8 * o + r) := by
      intro r hr
      have hval := valueAt_mul_add vals i (show 8 * o + r - i * w < w by omega)
      rw [List.getD_eq_getElem?_getD, hv, Option.getD_some,
        show i * w + (8 * o + r - i * w) = 8 * o + r by omega] at hval
      rw [hval, BitVec.getLsbD_setWidth, BitVec.getLsbD_ushiftRight,
        show b - 8 + (7 - r) = w - 1 - (8 * o + r - i * w) by omega]
      simp [show 7 - r < 8 by omega]
    obtain ⟨hset, hput⟩ := hc.put (by omega) hbyte
    refine ⟨(b - 8, o + 1, c.set o ((v >>> (b - 8)).setWidth 8)), ?_, ⟨?_, ?_, hput⟩, ?_⟩
    · rw [if_pos h8, hset, ok_bind]
    · dsimp only
      omega
    · dsimp only
      omega
    · dsimp only
      omega
  · right
    exact ⟨(b, o, c), if_neg h8, by omega, hp, hc⟩

/-- One value of the encoder. -/
theorem packByte_step {i : Nat} {v : U64} {s : ByteState} (hw : 1 ≤ w) (hw' : w ≤ 64)
    (h : ByteInv w vals blocks i s) (hv : vals[i]? = some v) (hfit : v.toNat < 2 ^ w)
    (hlen : (i + 1) * w ≤ 8 * blocks.length) :
    ∃ s', packByte w s v = .ok s' ∧ ByteInv w vals blocks (i + 1) s' := by
  obtain ⟨nextBlock, bitsLeft, bo, cur⟩ := s
  obtain ⟨hpos, hlo, hhi, hwr, hnext⟩ := h
  dsimp only at hpos hlo hhi hwr hnext
  have hmul : (i + 1) * w = i * w + w := by rw [Nat.add_mul, Nat.one_mul]
  have hval : ∀ p, i * w ≤ p → p < i * w + w →
      valueAt vals w p = v.getLsbD (w - 1 - (p - i * w)) := by
    intro p hlo hhi
    have hget := valueAt_mul_add vals i (show p - i * w < w by omega)
    rw [List.getD_eq_getElem?_getD, hv, Option.getD_some,
      show i * w + (p - i * w) = p by omega] at hget
    exact hget
  unfold packByte
  dsimp only
  by_cases hlt : w < bitsLeft
  · rw [if_pos hlt]
    refine ⟨_, rfl, ⟨by dsimp only; omega, by dsimp only; omega, by dsimp only; omega, hwr, ?_⟩⟩
    intro r hr
    dsimp only
    rw [BitVec.getLsbD_or, hnext r hr, BitVec.getLsbD_setWidth, BitVec.getLsbD_shiftLeft, hmul]
    by_cases h1 : 8 * bo + r < i * w
    · rw [WordTape.getLsbD_eq_false_of_lt hfit (by omega)]
      simp [h1, show 8 * bo + r < i * w + w by omega]
    · by_cases h2 : 8 * bo + r < i * w + w
      · rw [hval _ (by omega) h2,
          show 7 - r - (bitsLeft - w) = w - 1 - (8 * bo + r - i * w) by omega]
        simp [h1, h2, show 7 - r < 32 by omega, show 7 - r < 64 by omega,
          show ¬ 7 - r < bitsLeft - w by omega]
      · simp [h1, h2, show 7 - r < bitsLeft - w by omega]
  · have hbyte : ∀ r < 8,
        ((nextBlock.setWidth 64 ||| v >>> (w - bitsLeft)).setWidth 8).getLsbD (7 - r) =
          valueAt vals w (8 * bo + r) := by
      intro r hr
      rw [BitVec.getLsbD_setWidth, BitVec.getLsbD_or, BitVec.getLsbD_setWidth, hnext r hr,
        BitVec.getLsbD_ushiftRight]
      by_cases h1 : 8 * bo + r < i * w
      · rw [WordTape.getLsbD_eq_false_of_lt hfit (by omega)]
        simp [h1, show 7 - r < 8 by omega, show 7 - r < 64 by omega]
      · rw [hval (8 * bo + r) (by omega) (by omega),
          show w - bitsLeft + (7 - r) = w - 1 - (8 * bo + r - i * w) by omega]
        simp [h1, show 7 - r < 8 by omega]
    obtain ⟨hset, hput⟩ := hwr.put (by omega) hbyte
    obtain ⟨bits, bo', cur', hrun, hb8, hbpos, hwr'⟩ := bytePass_spec hv hw' (by omega)
      (show w - bitsLeft + 1 ≤ w by omega) (by omega) hput
    rw [if_neg hlt, hset, ok_bind, hrun, ok_bind]
    dsimp only
    rw [sub_of_le (by omega), ok_bind]
    refine ⟨_, rfl, ⟨by dsimp only; omega, by dsimp only; omega, by dsimp only; omega, hwr', ?_⟩⟩
    intro r hr
    dsimp only
    have hmask := isMask_ones (n := bits) (by omega)
    rw [BitVec.getLsbD_setWidth, BitVec.getLsbD_shiftLeft, BitVec.getLsbD_and,
      hmask _ (by omega), hmul]
    by_cases h1 : 8 * bo' + r < i * w + w
    · rw [hval _ (by omega) h1,
        show 7 - r - (8 - bits) = w - 1 - (8 * bo' + r - i * w) by omega]
      simp [h1, show 7 - r < 32 by omega, show 7 - r < 64 by omega,
        show ¬ 7 - r < 8 - bits by omega, show w - 1 - (8 * bo' + r - i * w) < bits by omega]
    · simp [h1, show 7 - r < 8 - bits by omega]

/-- The encoder writes the tape of the values. -/
theorem encodeBytes_packed {op : BulkOperation} {values : List U64} (blocks : List U8)
    (iterations : Nat) (hf : op.format = .packed) (hbits : op.bitsPerValue = w) (hw : 1 ≤ w)
    (hw' : w ≤ 64) (hgeo : op.byteValueCount * w = 8 * op.byteBlockCount)
    (hfits : ∀ v ∈ values, v.toNat < 2 ^ w)
    (hvalues : iterations * op.byteValueCount ≤ values.length)
    (hblocks : iterations * op.byteBlockCount ≤ blocks.length) :
    op.encodeBytes values blocks iterations =
      .ok (tapeBytes w (values.take (iterations * op.byteValueCount)) ++
        blocks.drop (iterations * op.byteBlockCount)) := by
  have hn : iterations * op.byteValueCount * w = 8 * (iterations * op.byteBlockCount) := by
    rw [Nat.mul_assoc, hgeo, Nat.mul_left_comm]
  generalize hcount : iterations * op.byteValueCount = n at hn hvalues ⊢
  generalize iterations * op.byteBlockCount = m at hn hblocks ⊢
  have hlen : (values.take n).length = n := List.length_take_of_le hvalues
  obtain ⟨s, hrun, hinv⟩ := foldlM_visited
    (fun seen s => ByteInv w (values.take n) blocks seen.length s) (values.take n)
    (by
      rintro seen v s ⟨rest, hrest⟩ hinv
      have hv : (values.take n)[seen.length]? = some v := by
        rw [hrest, List.getElem?_append_right (Nat.le_refl _), Nat.sub_self]
        rfl
      have hlt : seen.length + 1 ≤ n := by
        rw [← hlen]
        exact (List.getElem?_eq_some_iff.1 hv).1
      have hmul := Nat.mul_le_mul_right w hlt
      rw [List.length_append, List.length_singleton]
      exact packByte_step hw hw' hinv hv
        (hfits v (List.mem_of_mem_take (List.mem_of_getElem? hv))) (by omega))
    ⟨0#32, 8, 0, blocks⟩
    ⟨by simp, Nat.le_add_left 1 7, Nat.le_refl 8, ⟨rfl, by simp, rfl⟩, by simp⟩
  obtain ⟨hpos, hlo, hhi, hwr, -⟩ := hinv
  rw [hlen] at hpos
  have hbo : s.bo = m := by omega
  have hleft : s.bitsLeft = 8 := by omega
  have htake : s.blocks.take m = tapeBytes w (values.take n) := by
    apply eq_tapeBytes
    · rw [List.length_take, hwr.len, hlen]
      omega
    · intro p hp
      rw [List.length_take, hwr.len] at hp
      rw [bitAt_take _ (by omega), hwr.done p (by omega)]
  simp only [encodeBytes, hf, hbits]
  rw [Nat.mul_comm op.byteValueCount, hcount, slice_eq_some (Nat.zero_le _) hvalues,
    expect_some, ok_bind, List.drop_zero, Nat.sub_zero, hrun, ok_bind,
    guardOk_pos hleft, ok_bind, ← htake, ← hbo, ← hwr.rest, List.take_append_drop]

end Packed

/-! ### The words of the format `packedSingleBlock` -/

section Single

variable {op : BulkOperation} {w per : Nat} {values : List U64}

/-- A word is known by its bits. -/
theorem eq_blockWord {block : U64} (hw : 1 ≤ w) (hper : per ≤ values.length)
    (h : HoldsFirst w values per block) : block = blockWord w (values.take per) := by
  apply BitVec.eq_of_getLsbD_eq
  intro r hr
  rw [h r hr, blockWord, getLsbD_ofBits, List.length_take_of_le hper]
  by_cases hlt : r < per * w
  · have hdiv : r / w < per := by rwa [Nat.div_lt_iff_lt_mul hw]
    rw [List.getD_eq_getElem?_getD, List.getD_eq_getElem?_getD, List.getElem?_take_of_lt hdiv]
    simp [hr, hlt]
  · simp [hlt]

theorem decodeSingle_blockWord (hbits : op.bitsPerValue = w) (hmask : IsMask op.mask w)
    (hper : per * w ≤ 64) {c : List U64} (hc : c.length = per)
    (hfits : ∀ v ∈ c, v.toNat < 2 ^ w) : decodeSingle op per (blockWord w c) = c := by
  apply List.ext_getElem?
  intro j
  by_cases hj : j < per
  · have hjc : j < c.length := by omega
    have hslot := WordTape.slot_le hper hj
    have hmul := Nat.mul_le_mul_right w (Nat.succ_le_of_lt hj)
    rw [Nat.succ_mul] at hmul
    rw [decodeSingle_getElem? op per _ j hj, List.getElem?_eq_getElem hjc, hbits]
    congr 1
    apply BitVec.eq_of_getLsbD_eq
    intro k hk
    rw [BitVec.getLsbD_and, BitVec.getLsbD_ushiftRight, hmask k hk, blockWord, getLsbD_ofBits, hc]
    by_cases hkw : k < w
    · rw [WordTape.slot_div hkw, WordTape.slot_mod hkw, List.getD_eq_getElem _ _ hjc]
      simp [hkw, show j * w + k < 64 by omega, show j * w + k < per * w by omega]
    · rw [WordTape.getLsbD_eq_false_of_lt (hfits _ (List.getElem_mem hjc)) (by omega)]
      simp [hkw]
  · rw [List.getElem?_eq_none (by rw [decodeSingle_length]; omega),
      List.getElem?_eq_none (by omega)]

/-- Whole blocks in front are chunks of their own. -/
theorem chunks_append_mul {n : Nat} (hn : 0 < n) (k : Nat) :
    ∀ {a : List U64} (b : List U64), a.length = k * n →
      chunks n (a ++ b) = chunks n a ++ chunks n b := by
  induction k with
  | zero =>
    intro a b ha
    have : a = [] := List.length_eq_zero_iff.1 (by omega)
    rw [this, chunks_nil hn, List.nil_append, List.nil_append]
  | succ k ih =>
    intro a b ha
    rw [Nat.succ_mul] at ha
    have htake : (a.take n).length = n := List.length_take_of_le (by omega)
    have hdrop : (a.drop n).length = k * n := by
      rw [List.length_drop]
      omega
    have hsplit := List.take_append_drop n a
    have hboth : chunks n a = a.take n :: chunks n (a.drop n) := by
      rw [← chunks_append hn htake, hsplit]
    rw [hboth, ← hsplit, List.append_assoc, chunks_append hn htake, hsplit, ih b hdrop,
      List.cons_append]

theorem wordBytes_nil (hper : 0 < 64 / w) : wordBytes w [] = [] := by
  rw [wordBytes, chunks_nil hper, List.flatMap_nil]

theorem wordBytes_append {k : Nat} (hper : 0 < 64 / w) {a : List U64}
    (ha : a.length = k * (64 / w)) (b : List U64) :
    wordBytes w (a ++ b) = wordBytes w a ++ wordBytes w b := by
  rw [wordBytes, chunks_append_mul hper k b ha, List.flatMap_append]
  rfl

theorem wordBytes_cons {c : List U64} (hper : 0 < 64 / w) (hc : c.length = 64 / w)
    (l : List U64) : wordBytes w (c ++ l) = beBytes (blockWord w c) ++ wordBytes w l := by
  rw [wordBytes, chunks_append hper hc, List.flatMap_cons]
  rfl

theorem wordBytes_length (hper : 0 < 64 / w) (k : Nat) :
    ∀ {vs : List U64}, vs.length = k * (64 / w) → (wordBytes w vs).length = k * 8 := by
  intro vs hvs
  have hcount : (chunks (64 / w) vs).length = k := by
    rw [chunks, List.length_map, List.length_range, hvs]
    apply Nat.div_eq_of_lt_le
    · omega
    · rw [Nat.succ_mul]
      omega
  have hbytes := List.length_flatMap (l := chunks (64 / w) vs) (f := fun c => beBytes (blockWord w c))
  rw [wordBytes, hbytes]
  simp only [beBytes_length]
  rw [List.map_const', hcount, List.sum_replicate_nat]

/-- The encoder writes the words of the values. -/
theorem encodeBytes_single (blocks : List U8) (iterations : Nat)
    (hf : op.format = .packedSingleBlock) (hbits : op.bitsPerValue = w)
    (hcount : op.longValueCount = 64 / w) (hw : 1 ≤ w) (hper : 0 < 64 / w)
    (hfits : ∀ v ∈ values, v.toNat < 2 ^ w) (hvalues : iterations * (64 / w) ≤ values.length)
    (hblocks : iterations * 8 ≤ blocks.length) :
    op.encodeBytes values blocks iterations =
      .ok (wordBytes w (values.take (iterations * (64 / w))) ++ blocks.drop (iterations * 8)) := by
  suffices h : ∀ n ≤ iterations, (List.range n).foldlM (putWord op values) blocks =
      .ok (wordBytes w (values.take (n * (64 / w))) ++ blocks.drop (n * 8)) by
    simp only [encodeBytes, hf]
    exact h iterations (Nat.le_refl _)
  intro n
  induction n with
  | zero =>
    intro _
    rw [Nat.zero_mul, Nat.zero_mul, List.take_zero, List.drop_zero, wordBytes_nil hper]
    rfl
  | succ n ih =>
    intro hn
    have hmul := Nat.mul_le_mul_right (64 / w) hn
    rw [Nat.succ_mul] at hmul
    have hroom : n * (64 / w) + 64 / w ≤ values.length := hmul.trans hvalues
    have hle : n * (64 / w) ≤ values.length := (Nat.le_add_right _ _).trans hroom
    have hrest : 64 / w ≤ (values.drop (n * (64 / w))).length := by
      rw [List.length_drop]
      exact Nat.le_sub_of_add_le' hroom
    have hfirst : (values.take (n * (64 / w))).length = n * (64 / w) :=
      List.length_take_of_le hle
    obtain ⟨block, henc, hblock⟩ := @encodeSingle_spec op _ (values.drop (n * (64 / w))) hbits
      hw (by rw [hcount]; exact hper) (fun v hv => hfits v (List.mem_of_mem_drop hv))
      (by rw [hcount]; exact hrest)
    rw [hcount] at hblock
    have hword := eq_blockWord hw hrest hblock
    have hlen := wordBytes_length hper n hfirst
    have hsplice : splice (wordBytes w (values.take (n * (64 / w))) ++ blocks.drop (n * 8)) (n * 8)
        (beBytes block) = wordBytes w (values.take (n * (64 / w))) ++
          (beBytes block ++ blocks.drop ((n + 1) * 8)) := by
      rw [← hlen, splice_append, beBytes_length, List.drop_drop, hlen, List.append_assoc,
        Nat.succ_mul]
    have htake : values.take ((n + 1) * (64 / w)) =
        values.take (n * (64 / w)) ++ (values.drop (n * (64 / w))).take (64 / w) := by
      rw [Nat.succ_mul, List.take_add]
    have hlast : wordBytes w ((values.drop (n * (64 / w))).take (64 / w)) = beBytes block := by
      have hcons := wordBytes_cons hper (c := (values.drop (n * (64 / w))).take (64 / w))
        (List.length_take_of_le hrest) []
      rw [List.append_nil, wordBytes_nil hper, List.append_nil] at hcons
      rw [hcons, hword]
    rw [List.range_succ, List.foldlM_append, ih (by omega), ok_bind, List.foldlM_cons,
      putWord, hcount, sliceFrom, if_pos hle, expect_some, ok_bind, henc,
      ok_bind, guardOk_pos (by rw [List.length_append, hlen, List.length_drop]; omega),
      ok_bind, hsplice, ok_bind, htake, wordBytes_append hper hfirst, hlast,
      List.append_assoc]
    rfl

/-- The decoder reads the words back. -/
theorem decodeBytes_single {slots : List U64} {vs : List U64} (tail : List U8) (iterations : Nat)
    (hf : op.format = .packedSingleBlock) (hbits : op.bitsPerValue = w)
    (hcount : op.longValueCount = 64 / w) (hmask : IsMask op.mask w) (hper : 0 < 64 / w)
    (hfits : ∀ v ∈ vs, v.toNat < 2 ^ w) (hvs : vs.length = iterations * (64 / w))
    (hslots : iterations * (64 / w) ≤ slots.length) :
    op.decodeBytes (wordBytes w vs ++ tail) slots iterations =
      .ok (vs ++ slots.drop (iterations * (64 / w))) := by
  have hlen := wordBytes_length hper iterations hvs
  have hperw : 64 / w * w ≤ 64 := Nat.div_mul_le_self 64 w
  have hchunks : chunks 8 (wordBytes w vs) =
      (chunks (64 / w) vs).map fun c => beBytes (blockWord w c) := by
    rw [wordBytes]
    exact chunks_flatMap (by decide) (fun c => beBytes_length _) _
  simp only [decodeBytes, hf, hcount]
  rw [slice_eq_some (Nat.zero_le _) (by rw [List.length_append]; omega), expect_some,
    ok_bind, guardOk_pos hslots, ok_bind, List.drop_zero, Nat.sub_zero,
    ← hlen, List.take_left, hchunks, List.flatMap_map]
  congr 2
  have hid : ∀ c ∈ chunks (64 / w) vs,
      decodeSingle op (64 / w) (fromLeBytes 64 (beBytes (blockWord w c)).reverse) = c := by
    intro c hc
    obtain ⟨b, hb, rfl⟩ := List.mem_map.1 hc
    rw [List.mem_range, hvs, Nat.lt_div_iff_mul_lt hper] at hb
    have hb' : b < iterations := by
      apply Nat.lt_of_mul_lt_mul_right (a := 64 / w)
      omega
    have hmul := Nat.mul_le_mul_right (64 / w) (Nat.succ_le_of_lt hb')
    rw [Nat.succ_mul] at hmul
    rw [fromBeBytes, decodeSingle_blockWord hbits hmask hperw
      (by rw [List.length_take, List.length_drop]; omega)
      (fun v hv => hfits v (List.mem_of_mem_drop (List.mem_of_mem_take hv)))]
  calc (chunks (64 / w) vs).flatMap (fun c =>
        decodeSingle op (64 / w) (fromLeBytes 64 (beBytes (blockWord w c)).reverse))
      = (chunks (64 / w) vs).flatMap id := List.flatMap_congr hid
    _ = vs := by rw [List.flatMap_id, chunks_flatten hper]

end Single

/-! ## Both formats -/

theorem divCeil_mul_add {n : Nat} (hn : 0 < n) (k r : Nat) :
    divCeil (k * n + r) n = k + divCeil r n := by
  rw [divCeil, divCeil, Nat.mul_comm, Nat.mul_add_div hn, Nat.mul_add_mod, Nat.add_assoc]

theorem tapeBytes_lawful {w per width : Nat} (hw : 1 ≤ w) (hper : 0 < per)
    (hgeo : per * w = 8 * width) :
    BlockCodec.Lawful 0#64 0#8 per width (neededBytes .packed w) (blockBytes .packed w) := by
  have hmul : ∀ k, k * per * w = 8 * (k * width) := by
    intro k
    rw [Nat.mul_assoc, hgeo, Nat.mul_left_comm]
  refine ⟨hper, ?_, ?_, ?_, ?_, ?_⟩
  · intro k vs hvs
    have hk := hmul k
    rw [← hvs] at hk
    change (tapeBytes w vs).length = _
    rw [tapeBytes_length]
    omega
  · intro k a b ha
    exact tapeBytes_append hw (by rw [ha, hmul]) b
  · intro k r
    have hk := hmul k
    change ((k * per + r) * w + 7) / 8 = k * width + (r * w + 7) / 8
    rw [Nat.add_mul]
    omega
  · intro r hr
    have hle := Nat.mul_le_mul_right w hr
    change (r * w + 7) / 8 ≤ width
    omega
  · intro k m vs hk
    exact tapeBytes_zeros hw vs (by rw [hk, hmul])

theorem blockWord_zeros (w n : Nat) : blockWord w (List.replicate n 0#64) = 0#64 := by
  apply BitVec.eq_of_getLsbD_eq
  intro r _
  rw [blockWord, getLsbD_ofBits, WordTape.getD_replicate_zero]
  simp

theorem wordBytes_zeros {w : Nat} (hper : 0 < 64 / w) (k : Nat) :
    wordBytes w (List.replicate (k * (64 / w)) 0#64) = List.replicate (k * 8) 0#8 := by
  induction k with
  | zero => rw [Nat.zero_mul, Nat.zero_mul, List.replicate_zero, List.replicate_zero, wordBytes_nil hper]
  | succ k ih =>
    rw [Nat.succ_mul, Nat.add_comm, ← List.replicate_append_replicate,
      wordBytes_cons hper List.length_replicate, ih, blockWord_zeros, Nat.succ_mul, Nat.add_comm,
      ← List.replicate_append_replicate]
    rfl

theorem wordBytes_lawful {w : Nat} (hper : 0 < 64 / w) :
    BlockCodec.Lawful 0#64 0#8 (64 / w) 8 (neededBytes .packedSingleBlock w)
      (blockBytes .packedSingleBlock w) := by
  refine ⟨hper, ?_, ?_, ?_, ?_, ?_⟩
  · intro k vs hvs
    exact wordBytes_length hper k hvs
  · intro k a b ha
    exact wordBytes_append hper ha b
  · intro k r
    change 8 * divCeil (k * (64 / w) + r) (64 / w) = k * 8 + 8 * divCeil r (64 / w)
    rw [divCeil_mul_add hper]
    omega
  · intro r hr
    have hlt := mul_divCeil_lt r hper
    change 8 * divCeil r (64 / w) ≤ 8
    have hle : divCeil r (64 / w) < 2 := by
      apply Nat.lt_of_mul_lt_mul_left (a := 64 / w)
      rw [Nat.mul_comm _ 2, Nat.two_mul]
      exact hlt.trans_le (Nat.add_le_add_right hr _)
    omega
  · intro k m vs hk
    have hle := le_mul_divCeil vs.length hper
    have hlt := mul_divCeil_lt vs.length hper
    change (wordBytes w (vs ++ List.replicate m 0#64)).drop (8 * divCeil vs.length (64 / w)) = 
      List.replicate (k * 8 - 8 * divCeil vs.length (64 / w)) 0#8
    generalize divCeil vs.length (64 / w) = j at hle hlt
    rw [Nat.mul_comm] at hle hlt
    have hjk : j ≤ k := by
      have hjk : j < k + 1 := by
        apply Nat.lt_of_mul_lt_mul_right (a := 64 / w)
        rw [Nat.succ_mul]
        exact hlt.trans_le (Nat.add_le_add_right (by rw [← hk]; exact Nat.le_add_right _ _) _)
      exact Nat.le_of_lt_succ hjk
    obtain ⟨i, rfl⟩ := Nat.le.dest hjk
    have hm : m = (j * (64 / w) - vs.length) + i * (64 / w) := by
      rw [Nat.add_mul] at hk
      omega
    have hfirst : (vs ++ List.replicate (j * (64 / w) - vs.length) 0#64).length = j * (64 / w) := by
      rw [List.length_append, List.length_replicate]
      exact Nat.add_sub_cancel' hle
    have hlen := wordBytes_length hper j hfirst
    rw [hm, ← List.replicate_append_replicate, ← List.append_assoc,
      wordBytes_append hper hfirst, List.drop_left' (by omega), wordBytes_zeros hper]
    congr 1
    omega

/-- The operation of a format and a width codes values as `blockBytes` does. -/
structure Codes (op : BulkOperation) (format : Format) (w : Nat) : Prop where
  format_eq : op.format = format
  bits_eq : op.bitsPerValue = w
  one_le : 1 ≤ w
  le_64 : w ≤ 64
  lawful : BlockCodec.Lawful 0#64 0#8 op.byteValueCount op.byteBlockCount
    (neededBytes format w) (blockBytes format w)
  small : op.byteBlockCount ≤ 8 * op.byteValueCount ∧ op.byteValueCount ≤ 64
  encode : ∀ (values : List U64) (blocks : List U8) (iterations : Nat),
    (∀ v ∈ values, v.toNat < 2 ^ w) → iterations * op.byteValueCount ≤ values.length →
    iterations * op.byteBlockCount ≤ blocks.length →
    op.encodeBytes values blocks iterations =
      .ok (blockBytes format w (values.take (iterations * op.byteValueCount)) ++
        blocks.drop (iterations * op.byteBlockCount))
  decode : ∀ (vs slots : List U64) (tail : List U8) (iterations : Nat),
    (∀ v ∈ vs, v.toNat < 2 ^ w) → vs.length = iterations * op.byteValueCount →
    iterations * op.byteValueCount ≤ slots.length →
    op.decodeBytes (blockBytes format w vs ++ tail) slots iterations =
      .ok (vs ++ slots.drop (iterations * op.byteValueCount))

theorem packs_tapeBytes {w j : Nat} {vs : List U64} (tail : List U8)
    (hvs : vs.length * w = 8 * j) : Packs (tapeBytes w vs ++ tail) w vs := by
  intro p hp
  rw [bitAt_append_left _ (by rw [tapeBytes_length]; omega), bitAt_tapeBytes w vs (by omega)]

/-- The operation of every supported format and width. -/
theorem of_codes {format : Format} {w : Nat} (h : format.isSupported w) :
    ∃ op, of format w = .ok op ∧ Codes op format w := by
  cases format with
  | packed =>
    simp only [Format.isSupported, decide_eq_true_eq] at h
    obtain ⟨hw, hw'⟩ := h
    obtain ⟨op, hop, hf, hbits, hgeo, hdvd, hpos⟩ := of_packed_bytes hw hw'
    have h8 := Nat.le_of_dvd (by decide) hdvd
    have hmul := Nat.mul_le_mul_left op.byteValueCount hw'
    refine ⟨op, hop, hf, hbits, hw, hw', tapeBytes_lawful hw hpos hgeo, ⟨by omega, by omega⟩, ?_, ?_⟩
    · intro values blocks iterations hfits hvalues hblocks
      exact encodeBytes_packed blocks iterations hf hbits hw hw' hgeo hfits hvalues hblocks
    · intro vs slots tail iterations hfits hvs hslots
      have hn : vs.length * w = 8 * (iterations * op.byteBlockCount) := by
        rw [hvs, Nat.mul_assoc, hgeo, Nat.mul_left_comm]
      have hlen := tapeBytes_length w vs
      rw [Nat.mul_comm] at hvs hslots
      change op.decodeBytes (tapeBytes w vs ++ tail) slots iterations = _
      rw [decodeBytes_packed iterations hf hbits hw hw' hgeo
        (by rw [List.length_append]; omega) hslots,
        (packs_tapeBytes tail hn).fields hfits (by omega), List.take_of_length_le (by omega),
        Nat.mul_comm]
  | packedSingleBlock =>
    have hmem : w ∈ supportedBitsPerValue := by
      simpa [Format.isSupported] using h
    obtain ⟨hw, hw'⟩ := supported_le w hmem
    have hper : 0 < 64 / w := Nat.div_pos (by omega) hw
    have hper' : 64 / w ≤ 64 := Nat.div_le_self 64 w
    have hmask : IsMask (lowMask w) w := lowMask_isMask _ (by omega)
    refine ⟨⟨.packedSingleBlock, w, 1, 64 / w, 8, 64 / w, lowMask w⟩, ?_, rfl, rfl, hw, by omega,
      wordBytes_lawful hper, ⟨by dsimp only; omega, hper'⟩, ?_, ?_⟩
    · rw [of, guardOk_pos h, ok_bind]
    · intro values blocks iterations hfits hvalues hblocks
      exact encodeBytes_single blocks iterations rfl rfl rfl hw hper hfits hvalues hblocks
    · intro vs slots tail iterations hfits hvs hslots
      exact decodeBytes_single tail iterations rfl rfl rfl hmask hper hfits hvs hslots

end BulkOperation

end LuceneRust.Util.Packed
