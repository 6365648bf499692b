import LuceneRust.Codecs.PackedStream
import LuceneRust.Util.Packed.BulkCodecs
import LuceneRust.Util.Packed.MutableSpec

/-!
# A packed stream gives its values back

* `finish_spec`: whatever the budget of the writer, the bytes of a stream are
  `wire`, the code of the values up to the last byte that they need.
* `next_spec`: the reader takes a piece off the front of what is left.
* `packed_streams` has both, with the agreement of the codecs that they rest
  on.
-/

namespace LuceneRust.Codecs.PackedInts

open RustSem BlockCodec
open Store (Result Error SliceInput writeBytes)
open Util.Packed (BulkOperation Format vecZeroed unsignedBitsRequired divCeil
  unsignedBitsRequired_le_iff splice_cons splice_nil)
open Util.Packed.BulkOperation (Codes LongCodes blockBytes neededBytes wordsToBytes)
open BlockPacked (ofCall checkVersion)

/-! ## Sizes -/

section Sizes

variable {op : BulkOperation} {format : Format} {w : Nat}

/-- The byte counts of the format, where they do not saturate. -/
theorem byteCount_eq (format : Format) {n w : Nat} (hw : w ≤ 64) (hn : 64 * n < 2 ^ 62) :
    format.byteCount n w = neededBytes format w n := by
  have hmul := Nat.mul_le_mul_left n hw
  cases format with
  | packed =>
    have hsat : saturatingMul n w = n * w := Nat.min_eq_left (by omega)
    simp only [Format.byteCount, neededBytes, Util.Packed.packedByteCount, hsat, divCeil]
    split <;> omega
  | packedSingleBlock =>
    have hle : divCeil n (64 / w) ≤ n + 1 := by
      unfold divCeil
      have := Nat.div_le_self n (64 / w)
      split <;> omega
    have hsat : saturatingMul (divCeil n (64 / w)) 8 = divCeil n (64 / w) * 8 :=
      Nat.min_eq_left (by omega)
    simp only [Format.byteCount, neededBytes, Format.longCount, hsat]
    rw [Nat.mul_comm]

/-- A buffer has no more values than there are, or than one block. -/
theorem computeIterations_le (op : BulkOperation) (hper : 0 < op.byteValueCount)
    (valueCount mem : Nat) :
    op.computeIterations valueCount mem * op.byteValueCount ≤ valueCount + op.byteValueCount := by
  unfold BulkOperation.computeIterations
  dsimp only
  split
  · omega
  · split
    · have hlt := Util.Packed.mul_divCeil_lt valueCount hper
      rw [Nat.mul_comm]
      omega
    · rename_i hpos hlt
      obtain ⟨k, hk⟩ : ∃ k, mem / (op.byteBlockCount + 8 * op.byteValueCount) = k + 1 :=
        ⟨_, (Nat.succ_pred_eq_of_ne_zero hpos).symm⟩
      rw [hk, Nat.add_sub_cancel] at hlt
      rw [hk, Nat.succ_mul]
      omega

theorem computeIterations_pos (op : BulkOperation) {valueCount : Nat} (mem : Nat)
    (hper : 0 < op.byteValueCount) (h : 0 < valueCount) :
    0 < op.computeIterations valueCount mem := by
  unfold BulkOperation.computeIterations
  dsimp only
  generalize mem / (op.byteBlockCount + 8 * op.byteValueCount) = k
  split
  · exact Nat.one_pos
  · split
    · have hle := Util.Packed.le_mul_divCeil valueCount hper
      apply Nat.pos_of_ne_zero
      intro hz
      rw [hz, Nat.mul_zero] at hle
      omega
    · omega

/-- There is memory for the buffers. -/
theorem buffers_ok (hcodes : Codes op format w) {n : Nat} (mem : Nat)
    (hn : 8 * (n + 64) ≤ maxAlloc) :
    byteBuffer (op.computeIterations n mem * op.byteBlockCount) =
        .ok (List.replicate (op.computeIterations n mem * op.byteBlockCount) 0#8) ∧
      ofCall (vecZeroed (op.computeIterations n mem * op.byteValueCount)) =
        .ok (List.replicate (op.computeIterations n mem * op.byteValueCount) 0#64) := by
  have hle := computeIterations_le op hcodes.lawful.per_pos n mem
  obtain ⟨hbytes, hvalues⟩ := hcodes.small
  have hmul := Nat.mul_le_mul_left (op.computeIterations n mem) hbytes
  rw [Nat.mul_left_comm] at hmul
  constructor
  · exact if_pos (by omega)
  · rw [Util.Packed.vecZeroed_ok (by omega)]
    rfl

end Sizes

/-! ## Writing -/

namespace PackedWriter

variable {format : Format} {w n : Nat} {out : List U8} {valueCount : Option Nat}
  {p : PackedWriter} {vs done cur : List U64} {v : U64}

/-- What is written for the values. -/
def stream (format : Format) (w : Nat) (p : PackedWriter) (vs : List U64) : List U8 :=
  wire 0#64 p.encoder.byteValueCount (neededBytes format w) (blockBytes format w) vs

/-- The writer has written the blocks of `done` and has `cur` in its buffer. -/
structure Buffered (format : Format) (w : Nat) (valueCount : Option Nat) (out : List U8)
    (done cur : List U64) (p : PackedWriter) : Prop where
  codes : Codes p.encoder format w
  of_eq : BulkOperation.of format w = .ok p.encoder
  format_eq : p.format = format
  bits_eq : p.bitsPerValue = w
  count_eq : p.valueCount = valueCount
  out_eq : p.out = out ++ blockBytes format w done
  whole : ∃ k, done.length = k * p.encoder.byteValueCount
  values : p.nextValues =
    cur ++ List.replicate (p.iterations * p.encoder.byteValueCount - cur.length) 0#64
  le : cur.length ≤ p.iterations * p.encoder.byteValueCount
  off_eq : p.off = cur.length
  blocks : p.nextBlocks.length = p.iterations * p.encoder.byteBlockCount
  small : 8 * (p.iterations * p.encoder.byteValueCount) ≤ maxAlloc
  fits : ∀ v ∈ cur, v.toNat < 2 ^ w
  open_eq : p.finished = false

/-- The values `vs` were added. -/
structure Added (format : Format) (w : Nat) (valueCount : Option Nat) (out : List U8)
    (vs : List U64) (p : PackedWriter) : Prop where
  buffered : ∃ done cur, Buffered format w valueCount out done cur p ∧ vs = done ++ cur ∧
    (valueCount = some 0 ∨ cur.length < p.iterations * p.encoder.byteValueCount)
  written : p.written = vs.length

theorem Buffered.length (h : Buffered format w valueCount out done cur p) :
    p.nextValues.length = p.iterations * p.encoder.byteValueCount := by
  have hle := h.le
  rw [h.values, List.length_append, List.length_replicate]
  omega

/-- A flush writes what the values of the buffer need. -/
theorem flush_spec (h : Buffered format w valueCount out done cur p) :
    ∃ blocks, p.flush = .ok { p with
        out := p.out ++ stream format w p cur
        nextBlocks := blocks
        nextValues := List.replicate p.nextValues.length 0#64
        off := 0 } ∧ blocks.length = p.nextBlocks.length := by
  have hle := h.le
  have hsmall := h.small
  have hlen := h.length
  have hlaw := h.codes.lawful
  have hbytes : maxAlloc = 2 ^ 55 := rfl
  have hsum : cur.length + (p.iterations * p.encoder.byteValueCount - cur.length) =
      p.iterations * p.encoder.byteValueCount := by omega
  have henc := h.codes.encode p.nextValues p.nextBlocks p.iterations
    (by
      intro u hu
      rw [h.values, List.mem_append] at hu
      rcases hu with hu | hu
      · exact h.fits u hu
      · rw [List.eq_of_mem_replicate hu]
        exact Nat.two_pow_pos w)
    (by omega) (by rw [h.blocks])
  rw [List.take_of_length_le (by omega), h.values, hlaw.enc_wire hsum,
    List.drop_of_length_le (by rw [h.blocks]), List.append_nil] at henc
  have hcount : p.format.byteCount p.off p.bitsPerValue = neededBytes format w cur.length := by
    rw [h.format_eq, h.off_eq, h.bits_eq, byteCount_eq _ h.codes.le_64 (by omega)]
  have hwire := hlaw.wire_length cur
  have hneed := hlaw.count_le_mul hle
  refine ⟨wire 0#64 p.encoder.byteValueCount (neededBytes format w) (blockBytes format w) cur ++
    List.replicate (p.iterations * p.encoder.byteBlockCount - neededBytes format w cur.length) 0#8,
    ?_, ?_⟩
  · unfold flush
    rw [h.values, henc]
    change Outcome.bind _ _ = _
    dsimp only [ofCall, Outcome.bind]
    rw [hcount, slice_eq_some (Nat.zero_le _) (by rw [List.length_append, hwire]; omega),
      expect_some, List.drop_zero, Nat.sub_zero, ← hwire, List.take_left]
    rfl
  · rw [List.length_append, hwire, List.length_replicate, h.blocks]
    omega

/-- A flush of a full buffer starts an empty one. -/
theorem flushIfFull_spec (h : Buffered format w valueCount out done cur p)
    (hpos : 0 < p.iterations * p.encoder.byteValueCount) :
    ∃ q done' cur', p.flushIfFull = .ok q ∧ Buffered format w valueCount out done' cur' q ∧
      done' ++ cur' = done ++ cur ∧ cur'.length < q.iterations * q.encoder.byteValueCount ∧
      q.written = p.written := by
  have hle := h.le
  have hlen := h.length
  have hoff := h.off_eq
  unfold flushIfFull
  by_cases hfull : p.off = p.nextValues.length
  · obtain ⟨blocks, hflush, hblocks⟩ := flush_spec h
    obtain ⟨k, hk⟩ := h.whole
    have hcur : cur.length = p.iterations * p.encoder.byteValueCount := by omega
    refine ⟨_, done ++ cur, [], (if_pos hfull).trans hflush, ?_, List.append_nil _, hpos, rfl⟩
    refine ⟨h.codes, h.of_eq, h.format_eq, h.bits_eq, h.count_eq, ?_, ⟨k + p.iterations, ?_⟩, ?_,
      Nat.zero_le _, rfl, hblocks.trans h.blocks, h.small, fun v hv => absurd hv List.not_mem_nil,
      h.open_eq⟩
    · dsimp only
      rw [h.out_eq, stream, h.codes.lawful.wire_blocks hcur, List.append_assoc,
        h.codes.lawful.enc_append cur hk]
    · rw [List.length_append, hk, hcur, Nat.add_mul]
    · dsimp only
      rw [hlen]
      rfl
  · exact ⟨p, done, cur, if_neg hfull, h, rfl, by omega, rfl⟩

theorem add_spec (h : Added format w valueCount out vs p)
    (hroom : ∀ count, valueCount = some count → vs.length < count) (hv : v.toNat < 2 ^ w) :
    ∃ q, p.add v = .ok q ∧ Added format w valueCount out (vs ++ [v]) q := by
  obtain ⟨⟨done, cur, hbuf, rfl, hlt⟩, hwritten⟩ := h
  have hroom' : cur.length < p.iterations * p.encoder.byteValueCount := by
    rcases hlt with h0 | hlt
    · have := hroom 0 h0
      omega
    · exact hlt
  have hfit : unsignedBitsRequired v ≤ p.bitsPerValue := by
    rw [hbuf.bits_eq]
    exact (unsignedBitsRequired_le_iff hbuf.codes.one_le).2 hv
  have hcheck : p.checkCount = .ok () := by
    unfold checkCount
    rw [hbuf.count_eq]
    cases hc : valueCount with
    | none => rfl
    | some count =>
      have := hroom count hc
      exact if_neg (by omega)
  have hlen := hbuf.length
  have hoff := hbuf.off_eq
  have hset : p.nextValues.set p.off v = (cur ++ [v]) ++
      List.replicate (p.iterations * p.encoder.byteValueCount - (cur ++ [v]).length) 0#64 := by
    obtain ⟨m, hm⟩ : ∃ m, p.iterations * p.encoder.byteValueCount - cur.length = m + 1 :=
      ⟨p.iterations * p.encoder.byteValueCount - cur.length - 1, by omega⟩
    rw [hbuf.values, hoff, List.set_append_right _ _ (Nat.le_refl _), Nat.sub_self, hm,
      List.replicate_succ, List.set_cons_zero, List.length_append, List.length_singleton,
      show p.iterations * p.encoder.byteValueCount - (cur.length + 1) = m by omega,
      List.append_assoc]
    rfl
  have hbuf' : Buffered format w valueCount out done (cur ++ [v])
      { p with nextValues := p.nextValues.set p.off v, off := p.off + 1 } := by
    refine ⟨hbuf.codes, hbuf.of_eq, hbuf.format_eq, hbuf.bits_eq, hbuf.count_eq, hbuf.out_eq, hbuf.whole, hset,
      ?_, ?_, hbuf.blocks, hbuf.small, ?_, hbuf.open_eq⟩
    · simp only [List.length_append, List.length_singleton]
      omega
    · simp only [List.length_append, List.length_singleton, hoff]
    · intro u hu
      rcases List.mem_append.1 hu with hu | hu
      · exact hbuf.fits u hu
      · rw [List.mem_singleton.1 hu]
        exact hv
  obtain ⟨q, done', cur', hflush, hq, happ, hlt', hqw⟩ := flushIfFull_spec hbuf'
    (by dsimp only; omega)
  refine ⟨{ q with written := q.written + 1 }, ?_, ⟨done', cur', ?_, ?_, Or.inr hlt'⟩, ?_⟩
  · unfold add
    rw [guardOk_pos hfit, ok_bind, guardOk_pos hbuf.open_eq,
      ok_bind, hcheck, ok_bind, guardOk_pos (by omega), ok_bind,
      hflush, ok_bind]
  · exact ⟨hq.codes, hq.of_eq, hq.format_eq, hq.bits_eq, hq.count_eq, hq.out_eq, hq.whole, hq.values, hq.le,
      hq.off_eq, hq.blocks, hq.small, hq.fits, hq.open_eq⟩
  · rw [happ, List.append_assoc]
  · dsimp only
    rw [hqw, List.length_append, List.length_singleton]
    dsimp only
    rw [hwritten]

theorem foldlM_add (us : List U64) : ∀ {p : PackedWriter} {vs : List U64},
    Added format w valueCount out vs p → (∀ v ∈ us, v.toNat < 2 ^ w) →
    (∀ count, valueCount = some count → vs.length + us.length ≤ count) →
    ∃ q, us.foldlM add p = .ok q ∧ Added format w valueCount out (vs ++ us) q := by
  induction us with
  | nil =>
    intro p vs h _ _
    exact ⟨p, rfl, by rwa [List.append_nil]⟩
  | cons u us ih =>
    intro p vs h hfits hroom
    obtain ⟨q, hadd, hq⟩ := add_spec h
      (fun count hc => by have := hroom count hc; rw [List.length_cons] at this; omega)
      (hfits u (List.mem_cons_self ..))
    obtain ⟨q', hrun, hq'⟩ := ih hq (fun v hv => hfits v (List.mem_cons_of_mem u hv))
      (fun count hc => by
        have := hroom count hc
        rw [List.length_cons] at this
        rw [List.length_append, List.length_singleton]
        omega)
    refine ⟨q', ?_, by rwa [List.append_assoc] at hq'⟩
    rw [List.foldlM_cons, hadd, ok_bind, hrun]

/-- The values that `finish` fills a known count up with. -/
def padding (valueCount : Option Nat) (n : Nat) : List U64 :=
  List.replicate (valueCount.getD n - n) 0#64

theorem pad_spec (h : Added format w valueCount out vs p)
    (hle : ∀ count, valueCount = some count → vs.length ≤ count) :
    ∃ q, p.pad = .ok q ∧
      Added format w valueCount out (vs ++ padding valueCount vs.length) q := by
  obtain ⟨⟨done, cur, hbuf, hvs, -⟩, -⟩ := id h
  unfold pad
  rw [hbuf.count_eq]
  cases valueCount with
  | none =>
    refine ⟨p, rfl, ?_⟩
    rw [padding, Option.getD_none, Nat.sub_self, List.replicate_zero, List.append_nil]
    exact h
  | some count =>
    have hn := hle count rfl
    refine iterate_ok (padPass count)
      (fun q => ∃ m ≤ count - vs.length,
        Added format w (some count) out (vs ++ List.replicate m 0#64) q)
      (fun q => count - q.written)
      (fun q => Added format w (some count) out (vs ++ padding (some count) vs.length) q) ?_
      (count + 1) p ⟨0, Nat.zero_le _, by rwa [List.replicate_zero, List.append_nil]⟩
      (Nat.lt_succ_of_le (Nat.sub_le _ _))
    intro q ⟨m, hm, hq⟩
    have hwritten := hq.written
    rw [List.length_append, List.length_replicate] at hwritten
    unfold padPass
    by_cases hlt : q.written < count
    · left
      obtain ⟨q', hadd, hq'⟩ := add_spec (v := 0#64) hq
        (by
          intro c hc
          cases hc
          rw [List.length_append, List.length_replicate]
          omega)
        (Nat.two_pow_pos w)
      have hwritten' := hq'.written
      rw [List.append_assoc, ← List.replicate_succ'] at hq'
      simp only [List.length_append, List.length_replicate, List.length_singleton] at hwritten'
      refine ⟨q', ?_, ⟨m + 1, by omega, hq'⟩, by omega⟩
      rw [if_pos hlt, hadd, ok_bind]
    · right
      have hm' : m = count - vs.length := by omega
      refine ⟨q, if_neg hlt, ?_⟩
      rw [padding, Option.getD_some, ← hm']
      exact hq

/-- After `finish` the stream stands in the output. -/
theorem finish_spec (h : Added format w valueCount out vs p)
    (hle : ∀ count, valueCount = some count → vs.length ≤ count) :
    ∃ q, p.finish = .ok q ∧ BulkOperation.of format w = .ok q.encoder ∧
      q.out = out ++ stream format w q (vs ++ padding valueCount vs.length) := by
  obtain ⟨⟨done₀, cur₀, hbuf₀, -, -⟩, -⟩ := id h
  obtain ⟨q, hpad, hq⟩ := pad_spec h hle
  obtain ⟨⟨done, cur, hbuf, happ, -⟩, -⟩ := hq
  obtain ⟨blocks, hflush, -⟩ := flush_spec hbuf
  obtain ⟨k, hk⟩ := hbuf.whole
  refine ⟨{ q with
    out := q.out ++ stream format w q cur, nextBlocks := blocks,
    nextValues := List.replicate q.nextValues.length 0#64, off := 0, finished := true }, ?_, hbuf.of_eq, ?_⟩
  · unfold finish
    rw [guardOk_pos hbuf₀.open_eq, ok_bind, hpad, ok_bind, hflush,
      ok_bind]
  · dsimp only
    rw [hbuf.out_eq, happ, stream, stream, hbuf.codes.lawful.wire_append hk, List.append_assoc]

/-- A new writer has nothing in its buffer. -/
theorem new_spec {op : BulkOperation} (hop : BulkOperation.of format w = .ok op)
    (hcodes : Codes op format w) (out : List U8) (valueCount : Option Nat) (mem : Nat)
    (hroom : ∀ count, valueCount = some count → 8 * (count + 64) ≤ maxAlloc) :
    ∃ p, new out format valueCount w mem = .ok p ∧
      Added format w valueCount out [] p := by
  have hn : 8 * (valueCount.getD (2 ^ 31 - 1) + 64) ≤ maxAlloc := by
    cases valueCount with
    | none => decide
    | some count => exact hroom count rfl
  obtain ⟨hbytes, hvalues⟩ := buffers_ok hcodes mem hn
  have hle := computeIterations_le op hcodes.lawful.per_pos (valueCount.getD (2 ^ 31 - 1)) mem
  have hpos : valueCount = some 0 ∨
      0 < op.computeIterations (valueCount.getD (2 ^ 31 - 1)) mem * op.byteValueCount := by
    by_cases hz : valueCount = some 0
    · exact Or.inl hz
    · right
      apply Nat.mul_pos _ hcodes.lawful.per_pos
      apply computeIterations_pos op mem hcodes.lawful.per_pos
      cases valueCount with
      | none => decide
      | some count => exact Nat.pos_of_ne_zero fun h0 => hz (congrArg some h0)
  have hsmall := hcodes.small.2
  have hnil : blockBytes format w [] = [] := by
    have hlen : (blockBytes format w []).length = 0 * op.byteBlockCount :=
      hcodes.lawful.length_enc (by rw [List.length_nil, Nat.zero_mul])
    exact List.length_eq_zero_iff.1 (by rw [hlen, Nat.zero_mul])
  unfold new
  rw [hop]
  change ∃ p, Outcome.bind (.ok op) _ = _ ∧ _
  dsimp only [Outcome.bind]
  rw [hbytes, ok_bind, hvalues, ok_bind]
  refine ⟨_, rfl, ⟨[], [], ⟨hcodes, hop, rfl, rfl, rfl, ?_, ⟨0, by simp⟩, rfl, Nat.zero_le _, rfl,
    List.length_replicate, by dsimp only; omega, fun v hv => absurd hv List.not_mem_nil, rfl⟩, rfl,
    hpos⟩, rfl⟩
  dsimp only
  rw [hnil, List.append_nil]

end PackedWriter

/-! ## Reading -/

/-- What calls of `next_values` may return when the values `vs` are left: each
takes a piece of at most `k` values off the front, and the first call behind
the end fails. -/
inductive ReadsOff (n : Nat) : List U64 → List Nat → List (Result (List U64)) → Prop
  | stop (vs : List U64) : ReadsOff n vs [] []
  | piece {o rest : List U64} {k : Nat} {ks : List Nat} {rs : List (Result (List U64))} :
    o ≠ [] → o.length ≤ k → ReadsOff n rest ks rs → ReadsOff n (o ++ rest) (k :: ks) (.ok o :: rs)
  | eof (k : Nat) (ks : List Nat) : ReadsOff n [] (k :: ks) [.err (.eof n)]

/-- The values that calls returned. -/
def returned (rs : List (Result (List U64))) : List U64 :=
  rs.flatMap fun r =>
    match r with
    | .ok values => values
    | _ => []

/-- As many calls as there are values return all of them. -/
theorem ReadsOff.all {n : Nat} {vs : List U64} {ks : List Nat} {rs : List (Result (List U64))}
    (h : ReadsOff n vs ks rs) (hle : vs.length ≤ ks.length) : returned rs = vs := by
  induction h with
  | stop vs =>
    have hnil : vs = [] := List.length_eq_zero_iff.1 (Nat.le_zero.1 hle)
    rw [hnil]
    rfl
  | @piece o rest k ks rs hne _ _ ih =>
    have hpos := List.length_pos_iff.2 hne
    rw [List.length_append, List.length_cons] at hle
    have hrest := ih (by omega)
    change o ++ returned rs = _
    rw [hrest]
  | eof k ks => rfl

namespace PackedReaderIterator

variable {format : Format} {w : Nat} {it : PackedReaderIterator} {vs tail : List U64}
  {after : List U8}

/-- The code of values, as the reader expects it. -/
def stream (format : Format) (w : Nat) (it : PackedReaderIterator) (vs : List U64) : List U8 :=
  wire 0#64 it.bulkOperation.byteValueCount (neededBytes format w) (blockBytes format w) vs

/-- The values that are left, from those in the buffer behind index `b` on. -/
structure Left (format : Format) (w : Nat) (after : List U8) (vs : List U64) (b : Nat)
    (it : PackedReaderIterator) : Prop where
  codes : Codes it.bulkOperation format w
  format_eq : it.format = format
  bits_eq : it.bitsPerValue = w
  fits : ∀ v ∈ vs, v.toNat < 2 ^ w
  length : it.nextValues.length = it.iterations * it.bulkOperation.byteValueCount
  blocks : it.nextBlocks.length = it.iterations * it.bulkOperation.byteBlockCount
  le : b ≤ it.nextValues.length
  buffered : (it.nextValues.drop b).take vs.length = vs.take (it.nextValues.length - b)
  input : it.input.rest = stream format w it (vs.drop (it.nextValues.length - b)) ++ after
  position : (it.valueCount : Int) - it.position - 1 = vs.length
  small : 8 * (vs.length + 64) ≤ maxAlloc
  room : vs ≠ [] → 0 < it.nextValues.length

/-- The bytes of a buffer, and zeros behind the last of them. -/
theorem refill_spec (it : PackedReaderIterator) (h : Left format w after vs it.nextValues.length it) :
    ∃ input blocks values, it.refill vs.length = .ok { it with
        input := input, nextBlocks := blocks, nextValues := values, valuesOffset := 0 } ∧
      Left format w after vs 0 { it with
        input := input, nextBlocks := blocks, nextValues := values, valuesOffset := 0 } := by
  have hlaw := h.codes.lawful
  have hsmall := h.small
  have hmax : maxAlloc = 2 ^ 55 := rfl
  have hinput := h.input
  rw [Nat.sub_self, List.drop_zero] at hinput
  have hlen := h.length
  have hblocks := h.blocks
  generalize hL : it.iterations * it.bulkOperation.byteValueCount = L at hlen
  generalize hB : it.iterations * it.bulkOperation.byteBlockCount = B at hblocks
  -- The values of the buffer, and what is left behind them.
  have hsplit := List.take_append_drop L vs
  have hcount : it.format.byteCount vs.length it.bitsPerValue = neededBytes format w vs.length := by
    rw [h.format_eq, h.bits_eq, byteCount_eq _ h.codes.le_64 (by omega)]
  have hfill : (vs.take L).length + (L - (vs.take L).length) = L := by
    rw [List.length_take]
    omega
  have henc := hlaw.enc_wire (hfill.trans hL.symm)
  have hstream : stream format w it vs =
      stream format w it (vs.take L) ++ stream format w it (vs.drop L) := by
    rcases Nat.lt_or_ge vs.length L with hlt | hge
    · rw [List.take_of_length_le (by omega), List.drop_of_length_le (by omega), stream, stream,
        hlaw.wire_nil, List.append_nil]
    · have hk : (vs.take L).length = it.iterations * it.bulkOperation.byteValueCount := by
        rw [List.length_take_of_le hge, hL]
      conv_lhs => rw [← hsplit]
      rw [stream, stream, stream, hlaw.wire_append hk, hlaw.wire_blocks hk]
  have hread : min (neededBytes format w vs.length) B = (stream format w it (vs.take L)).length := by
    have hwl := hlaw.wire_length (vs.take L)
    rw [stream, hwl]
    rcases Nat.lt_or_ge vs.length L with hlt | hge
    · have hle := hlaw.count_le_mul (n := vs.length) (k := it.iterations) (by rw [hL]; omega)
      rw [hB] at hle
      rw [List.take_of_length_le (by omega)]
      exact Nat.min_eq_left hle
    · have hadd := hlaw.count_add it.iterations (vs.length - L)
      have hzero := hlaw.count_add it.iterations 0
      rw [hL, hB, Nat.add_sub_cancel' hge] at hadd
      rw [hL, hB, hlaw.count_zero, Nat.add_zero] at hzero
      rw [List.length_take_of_le hge]
      omega
  have hneed : (stream format w it (vs.take L)).length = neededBytes format w (vs.take L).length :=
    hlaw.wire_length _
  have hle : (stream format w it (vs.take L)).length ≤ B := by omega
  have hrest : it.input.rest = stream format w it (vs.take L) ++
      (stream format w it (vs.drop L) ++ after) := by
    rw [hinput, hstream, List.append_assoc]
  have hdec := h.codes.decode (vs.take L ++ List.replicate (L - (vs.take L).length) 0#64)
    it.nextValues [] it.iterations
    (by
      intro u hu
      rcases List.mem_append.1 hu with hu | hu
      · exact h.fits u (List.mem_of_mem_take hu)
      · rw [List.eq_of_mem_replicate hu]
        exact Nat.two_pow_pos w)
    (by rw [List.length_append, List.length_replicate, hfill, hL]) (by omega)
  rw [List.append_nil, henc, hL, List.drop_of_length_le (by omega), List.append_nil, hB,
    ← hneed] at hdec
  change it.bulkOperation.decodeBytes (stream format w it (vs.take L) ++ _) _ _ = _ at hdec
  refine ⟨it.input.advance (stream format w it (vs.take L)).length,
    stream format w it (vs.take L) ++
      List.replicate (B - (stream format w it (vs.take L)).length) 0#8,
    vs.take L ++ List.replicate (L - (vs.take L).length) 0#64, ?_, ?_⟩
  · unfold refill
    dsimp only
    rw [hcount, hblocks, hread, SliceInput.readN_append hrest, ok_bind]
    dsimp only
    rw [hdec]
    rfl
  · have hnew : (vs.take L ++ List.replicate (L - (vs.take L).length) 0#64).length = L := by
      rw [List.length_append, List.length_replicate]
      exact hfill
    refine ⟨h.codes, h.format_eq, h.bits_eq, h.fits, ?_, ?_, Nat.zero_le _, ?_, ?_, h.position,
      h.small, ?_⟩
    · dsimp only
      rw [hnew, hL]
    · dsimp only
      rw [List.length_append, List.length_replicate, hB]
      omega
    · dsimp only
      rw [List.drop_zero, Nat.sub_zero, hnew]
      rcases Nat.lt_or_ge vs.length L with hlt | hge
      · rw [List.take_of_length_le (by omega : vs.length ≤ L), List.take_left]
      · rw [List.length_take_of_le hge, Nat.sub_self, List.replicate_zero, List.append_nil,
          List.take_of_length_le (by rw [List.length_take]; omega)]
    · dsimp only
      rw [Nat.sub_zero, hnew, SliceInput.rest_advance_append hrest]
      rfl
    · intro hne
      have := h.room hne
      dsimp only
      rw [hnew]
      omega

/-- A piece that the buffer has. -/
theorem Left.take (h : Left format w after vs it.valuesOffset it) {m : Nat}
    (hm : m ≤ it.nextValues.length - it.valuesOffset) (hmv : m ≤ vs.length) :
    slice it.nextValues it.valuesOffset (it.valuesOffset + m) = some (vs.take m) ∧
      Left format w after (vs.drop m) (it.valuesOffset + m)
        { it with valuesLength := m, position := it.position + m } := by
  have hle := h.le
  have hbuf := h.buffered
  have hpos := h.position
  have hsmall := h.small
  refine ⟨?_, h.codes, h.format_eq, h.bits_eq, fun v hv => h.fits v (List.mem_of_mem_drop hv),
    h.length, h.blocks, by dsimp only; omega, ?_, ?_, ?_, ?_, ?_⟩
  · have htake := congrArg (List.take m) hbuf
    rw [List.take_take, List.take_take, Nat.min_eq_left hmv, Nat.min_eq_left hm] at htake
    rw [slice_eq_some (by omega) (by omega), Nat.add_sub_cancel_left, htake]
  · have hdrop := congrArg (List.drop m) hbuf
    rw [List.drop_take, List.drop_take, List.drop_drop, Nat.sub_sub] at hdrop
    rw [List.length_drop]
    exact hdrop
  · dsimp only
    rw [List.drop_drop, show m + (it.nextValues.length - (it.valuesOffset + m)) =
      it.nextValues.length - it.valuesOffset by omega]
    exact h.input
  · dsimp only
    rw [List.length_drop]
    omega
  · rw [List.length_drop]
    omega
  · intro hne
    apply h.room
    intro hnil
    rw [hnil, List.drop_nil] at hne
    exact hne rfl

/-- One call. -/
theorem next_spec (h : Left format w after vs (it.valuesOffset + it.valuesLength) it) {k : Nat}
    (hk : 0 < k) :
    (vs = [] ∧ it.next k = .err (.eof it.valueCount)) ∨
      ∃ m it', 0 < m ∧ m ≤ k ∧ m ≤ vs.length ∧ it.next k = .ok (vs.take m, it') ∧
        it'.valueCount = it.valueCount ∧
        Left format w after (vs.drop m) (it'.valuesOffset + it'.valuesLength) it' := by
  have hpos := h.position
  unfold next
  rw [guardOk_pos hk, ok_bind]
  dsimp only
  rw [hpos]
  cases hvs : vs with
  | nil => exact Or.inl ⟨rfl, if_pos (Int.le_refl _)⟩
  | cons v rest =>
    right
    rw [← hvs]
    have hne : vs ≠ [] := by
      rw [hvs]
      exact List.cons_ne_nil v rest
    have hvpos := List.length_pos_iff.2 hne
    have hroom := h.room hne
    have hle := h.le
    have hfill : ∃ it₁, refillIfEmpty { it with valuesOffset := it.valuesOffset + it.valuesLength }
          vs.length = .ok it₁ ∧ it₁.valueCount = it.valueCount ∧
        it₁.valuesOffset < it₁.nextValues.length ∧
        Left format w after vs it₁.valuesOffset it₁ := by
      have h' : Left format w after vs (it.valuesOffset + it.valuesLength)
          { it with valuesOffset := it.valuesOffset + it.valuesLength } :=
        ⟨h.codes, h.format_eq, h.bits_eq, h.fits, h.length, h.blocks, h.le, h.buffered, h.input,
          h.position, h.small, h.room⟩
      unfold refillIfEmpty
      by_cases hend : it.valuesOffset + it.valuesLength = it.nextValues.length
      · rw [hend] at h'
        obtain ⟨input, blocks, values, hrefill, hleft⟩ := refill_spec
          { it with valuesOffset := it.nextValues.length } h'
        rw [hend]
        exact ⟨_, (if_pos rfl).trans hrefill, rfl, hleft.room hne, hleft⟩
      · refine ⟨_, if_neg hend, rfl, ?_, h'⟩
        dsimp only
        omega
    obtain ⟨it₁, hrun, hcount, hlt, hleft⟩ := hfill
    obtain ⟨hslice, htake⟩ := hleft.take
      (m := min (it₁.nextValues.length - it₁.valuesOffset) (min vs.length k)) (by omega) (by omega)
    generalize hm : min (it₁.nextValues.length - it₁.valuesOffset) (min vs.length k) = m
      at hslice htake
    refine ⟨m, { it₁ with valuesLength := m, position := it₁.position + m }, by omega, by omega,
      by omega, ?_, hcount, htake⟩
    · rw [if_neg (by omega), Int.toNat_natCast, hrun, ok_bind, sub_of_le (by omega),
        ok_bind, hm, hslice, expect_some, ok_bind]

/-- All calls. -/
theorem nextAll_spec (ks : List Nat) : ∀ {it : PackedReaderIterator} {vs : List U64},
    Left format w after vs (it.valuesOffset + it.valuesLength) it → (∀ k ∈ ks, 0 < k) →
    ReadsOff it.valueCount vs ks (it.nextAll ks) := by
  induction ks with
  | nil =>
    intro it vs _ _
    exact ReadsOff.stop vs
  | cons k ks ih =>
    intro it vs h hks
    unfold nextAll
    rcases next_spec h (hks k (List.mem_cons_self ..)) with
      ⟨rfl, hnext⟩ | ⟨m, it', hm, hmk, hmv, hnext, hcount, h'⟩
    · rw [hnext]
      exact ReadsOff.eof k ks
    · have hrec := ih h' fun j hj => hks j (List.mem_cons_of_mem k hj)
      rw [hcount] at hrec
      have hlen : (vs.take m).length = m := List.length_take_of_le hmv
      have hpiece := ReadsOff.piece (o := vs.take m) (k := k)
        (List.length_pos_iff.1 (by omega)) (by omega) hrec
      rw [List.take_append_drop] at hpiece
      rw [hnext]
      exact hpiece

/-- A new reader before a stream has all its values left. -/
theorem new_spec {op : BulkOperation} {inp : SliceInput}
    (hop : BulkOperation.of format w = .ok op) (hcodes : Codes op format w)
    (hsup : format.isSupported w) (mem : Nat) (hfits : ∀ v ∈ vs, v.toNat < 2 ^ w)
    (hsmall : 8 * (vs.length + 64) ≤ maxAlloc)
    (hinput : inp.rest = wire 0#64 op.byteValueCount (neededBytes format w) (blockBytes format w) vs ++
      after) :
    ∃ it, new inp format 2 vs.length w mem = .ok it ∧ it.valueCount = vs.length ∧
      Left format w after vs (it.valuesOffset + it.valuesLength) it := by
  have hmax : maxAlloc = 2 ^ 55 := rfl
  have hlen := congrArg List.length hinput
  rw [SliceInput.rest_length, List.length_append, hcodes.lawful.wire_length] at hlen
  obtain ⟨hbytes, hvalues⟩ := buffers_ok hcodes mem hsmall
  have hcheck : checkVersion 2 = .ok () := by decide
  unfold new
  rw [hcheck, ok_bind, if_neg (by rw [hsup]; decide), byteCount_eq _ hcodes.le_64 (by omega),
    if_neg (by omega), hop]
  change ∃ p, Outcome.bind (.ok op) _ = _ ∧ _
  dsimp only [Outcome.bind]
  rw [hbytes, ok_bind, hvalues, ok_bind]
  refine ⟨_, rfl, rfl, hcodes, rfl, rfl, hfits, List.length_replicate, List.length_replicate, ?_, ?_,
    ?_, ?_, hsmall, ?_⟩
  · simp only [List.length_replicate]
    omega
  · simp only [Nat.add_zero, List.length_replicate, Nat.sub_self, List.take_zero]
    rw [List.drop_of_length_le (by rw [List.length_replicate]), List.take_nil]
  · simp only [Nat.add_zero, List.length_replicate, Nat.sub_self, List.drop_zero]
    exact hinput
  · dsimp only
    omega
  · intro hne
    rw [List.length_replicate]
    exact Nat.mul_pos (computeIterations_pos op mem hcodes.lawful.per_pos (List.length_pos_iff.2 hne))
      hcodes.lawful.per_pos

end PackedReaderIterator

/-! ## The round trip -/

/-- The codecs over words and over bytes read what either of them wrote: the
words that one encoder writes are the bytes that the other writes, and both
decoders give the values back. -/
def CodecsAgree (op : BulkOperation) (w : Nat) : Prop :=
  ∀ (values slots : List U64) (words : List U64) (bytes : List U8) (longs singles : Nat),
    (∀ v ∈ values, v.toNat < 2 ^ w) →
    longs * op.longValueCount = singles * op.byteValueCount →
    longs * op.longValueCount ≤ values.length → longs * op.longValueCount ≤ slots.length →
    longs * op.longBlockCount ≤ words.length → singles * op.byteBlockCount ≤ bytes.length →
    ∃ ws bs, op.encodeLongs values words longs = .ok (ws ++ words.drop (longs * op.longBlockCount)) ∧
      op.encodeBytes values bytes singles = .ok (bs ++ bytes.drop (singles * op.byteBlockCount)) ∧
      bs = wordsToBytes ws ∧ ws = BulkOperation.bytesToWords bs ∧
      (∀ behind, op.decodeLongs (ws ++ behind) slots longs =
        .ok (values.take (longs * op.longValueCount) ++ slots.drop (longs * op.longValueCount))) ∧
      ∀ behind, op.decodeBytes (bs ++ behind) slots singles =
        .ok (values.take (longs * op.longValueCount) ++ slots.drop (longs * op.longValueCount))

theorem codecsAgree {op : BulkOperation} {format : Format} {w : Nat} (hc : Codes op format w)
    (hl : LongCodes op format w) : CodecsAgree op w := by
  intro values slots words bytes longs singles hfits hsame hvalues hslots hwords hbytes
  obtain ⟨ws, henc, hlen, hws⟩ := hl.encode words longs hfits hvalues hwords
  have hencb := hc.encode values bytes singles hfits (by omega) hbytes
  rw [← hsame, ← hws] at hencb
  have hfits' : ∀ v ∈ values.take (longs * op.longValueCount), v.toNat < 2 ^ w :=
    fun v hv => hfits v (List.mem_of_mem_take hv)
  have htake : (values.take (longs * op.longValueCount)).length = longs * op.longValueCount :=
    List.length_take_of_le hvalues
  refine ⟨ws, wordsToBytes ws, henc, hencb, rfl,
    (BulkOperation.bytesToWords_wordsToBytes ws).symm, ?_, ?_⟩
  · intro behind
    exact hl.decode slots behind longs hfits' htake hws hlen hslots
  · intro behind
    rw [hws, hc.decode _ slots behind singles hfits' (htake.trans hsame) (by omega), ← hsame]

/-- What a writer puts out is the same for every budget and whether or not it
knows the count, and a reader of any budget returns the values in order,
however the calls split them. -/
def RoundTrips (format : Format) (w : Nat) : Prop :=
  ∀ (values : List U64) (out after : List U8), (∀ v ∈ values, v.toNat < 2 ^ w) →
    8 * (values.length + 64) ≤ maxAlloc →
    ∃ bytes, (∀ count mem, count = none ∨ count = some values.length →
        writeStream out format count w mem values = .ok (out ++ bytes)) ∧
      ∀ (inp : SliceInput) (mem : Nat), inp.rest = bytes ++ after →
        ∃ it, PackedReaderIterator.new inp format 2 values.length w mem = .ok it ∧
          ∀ ks : List Nat, (∀ k ∈ ks, 0 < k) →
            ReadsOff values.length values ks (it.nextAll ks) ∧
            (values.length ≤ ks.length → returned (it.nextAll ks) = values)

theorem roundTrips {format : Format} {w : Nat} (h : format.isSupported w) :
    RoundTrips format w := by
  intro values out after hfits hsmall
  obtain ⟨op, hop, hcodes⟩ := BulkOperation.of_codes h
  refine ⟨wire 0#64 op.byteValueCount (neededBytes format w) (blockBytes format w) values, ?_, ?_⟩
  · intro count mem hcount
    have hroom : ∀ c, count = some c → c = values.length := by
      intro c hc
      rcases hcount with rfl | rfl
      · cases hc
      · exact (Option.some.inj hc).symm
    obtain ⟨p, hnew, hp⟩ := PackedWriter.new_spec hop hcodes out count mem
      (fun c hc => by rw [hroom c hc]; exact hsmall)
    obtain ⟨q, hrun, hq⟩ := PackedWriter.foldlM_add values hp hfits
      (fun c hc => by rw [hroom c hc, List.length_nil, Nat.zero_add])
    rw [List.nil_append] at hq
    obtain ⟨r, hfin, hof, hout⟩ := PackedWriter.finish_spec hq (fun c hc => (hroom c hc).ge)
    have hpad : PackedWriter.padding count values.length = [] := by
      rw [PackedWriter.padding]
      rcases hcount with rfl | rfl
      · rw [Option.getD_none, Nat.sub_self]
        rfl
      · rw [Option.getD_some, Nat.sub_self]
        rfl
    have henc : r.encoder = op := by
      rw [hop] at hof
      exact (Outcome.ok.inj hof).symm
    rw [hpad, List.append_nil, PackedWriter.stream, henc] at hout
    unfold writeStream
    rw [hnew, ok_bind, hrun, ok_bind, hfin, ok_bind, hout]
  · intro inp mem hinput
    obtain ⟨it, hnew, hcount, hleft⟩ := PackedReaderIterator.new_spec hop hcodes h mem hfits hsmall
      hinput
    refine ⟨it, hnew, fun ks hks => ?_⟩
    have hreads := PackedReaderIterator.nextAll_spec ks hleft hks
    rw [hcount] at hreads
    exact ⟨hreads, fun hle => hreads.all hle⟩

/-- Streams of every supported format and width, and the codecs under them. -/
theorem packed_streams (format : Format) (w : Nat) (h : format.isSupported w) :
    RoundTrips format w ∧ ∃ op, BulkOperation.of format w = .ok op ∧ CodecsAgree op w ∧
      ∀ (values slots : List U64) (bytes behind : List U8) (iterations : Nat),
        (∀ v ∈ values, v.toNat < 2 ^ w) → iterations * op.byteValueCount ≤ values.length →
        iterations * op.byteValueCount ≤ slots.length →
        iterations * op.byteBlockCount ≤ bytes.length →
        ∃ bs, op.encodeBytes values bytes iterations =
            .ok (bs ++ bytes.drop (iterations * op.byteBlockCount)) ∧
          op.decodeBytes (bs ++ behind) slots iterations =
            .ok (values.take (iterations * op.byteValueCount) ++
              slots.drop (iterations * op.byteValueCount)) := by
  obtain ⟨op, hop, hcodes, hlong⟩ := BulkOperation.of_longCodes h
  refine ⟨roundTrips h, op, hop, codecsAgree hcodes hlong, ?_⟩
  intro values slots bytes behind iterations hfits hvalues hslots hbytes
  exact ⟨_, hcodes.encode values bytes iterations hfits hvalues hbytes,
    hcodes.decode _ slots behind iterations (fun v hv => hfits v (List.mem_of_mem_take hv))
      (List.length_take_of_le hvalues) hslots⟩

/-- Four values of a width that does not divide a word, in the format that
pads: writers with the least and with a large budget, and a reader between. -/
theorem packed_streams_sample :
    ∃ bytes, writeStream [] .packedSingleBlock (some 4) 21 0
        [5#64, 0#64, 2097151#64, 1#64] = .ok ([] ++ bytes) ∧
      writeStream [] .packedSingleBlock none 21 1000
        [5#64, 0#64, 2097151#64, 1#64] = .ok ([] ++ bytes) ∧
      ∃ it, PackedReaderIterator.new (SliceInput.new (bytes ++ [])) .packedSingleBlock 2 4 21 64 =
          .ok it ∧
        returned (it.nextAll [3, 1, 1, 2]) = [5#64, 0#64, 2097151#64, 1#64] := by
  obtain ⟨bytes, hwrite, hread⟩ := (packed_streams .packedSingleBlock 21 (by decide)).1
    [5#64, 0#64, 2097151#64, 1#64] [] [] (by simp) (by decide)
  obtain ⟨it, hnew, hreads⟩ := hread (SliceInput.new (bytes ++ [])) 64 (SliceInput.rest_new _)
  exact ⟨bytes, hwrite (some 4) 0 (Or.inr rfl), hwrite none 1000 (Or.inl rfl), it, hnew,
    (hreads [3, 1, 1, 2] (by decide)).2 (by decide)⟩

end LuceneRust.Codecs.PackedInts
