import LuceneRust.Store.DataOutput

/-!
# `lucene_store::data_input`, the readers

`impl DataInput for SliceInput` and the byte loops that it falls back to.
A varint with its maximal length in view is decoded straight off the slice
(`varintFast`); one near the end, or a malformed one, goes through the byte
loop.  A group varint does the same with 17 bytes in view.
-/

namespace LuceneRust.Store

open RustSem

/-! ## Varints -/

/-- The loop body of `read_vint_loop` and `read_vlong_loop`: the byte read
last, the value so far, the shift and the input. -/
def readVarintPass (w maxShift : Nat) (s : U8 × BitVec w × Nat × SliceInput) :
    Result ((U8 × BitVec w × Nat × SliceInput) ⊕ (BitVec w × SliceInput)) :=
  let (b, v, shift, inp) := s
  if b &&& 0x80#8 ≠ 0#8 then
    if maxShift < shift then .err .malformedVarint
    else do
      let (b, inp) ← inp.readByte
      .ok (.inl (b, v ||| ((b &&& 0x7F#8).setWidth w <<< (shift % w)),
        shift + 7, inp))
  else .ok (.inr (v, inp))

/-- `read_vint_loop` and `read_vlong_loop`, at the width of the value.
`maxShift` is the last shift at which a further byte is read. -/
def readVarintLoop (w maxShift : Nat) (inp : SliceInput) :
    Result (BitVec w × SliceInput) := do
  let (b, inp) ← inp.readByte
  iterate (readVarintPass w maxShift) 11
    (b, (b &&& 0x7F#8).setWidth w, 7, inp)

/-- The loop body of `read_zlong_loop`. -/
def readZlongPass (s : U64 × Nat × SliceInput) :
    Result ((U64 × Nat × SliceInput) ⊕ (U64 × SliceInput)) := do
  let (v, shift, inp) := s
  let (b, inp) ← inp.readByte
  let v := v ||| ((b &&& 0x7F#8).setWidth 64 <<< (shift % 64))
  if b &&& 0x80#8 = 0#8 then .ok (.inr (v, inp))
  else if 70 ≤ shift + 7 then .err .malformedVarint
  else .ok (.inl (v, shift + 7, inp))

/-- `read_zlong_loop`, before the zigzag. -/
def readZlongLoop (inp : SliceInput) : Result (U64 × SliceInput) :=
  iterate readZlongPass 11 (0, 0, inp)

/-- The decoder of a varint in view: the value and the bytes it takes. -/
def varintFast (w : Nat) : List U8 → Nat → BitVec w → Option (BitVec w × Nat)
  | [], _, _ => none
  | x :: xs, i, v =>
    let v := v ||| ((x &&& 0x7F#8).setWidth w <<< (7 * i % w))
    if x < 0x80#8 then some (v, i + 1) else varintFast w xs (i + 1) v

namespace SliceInput

/-- A varint of at most `window` bytes, off the slice or through `slow`. -/
def readInView (w window : Nat)
    (slow : SliceInput → Result (BitVec w × SliceInput)) (inp : SliceInput) :
    Result (BitVec w × SliceInput) :=
  match (slice inp.buf inp.pos (inp.pos + window)).bind
    fun b => varintFast w b 0 0#w with
  | some (v, n) => .ok (v, inp.advance n)
  | none => slow inp

/-- `read_vint`. -/
def readVint (inp : SliceInput) : Result (U32 × SliceInput) :=
  readInView 32 5 (readVarintLoop 32 28) inp

/-- `read_vlong`. -/
def readVlong (inp : SliceInput) : Result (U64 × SliceInput) :=
  readInView 64 10 (readVarintLoop 64 63) inp

/-- `read_zlong`. -/
def readZlong (inp : SliceInput) : Result (U64 × SliceInput) := do
  let (v, inp) ← readInView 64 10 readZlongLoop inp
  .ok (zigzagDecode v, inp)

/-- `read_zint`. -/
def readZint (inp : SliceInput) : Result (U32 × SliceInput) := do
  let (v, inp) ← inp.readVint
  .ok (zigzagDecode v, inp)

/-! ## Words of a fixed width -/

/-- A little-endian word of `n` bytes: `read_i16`, `read_i32`, `read_i64`
and `read_u32_le`. -/
def readLe (w n : Nat) (inp : SliceInput) : Result (BitVec w × SliceInput) := do
  let (b, inp) ← inp.readN n
  .ok (fromLeBytes w b, inp)

/-- `read_i16`. -/
def readI16 (inp : SliceInput) : Result (U16 × SliceInput) := inp.readLe 16 2

/-- `read_i32`. -/
def readI32 (inp : SliceInput) : Result (U32 × SliceInput) := inp.readLe 32 4

/-- `read_i64`. -/
def readI64 (inp : SliceInput) : Result (U64 × SliceInput) := inp.readLe 64 8

/-- `read_u32s_le` into `count` slots. -/
def readU32sLe (count : Nat) (inp : SliceInput) : Result (List U32 × SliceInput) := do
  let (b, inp) ← inp.readN (4 * count)
  .ok ((chunks 4 b).map (fromLeBytes 32), inp)

/-- `read_be_u32`. -/
def readBeU32 (inp : SliceInput) : Result (U32 × SliceInput) := do
  let (b, inp) ← inp.readN 4
  .ok (fromLeBytes 32 b.reverse, inp)

/-- `read_be_u64`. -/
def readBeU64 (inp : SliceInput) : Result (U64 × SliceInput) := do
  let (hi, inp) ← inp.readBeU32
  let (lo, inp) ← inp.readBeU32
  .ok ((hi.setWidth 64 <<< 32) ||| lo.setWidth 64, inp)

/-! ## Group varints -/

/-- `MASKS`: the low `n + 1` bytes. -/
def groupMask (n : Nat) : U32 :=
  match n with
  | 0 => 0xFF#32
  | 1 => 0xFFFF#32
  | 2 => 0xFFFFFF#32
  | _ => 0xFFFFFFFF#32

/-- The length of value `j` of a group, less one. -/
def flagLen (flag : U8) (j : Nat) : Nat := (flag.toNat >>> (6 - 2 * j)) &&& 3

/-- One value of a group in view: the bytes of the group, the index in them
and the values so far. -/
def groupFastPut (bytes : List U8) (flag : U8) (s : Nat × List U64) (j : Nat) :
    Result (Nat × List U64) := do
  let n := flagLen flag j
  let word ← .expect (slice bytes s.1 (s.1 + 4))
  .ok (s.1 + n + 1,
    s.2 ++ [(fromLeBytes 32 word &&& groupMask n).setWidth 64])

/-- The groups in view, at most `groups` of them. -/
def groupsFast (groups : Nat) (inp : SliceInput) (dst : List U64) :
    Result (List U64 × Nat × SliceInput) :=
  match groups with
  | 0 => .ok (dst, 0, inp)
  | groups + 1 =>
    match slice inp.buf inp.pos (inp.pos + 17) with
    | none => .ok (dst, groups + 1, inp)
    | some bytes => do
      let flag ← .expect bytes[0]?
      let (at', dst) ← (List.range 4).foldlM (groupFastPut bytes flag) (1, dst)
      groupsFast groups (inp.advance at') dst

/-- One value of a group that cannot be over-read. -/
def groupSlowPut (flag : U8) (s : List U64 × SliceInput) (j : Nat) :
    Result (List U64 × SliceInput) := do
  let n := flagLen flag j
  let (b, inp) ← s.2.readN (n + 1)
  .ok (s.1 ++ [(fromLeBytes 32 b).setWidth 64], inp)

/-- `peek_u32_le`. -/
def peekU32Le (inp : SliceInput) : Result U32 := do
  let (v, _) ← inp.readLe 32 4
  .ok v

/-- One value of a group, masked out of a peeked word. -/
def groupPeekPut (flag : U8) (s : List U64 × SliceInput) (j : Nat) :
    Result (List U64 × SliceInput) := do
  let n := flagLen flag j
  let v ← s.2.peekU32Le
  let inp ← s.2.skip (n + 1)
  .ok (s.1 ++ [(v &&& groupMask n).setWidth 64], inp)

/-- One group of `group_vints_default`. -/
def groupDefault (dst : List U64) (inp : SliceInput) :
    Result (List U64 × SliceInput) := do
  let (flag, inp) ← inp.readByte
  if 16 ≤ inp.remaining ∧ inp.peekU32Le.toOption.isSome then
    (List.range 4).foldlM (groupPeekPut flag) (dst, inp)
  else (List.range 4).foldlM (groupSlowPut flag) (dst, inp)

/-- The tail of `group_vints_default`: one vint per value. -/
def groupTail (s : List U64 × SliceInput) (_ : Nat) :
    Result (List U64 × SliceInput) := do
  let (v, inp) ← s.2.readVint
  .ok (s.1 ++ [v.setWidth 64], inp)

/-- `group_vints_default` for the last `limit` values. -/
def groupVintsDefault (limit : Nat) (dst : List U64) (inp : SliceInput) :
    Result (List U64 × SliceInput) := do
  let (dst, inp) ← (List.range (limit / 4)).foldlM
    (fun s _ => groupDefault s.1 s.2) (dst, inp)
  (List.range (limit % 4)).foldlM groupTail (dst, inp)

/-- `read_group_vints` into `limit` slots. -/
def readGroupVints (limit : Nat) (inp : SliceInput) :
    Result (List U64 × SliceInput) := do
  let (dst, left, inp) ← groupsFast (limit / 4) inp []
  groupVintsDefault (4 * left + limit % 4) dst inp

/-! ## Strings -/

/-- `str::from_utf8`. -/
def fromUtf8 (bs : List U8) : Option String :=
  String.fromUTF8? ⟨(bs.map UInt8.ofBitVec).toArray⟩

/-- `read_length`. -/
def readLength (inp : SliceInput) (what : String) :
    Result (Nat × SliceInput) := do
  let (v, inp) ← inp.readVint
  if v.toInt < 0 then
    .err (.corrupted ("negative " ++ what ++ " length: " ++ toString v.toInt))
  else
    let len := v.toInt.toNat
    if inp.remaining < len then
      .err (.corrupted (what ++ " length " ++ toString len ++ " exceeds " ++
        toString inp.remaining ++ " remaining bytes"))
    else .ok (len, inp)

/-- `read_string`. -/
def readString (inp : SliceInput) : Result (String × SliceInput) := do
  let (len, inp) ← inp.readLength "string"
  let bytes ← .expect (slice inp.buf inp.pos (inp.pos + len))
  let inp := inp.advance len
  match fromUtf8 bytes with
  | none => .err (.corrupted "invalid UTF-8 string")
  | some s => .ok (s, inp)

/-- `read_map_of_strings`. -/
def readMapOfStrings (inp : SliceInput) :
    Result (List (String × String) × SliceInput) := do
  let (count, inp) ← inp.readLength "map-of-strings"
  (List.range count).foldlM (fun s _ => do
    let (k, inp) ← s.2.readString
    let (v, inp) ← inp.readString
    .ok (s.1 ++ [(k, v)], inp)) ([], inp)

/-- `read_set_of_strings`. -/
def readSetOfStrings (inp : SliceInput) : Result (List String × SliceInput) := do
  let (count, inp) ← inp.readLength "set-of-strings"
  (List.range count).foldlM (fun s _ => do
    let (k, inp) ← s.2.readString
    .ok (s.1 ++ [k], inp)) ([], inp)

end SliceInput

end LuceneRust.Store
