import LuceneRust.Lib.StateHoare
import LuceneRust.Store.DataInput

/-!
# `lucene_store::data_input`, the trait and the overrides

A reader borrows its input mutably, so it leaves a position behind also where
it fails.  A `Cursor` is a reader with the position that it leaves.

`DataInput` is the trait: its required methods and the one provided method,
`read_vint`, that other provided methods call.  The provided methods are
programs over any implementation.  `SliceInput` overrides five of them with
decoders that work straight off the slice as long as enough of it is in view
(`readInView`, `groupInView`), and fall back to the provided ones.
-/

namespace LuceneRust.Store

open RustSem StateHoare

/-! ## The byte loops -/

section Loops

variable {σ : Type} (readByte : Op Error σ U8)

/-- The loop body of `read_vint_loop` and `read_vlong_loop`: the byte read
last, the value so far and the shift. -/
def varintPass (w maxShift : Nat) (s : U8 × BitVec w × Nat) :
    Op Error σ ((U8 × BitVec w × Nat) ⊕ BitVec w) :=
  let (b, v, shift) := s
  if b &&& 0x80#8 ≠ 0#8 then
    if maxShift < shift then Op.throw .malformedVarint
    else do
      let b ← readByte
      pure (.inl (b, v ||| ((b &&& 0x7F#8).setWidth w <<< (shift % w)), shift + 7))
  else pure (.inr v)

/-- `read_vint_loop` and `read_vlong_loop`, at the width of the value.
`maxShift` is the last shift at which a further byte is read. -/
def varintLoop (w maxShift : Nat) : Op Error σ (BitVec w) := do
  let b ← readByte
  Op.iterate (varintPass readByte w maxShift) 11 (b, (b &&& 0x7F#8).setWidth w, 7)

/-- The loop body of `read_zlong_loop`. -/
def zlongPass (s : U64 × Nat) : Op Error σ ((U64 × Nat) ⊕ U64) := do
  let (v, shift) := s
  let b ← readByte
  let v := v ||| ((b &&& 0x7F#8).setWidth 64 <<< (shift % 64))
  if b &&& 0x80#8 = 0#8 then pure (.inr v)
  else if 70 ≤ shift + 7 then Op.throw .malformedVarint
  else pure (.inl (v, shift + 7))

/-- `read_zlong_loop`, before the zigzag. -/
def zlongLoop : Op Error σ U64 := Op.iterate (zlongPass readByte) 11 (0, 0)

end Loops

/-! ## The trait -/

/-- `DataInput`, over an input of the type `σ`. -/
structure DataInput (σ : Type) where
  readByte : Op Error σ U8
  /-- `read_bytes` into a buffer of the given length. -/
  readBytes : Nat → Op Error σ (List U8)
  remaining : Op Error σ Nat
  peekU32Le : Op Error σ U32
  skip : Nat → Op Error σ Unit
  /-- `read_vint`, which has a default. -/
  readVint : Op Error σ U32

/-- The lengths of the values of a group, less one. -/
def groupLens (flag : U8) : List Nat :=
  [SliceInput.flagLen flag 0, SliceInput.flagLen flag 1, SliceInput.flagLen flag 2,
    SliceInput.flagLen flag 3]

namespace DataInput

variable {σ : Type} (d : DataInput σ)

/-- `read_vlong`. -/
def readVlong : Op Error σ U64 := varintLoop d.readByte 64 63

/-- `read_zlong`. -/
def readZlong : Op Error σ U64 := do
  let v ← zlongLoop d.readByte
  pure (zigzagDecode v)

/-- `read_length`. -/
def readLength (what : String) : Op Error σ Nat := do
  let v ← d.readVint
  if v.toInt < 0 then
    Op.throw (.corrupted ("negative " ++ what ++ " length: " ++ toString v.toInt))
  else do
    let remaining ← d.remaining
    if remaining < v.toInt.toNat then
      Op.throw (.corrupted (what ++ " length " ++ toString v.toInt.toNat ++ " exceeds " ++
        toString remaining ++ " remaining bytes"))
    else pure v.toInt.toNat

/-- `String::from_utf8` and `str::from_utf8`, with the error of `read_string`. -/
def checkUtf8 (bytes : List U8) : Op Error σ String :=
  match SliceInput.fromUtf8 bytes with
  | none => Op.throw (.corrupted "invalid UTF-8 string")
  | some s => pure s

/-- `read_string`. -/
def readString : Op Error σ String := do
  let len ← d.readLength "string"
  let buf ← d.readBytes len
  checkUtf8 buf

/-- One value of a group, masked out of a peeked word. -/
def peekValue (n : Nat) : Op Error σ U64 := do
  let v ← d.peekU32Le
  d.skip (n + 1)
  pure ((v &&& SliceInput.groupMask n).setWidth 64)

/-- One value of a group that cannot be over-read. -/
def plainValue (n : Nat) : Op Error σ U64 := do
  let b ← d.readBytes (n + 1)
  pure ((fromLeBytes 32 b).setWidth 64)

/-- `input.remaining() >= 16 && input.peek_u32_le().is_ok()`. -/
def peekable : Op Error σ Bool := do
  let remaining ← d.remaining
  if remaining < 16 then pure false
  else do
    let peeked ← Op.attempt d.peekU32Le
    pure peeked.isOk

/-- One group of `group_vints_default`. -/
def group : Op Error σ (List U64) := do
  let flag ← d.readByte
  let wide ← d.peekable
  if wide then (groupLens flag).mapM d.peekValue else (groupLens flag).mapM d.plainValue

/-- The groups of `group_vints_default`. -/
def groups : Nat → Op Error σ (List U64)
  | 0 => pure []
  | n + 1 => do
    let values ← d.group
    let rest ← groups n
    pure (values ++ rest)

/-- The tail of `group_vints_default`: one vint per value. -/
def vints : Nat → Op Error σ (List U64)
  | 0 => pure []
  | n + 1 => do
    let v ← d.readVint
    let rest ← vints n
    pure (v.setWidth 64 :: rest)

/-- `group_vints_default` into `limit` slots. -/
def groupVintsDefault (limit : Nat) : Op Error σ (List U64) := do
  let values ← d.groups (limit / 4)
  let rest ← d.vints (limit % 4)
  pure (values ++ rest)

end DataInput

/-! ## The required methods of a slice -/

/-- A reader of a slice, with the position that it leaves. -/
abbrev Cursor := Op Error SliceInput

namespace Cursor

/-- A reader that moves on only when it returns. -/
def of {α : Type} (rd : SliceInput → Result (α × SliceInput)) : Cursor α := fun inp =>
  match rd inp with
  | .ok (a, inp) => (.ok a, inp)
  | .err e => (.err e, inp)
  | .panic => (.panic, inp)

/-- `read_byte`. -/
def readByte : Cursor U8 := of SliceInput.readByte

/-- The required methods over a slice, with a given `read_vint`.  An input that
is no `canPeek` refuses every peek. -/
def dataInput (canPeek : Bool) (readVint : Cursor U32) : DataInput SliceInput where
  readByte := readByte
  readBytes n := of fun inp => inp.readN n
  remaining := Op.get SliceInput.remaining
  peekU32Le := of fun inp =>
    if canPeek then do
      let v ← inp.peekU32Le
      .ok (v, inp)
    else .err (.eof inp.pos)
  skip n := of fun inp => do
    let inp ← inp.skip n
    .ok ((), inp)
  readVint := readVint

/-- An input that implements the required methods only, so that every provided
method is the default: `PlainInput` where it refuses to peek. -/
def plainInput (canPeek : Bool) : DataInput SliceInput :=
  dataInput canPeek (varintLoop readByte 32 28)

/-! ## The overrides -/

/-- A varint of at most `window` bytes, off the slice or through `slow`. -/
def readInView (w window : Nat) (slow : Cursor (BitVec w)) : Cursor (BitVec w) := do
  let view ← Op.get fun inp => slice inp.buf inp.pos (inp.pos + window)
  match view.bind fun b => varintFast w b 0 0#w with
  | some (v, n) => do
    Op.modify fun inp => inp.advance n
    pure v
  | none => slow

/-- `read_vint`. -/
def readVint : Cursor U32 := readInView 32 5 (varintLoop readByte 32 28)

/-- `read_vlong`. -/
def readVlong : Cursor U64 := readInView 64 10 (varintLoop readByte 64 63)

/-- `read_zlong`. -/
def readZlong : Cursor U64 := do
  let v ← readInView 64 10 (zlongLoop readByte)
  pure (zigzagDecode v)

/-- `SliceInput` as a `DataInput`. -/
def sliceInput : DataInput SliceInput := dataInput true readVint

/-- `read_string`. -/
def readString : Cursor String := do
  let len ← sliceInput.readLength "string"
  let view ← Op.get fun inp => slice inp.buf inp.pos (inp.pos + len)
  let bytes ← Op.lift (.expect view)
  Op.modify fun inp => inp.advance len
  DataInput.checkUtf8 bytes

/-! ### Group varints -/

/-- The values of a group in view, whose bytes are `bytes`, from the index
`at'` on, and the index behind them. -/
def valuesInView (bytes : List U8) : List Nat → Nat → Result (List U32 × Nat)
  | [], at' => .ok ([], at')
  | n :: lens, at' => do
    let word ← .expect (slice bytes at' (at' + 4))
    let (values, stop) ← valuesInView bytes lens (at' + n + 1)
    .ok ((fromLeBytes 32 word &&& SliceInput.groupMask n) :: values, stop)

/-- The values of a group whose own bytes are `bytes`. -/
def wholeValues (bytes : List U8) : List Nat → Nat → Result (List U32)
  | [], _ => .ok []
  | n :: lens, at' => do
    let word ← .expect (slice bytes at' (at' + n))
    let values ← wholeValues bytes lens (at' + n)
    .ok (fromLeBytes 32 word :: values)

/-- A group with its flag and 16 bytes in view, if there is one. -/
def groupInView : Cursor (Option (List U32)) := do
  let view ← Op.get fun inp => slice inp.buf inp.pos (inp.pos + 17)
  match view with
  | none => pure none
  | some bytes => do
    let flag ← Op.lift (.expect bytes[0]?)
    let (values, stop) ← Op.lift (valuesInView bytes (groupLens flag) 1)
    Op.modify fun inp => inp.advance stop
    pure (some values)

/-- A group whose own bytes are all there, if there is one. -/
def wholeGroup : Cursor (Option (List U32)) := do
  let first ← Op.get fun inp => inp.buf[inp.pos]?
  match first with
  | none => pure none
  | some flag => do
    let lens := (groupLens flag).map (· + 1)
    let need := 1 + lens.sum
    let view ← Op.get fun inp => slice inp.buf inp.pos (inp.pos + need)
    match view with
    | none => pure none
    | some bytes => do
      let values ← Op.lift (wholeValues bytes lens 1)
      Op.modify fun inp => inp.advance need
      pure (some values)

/-- The loop over at most `groups` groups that stops at the first one that
`one` does not take: the values, and the groups that are left. -/
def takeGroups (one : Cursor (Option (List U32))) : Nat → Cursor (List U32 × Nat)
  | 0 => pure ([], 0)
  | groups + 1 => do
    let taken ← one
    match taken with
    | none => pure ([], groups + 1)
    | some values => do
      let (rest, left) ← takeGroups one groups
      pure (values ++ rest, left)

/-- `read_group_vints` into `limit` slots. -/
def readGroupVints (limit : Nat) : Cursor (List U64) := do
  let (values, left) ← takeGroups groupInView (limit / 4)
  let rest ← sliceInput.groupVintsDefault (4 * left + limit % 4)
  pure (values.map (·.setWidth 64) ++ rest)

/-- The lengths of `chunks_mut(n)` on a slice of the length `len`. -/
def chunkLens (n len : Nat) : List Nat :=
  List.replicate (len / n) n ++ if len % n = 0 then [] else [len % n]

/-- The default decoder, a chunk at a time, into the low 32 bits. -/
def stagedChunks : List Nat → Cursor (List U32)
  | [] => pure []
  | len :: lens => do
    let staged ← sliceInput.groupVintsDefault len
    let rest ← stagedChunks lens
    pure (staged.map (·.setWidth 32) ++ rest)

/-- `group_vints_i32_tail` into `limit` slots. -/
def groupVintsI32Tail (limit : Nat) : Cursor (List U32) := do
  let (values, left) ← takeGroups wholeGroup (limit / 4)
  let rest ← stagedChunks (chunkLens 4 (4 * left + limit % 4))
  pure (values ++ rest)

/-- `read_group_vints_i32` into `limit` slots. -/
def readGroupVintsI32 (limit : Nat) : Cursor (List U32) := do
  let (values, left) ← takeGroups groupInView (limit / 4)
  if 0 < 4 * left + limit % 4 then do
    let rest ← groupVintsI32Tail (4 * left + limit % 4)
    pure (values ++ rest)
  else pure values

end Cursor

end LuceneRust.Store
