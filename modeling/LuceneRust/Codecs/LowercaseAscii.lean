import LuceneRust.Store.DataInput

/-!
# `lucene_codecs::lowercase_ascii`

Bytes that are mostly lowercase ASCII take six bits each: the last quarter of the input
goes into the two top bits of the other three.  A byte that does not fit is listed behind
them, with its distance from the one before.

`decompressLowercaseAscii` is the decoder in `blocktree`.
-/

namespace LuceneRust.Codecs.LowercaseAscii

open RustSem Store

/-- `is_compressible`. -/
def isCompressible (b : U8) : Bool :=
  let high3 := (b.setWidth 32 + 1#32) &&& ~~~0x1f#32
  high3 == 0x20#32 || high3 == 0x60#32

theorem shiftRight_seven_lt {v : U32} (h : v &&& ~~~0x7f#32 ≠ 0) : (v >>> 7).toNat < v.toNat := by
  have hpos : v.toNat ≠ 0 := by
    intro h0
    have hv : v = 0#32 := BitVec.eq_of_toNat_eq h0
    exact h (by simp [hv])
  rw [BitVec.toNat_ushiftRight, Nat.shiftRight_eq_div_pow]
  exact Nat.div_lt_self (by omega) (by decide)

/-- `write_vint`: the bytes that it appends. -/
def writeVint (v : U32) : List U8 :=
  if _h : v &&& ~~~0x7f#32 ≠ 0 then
    ((v &&& 0x7f#32).setWidth 8 ||| 0x80#8) :: writeVint (v >>> 7)
  else [v.setWidth 8]
termination_by v.toNat
decreasing_by exact shiftRight_seven_lt _h

/-! ## Counting -/

/-- The inner loop of the count: the entries that bridge a gap of more than 255 bytes.
The state is `num_exceptions` and `previous`. -/
def countBridges (i : Nat) (s : Nat × Nat) : Nat × Nat :=
  if _h : 0xff < i - s.2 then countBridges i (s.1 + 1, s.2 + 0xff) else s
termination_by i - s.2
decreasing_by omega

/-- The loop body of the count.  It stops with more than `maxExceptions`. -/
def countPass (maxExceptions : Nat) (s : Nat × Nat) (x : U8 × Nat) : Option (Nat × Nat) :=
  if isCompressible x.1 then some s
  else
    let numExceptions := (countBridges x.2 s).1 + 1
    if maxExceptions < numExceptions then none else some (numExceptions, x.2)

/-! ## Packing -/

/-- The six bits of a byte. -/
def sixBits (b : U8) : U8 :=
  let b := b.setWidth 32 + 1#32
  ((b &&& 0x1f#32) ||| ((b &&& 0x40#32) >>> 1)).setWidth 8

/-- `tmp[o] |= (tmp[i] & mask) << shift`. -/
def orInto (mask : U8) (shift : Nat) (tmp : List U8) (o i : Nat) : Outcome Empty (List U8) := do
  let high ← .expect tmp[i]?
  let low ← .expect tmp[o]?
  .ok (tmp.set o (low ||| ((high &&& mask) <<< shift)))

/-- One round over the last quarter.  The state is `tmp` and `o`. -/
def packRound (compressedLen len : Nat) (s : List U8 × Nat) (shift : U8 × Nat) :
    Outcome Empty (List U8 × Nat) :=
  (List.range' compressedLen (len - compressedLen)).foldlM (fun s i => do
    let tmp ← orInto shift.1 shift.2 s.1 s.2 i
    .ok (tmp, s.2 + 1)) s

/-- `shift`. -/
def shifts : List (U8 × Nat) := [(0x30#8, 2), (0x0c#8, 4), (0x03#8, 6)]

/-! ## Exceptions -/

/-- The inner loop of the exception list.  The state is `out` and `previous`. -/
def writeBridges (input : List U8) (i : Nat) (s : List U8 × Nat) :
    Outcome Empty (List U8 × Nat) := do
  if _h : 0xff < i - s.2 then do
    let b ← .expect input[s.2 + 0xff]?
    writeBridges input i (s.1 ++ [0xff#8, b], s.2 + 0xff)
  else .ok s
termination_by i - s.2
decreasing_by omega

/-- The loop body of the exception list. -/
def writePass (input : List U8) (s : List U8 × Nat) (x : U8 × Nat) :
    Outcome Empty (List U8 × Nat) := do
  if isCompressible x.1 then .ok s
  else do
    let (out, previous) ← writeBridges input x.2 s
    .ok (out ++ [BitVec.ofNat 8 (x.2 - previous), x.1], x.2)

/-- `compress`: what it returns, and `out` after it. -/
def compress (input out : List U8) : Outcome Empty (Bool × List U8) :=
  let len := input.length
  if len < 8 then .ok (false, out)
  else
    let maxExceptions := len >>> 5
    match input.zipIdx.foldlM (countPass maxExceptions) (0, 0) with
    | none => .ok (false, out)
    | some (numExceptions, _) => do
      let compressedLen := len - (len >>> 2)
      let (tmp, _) ← shifts.foldlM (packRound compressedLen len) (input.map sixBits, 0)
      let packed ← .expect (slice tmp 0 compressedLen)
      let out := out ++ packed ++ writeVint (BitVec.ofNat 32 numExceptions)
      if 0 < numExceptions then do
        let (out, _) ← input.zipIdx.foldlM (writePass input) (out, 0)
        .ok (true, out)
      else .ok (true, out)

/-! ## Decoding -/

/-- A byte of the last quarter, from the two top bits of the other three. -/
def unpackOne (compressedLen saved : Nat) (out : List U8) (i : Nat) : Result (List U8) := do
  let a ← .expect out[i]?
  let b ← .expect out[saved + i]?
  let c ← .expect out[(saved <<< 1) + i]?
  .guardOk (compressedLen + i < out.length)
  .ok (out.set (compressedLen + i)
    (((a &&& 0xC0#8) >>> 2) ||| ((b &&& 0xC0#8) >>> 4) ||| ((c &&& 0xC0#8) >>> 6)))

/-- Back to the original range. -/
def moveBack (b : U8) : U8 := ((b &&& 0x1F#8) ||| 0x20#8 ||| ((b &&& 0x20#8) <<< 1)) - 1#8

/-- The loop over the exceptions. -/
def restoreExceptions : Nat → Nat → List U8 → SliceInput → Result (List U8 × SliceInput)
  | 0, _, out, r => .ok (out, r)
  | n + 1, i, out, r => do
    let (delta, r) ← r.readByte
    let i := i + delta.toNat
    if out.length ≤ i then
      .err (.corrupted "lowercase-ASCII exception index out of range")
    else do
      let (b, r) ← r.readByte
      restoreExceptions n i (out.set i b) r

/-- `decompress_lowercase_ascii`. -/
def decompressLowercaseAscii (out : List U8) (r : SliceInput) : Result (List U8 × SliceInput) := do
  let len := out.length
  let saved := len >>> 2
  let compressedLen := len - saved
  let (packed, r) ← r.readN compressedLen
  let out ← (List.range saved).foldlM (unpackOne compressedLen saved)
    (packed ++ out.drop compressedLen)
  let out := out.map moveBack
  let (numExceptions, r) ← r.readVint
  restoreExceptions numExceptions.toInt.toNat 0 out r

end LuceneRust.Codecs.LowercaseAscii
