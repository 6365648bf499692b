import LuceneRust.Store.SliceInput
import LuceneRust.Store.Varint

/-!
# `lucene_store::data_output`, the writers

The methods of the trait `DataOutput` on a `Vec<u8>`.  A writer takes the
bytes written so far and returns them with its own behind them.  The flag
`bmi2` says whether the target has the instruction that `spread7` prefers.

A string is a Lean `String`, which like a Rust one is a sequence of Unicode
scalar values with its UTF-8 encoding; `utf8Bytes` is `as_bytes`.
-/

namespace LuceneRust.Store

open RustSem

/-! ## Zigzag -/

/-- `zigzag::encode` and `zigzag::encode_i32`, at the width of the value. -/
def zigzagEncode {w : Nat} (v : BitVec w) : BitVec w :=
  v.sshiftRight (w - 1) ^^^ (v <<< 1)

/-- `zigzag::decode` and `zigzag::decode_i32`. -/
def zigzagDecode {w : Nat} (v : BitVec w) : BitVec w :=
  (v >>> 1) ^^^ (-(v &&& 1#w))

/-! ## Writers -/

/-- `str::as_bytes`. -/
def utf8Bytes (s : String) : List U8 :=
  s.toByteArray.data.toList.map UInt8.toBitVec

/-- The big-endian bytes of a word. -/
def toBeBytes {w : Nat} (n : Nat) (v : BitVec w) : List U8 :=
  (toLeBytes n v).reverse

/-- `write_byte`. -/
def writeByte (out : List U8) (b : U8) : List U8 := out ++ [b]

/-- `write_bytes`. -/
def writeBytes (out b : List U8) : List U8 := out ++ b

/-- `write_be_u32`. -/
def writeBeU32 (out : List U8) (v : U32) : List U8 :=
  writeBytes out (toBeBytes 4 v)

/-- `write_be_u64`. -/
def writeBeU64 (out : List U8) (v : U64) : List U8 :=
  writeBytes out (toBeBytes 8 v)

/-- `write_i16`. -/
def writeI16 (out : List U8) (v : U16) : List U8 :=
  writeBytes out (toLeBytes 2 v)

/-- `write_i32`. -/
def writeI32 (out : List U8) (v : U32) : List U8 :=
  writeBytes out (toLeBytes 4 v)

/-- `write_i64`. -/
def writeI64 (out : List U8) (v : U64) : List U8 :=
  writeBytes out (toLeBytes 8 v)

/-- `GroupVIntUtil.numBytes`: the bytes of one value of a group. -/
def groupLen (v : U32) : Nat := 4 - (v ||| 1#32).clz.toNat / 8

/-- Put one value of a group behind the `n` bytes that are there. -/
def groupPut (s : List U8 × Nat) (v : U32) : Result (List U8 × Nat) := do
  .guardOk (s.2 + 4 ≤ s.1.length)
  .ok (splice s.1 s.2 (toLeBytes 4 v), s.2 + groupLen v)

/-- The flag byte of a group: the four lengths, less one. -/
def groupFlag (a b c d : U32) : U8 :=
  BitVec.ofNat 8 (((groupLen a - 1) <<< 6) ||| ((groupLen b - 1) <<< 4) |||
    ((groupLen c - 1) <<< 2) ||| (groupLen d - 1))

/-- One group, assembled in a buffer of 17 bytes. -/
def writeGroup (out : List U8) (a b c d : U32) : Result (List U8) := do
  let group := groupFlag a b c d :: List.replicate 16 0
  let (group, n) ← [a, b, c, d].foldlM groupPut (group, 1)
  .ok (writeBytes out (group.take n))

section

variable (bmi2 : Bool)

/-- `write_vint` on a `Vec<u8>`. -/
def writeVint (out : List U8) (v : U32) : List U8 :=
  pushVarint bmi2 out (v.setWidth 64)

/-- `write_vlong_raw_u64` on a `Vec<u8>`. -/
def writeVlongRawU64 (out : List U8) (v : U64) : List U8 :=
  pushVarint bmi2 out v

/-- `write_vlong`.  A negative value fails the `debug_assert!`. -/
def writeVlong (out : List U8) (v : U64) : Result (List U8) := do
  .guardOk (0 ≤ v.toInt)
  .ok (writeVlongRawU64 bmi2 out v)

/-- `write_zlong`. -/
def writeZlong (out : List U8) (v : U64) : List U8 :=
  writeVlongRawU64 bmi2 out (zigzagEncode v)

/-- `write_zint`. -/
def writeZint (out : List U8) (v : U32) : List U8 :=
  writeVint bmi2 out (zigzagEncode v)

/-- `write_group_vints`: whole groups of four, then plain vints. -/
def writeGroupVints (out : List U8) : List U32 → Result (List U8)
  | a :: b :: c :: d :: rest => do
    let out ← writeGroup out a b c d
    writeGroupVints out rest
  | rest => .ok (rest.foldl (writeVint bmi2) out)

/-- `write_string`. -/
def writeString (out : List U8) (s : String) : List U8 :=
  let out := writeVint bmi2 out (BitVec.ofNat 32 (utf8Bytes s).length)
  writeBytes out (utf8Bytes s)

/-- `write_map_of_strings`. -/
def writeMapOfStrings (out : List U8) (map : List (String × String)) :
    List U8 :=
  let out := writeVint bmi2 out (BitVec.ofNat 32 map.length)
  map.foldl (fun out kv => writeString bmi2 (writeString bmi2 out kv.1) kv.2)
    out

/-- `write_set_of_strings`. -/
def writeSetOfStrings (out : List U8) (set : List String) : List U8 :=
  let out := writeVint bmi2 out (BitVec.ofNat 32 set.length)
  set.foldl (writeString bmi2) out

end

end LuceneRust.Store
