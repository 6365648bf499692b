import LuceneRust.Codecs.Lz4.Block
import LuceneRust.Store.SliceInput

/-!
# Writing LZ4 sequences

The part of `lucene_codecs::lz4` that both compressors share: reading and
hashing four bytes, measuring a match (`common_bytes`) and writing a
sequence or the last literals.  A subtraction that would underflow, a slice
out of range and a failed `debug_assert!` are panics.

`read4` is the little-endian read.  The source reads in the byte order of
the target and uses the word only to hash it and to compare it with another
one.
-/

namespace LuceneRust.Codecs.Lz4

open RustSem Store

/-- `LAST_LITERALS`. -/
def lastLiterals : Nat := 5

/-- `MAX_DISTANCE`. -/
def maxDistance : Nat := 1 <<< 16

/-- `read4`. -/
def read4 (buf : List U8) (i : Nat) : Result U32 := do
  let b ← .expect (slice buf i (i + 4))
  .ok (fromLeBytes 32 b)

/-- `hash`. -/
def hash (v : U32) (hashBits : Nat) : Nat :=
  ((v * 0x9E3779B1#32) >>> (32 - hashBits)).toNat

/-- The word loop of `common_bytes`.  The flag says that a differing word
was found, where the source returns. -/
def commonBytesWordPass (b : List U8) (o1 o2 max : Nat) (n : Nat) :
    Result (Nat ⊕ (Nat × Bool)) :=
  if n + 8 ≤ max then do
    let xs ← .expect (slice b (o1 + n) (o1 + n + 8))
    let ys ← .expect (slice b (o2 + n) (o2 + n + 8))
    let x := fromLeBytes 64 xs
    let y := fromLeBytes 64 ys
    if x ≠ y then .ok (.inr (n + (x ^^^ y).ctz.toNat / 8, true))
    else .ok (.inl (n + 8))
  else .ok (.inr (n, false))

/-- The byte loop of `common_bytes`. -/
def commonBytesTailPass (b : List U8) (o1 o2 max : Nat) (n : Nat) :
    Result (Nat ⊕ Nat) :=
  if n < max then do
    let x ← .expect b[o1 + n]?
    let y ← .expect b[o2 + n]?
    .ok (if x = y then .inl (n + 1) else .inr n)
  else .ok (.inr n)

/-- The two loops: how many of at most `max` bytes from `o1` and from `o2`
on agree. -/
def equalRun (b : List U8) (o1 o2 max : Nat) : Result Nat := do
  let (n, found) ← iterate (commonBytesWordPass b o1 o2 max) (max + 1) 0
  if found then .ok n
  else iterate (commonBytesTailPass b o1 o2 max) (max + 1) n

/-- `common_bytes`. -/
def commonBytes (b : List U8) (o1 o2 limit : Nat) : Result Nat := do
  let m1 ← .expect (checkedSub limit o1)
  let m2 ← .expect (checkedSub limit o2)
  equalRun b o1 o2 (min m1 m2)

/-- `encode_len`. -/
def encodeLen (l : Nat) (out : List U8) : List U8 :=
  if 0xFF ≤ l then encodeLen (l - 0xFF) (out ++ [0xFF])
  else out ++ [BitVec.ofNat 8 l]
termination_by l
decreasing_by omega

/-- `encode_literals`. -/
def encodeLiterals (bytes : List U8) (token : U8) (anchor literalLen : Nat)
    (out : List U8) : Result (List U8) := do
  let out := out ++ [token]
  let out := if 0x0F ≤ literalLen then encodeLen (literalLen - 0x0F) out
    else out
  let run ← .expect (slice bytes anchor (anchor + literalLen))
  .ok (out ++ run)

/-- `encode_last_literals`. -/
def encodeLastLiterals (bytes : List U8) (anchor literalLen : Nat)
    (out : List U8) : Result (List U8) :=
  let token := BitVec.ofNat 8 (min literalLen 0x0F) <<< 4
  encodeLiterals bytes token anchor literalLen out

/-- `encode_sequence`. -/
def encodeSequence (bytes : List U8)
    (anchor matchRef matchOff matchLen : Nat) (out : List U8) :
    Result (List U8) := do
  let literalLen ← .expect (checkedSub matchOff anchor)
  .guardOk (minMatch ≤ matchLen)
  let token := (BitVec.ofNat 8 (min literalLen 0x0F) <<< 4) |||
    BitVec.ofNat 8 (min (matchLen - minMatch) 0x0F)
  let out ← encodeLiterals bytes token anchor literalLen out
  let matchDec ← .expect (checkedSub matchOff matchRef)
  .guardOk (0 < matchDec ∧ matchDec < 1 <<< 16)
  let out := out ++ toLeBytes 2 (BitVec.ofNat 16 matchDec)
  .ok (if minMatch + 0x0F ≤ matchLen
    then encodeLen (matchLen - 0x0F - minMatch) out else out)

end LuceneRust.Codecs.Lz4
