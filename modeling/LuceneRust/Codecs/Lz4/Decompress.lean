import LuceneRust.RustSem.Bytes
import LuceneRust.Store.SliceInput

/-!
# The two LZ4 decoders

The model of `lucene_codecs::lz4::decompress`, the reference decoder over a
cursor, and of `decompress_slice`, the decoder over a slice that moves a
short sequence in fixed-size blocks.  An index out of range is a `panic`.
-/

namespace LuceneRust.Codecs.Lz4

open RustSem Store

/-- One step of the doubling loop of `copy_match`: the state is the buffer
and how much of the match is written. -/
def copyMatchPass (src dst len : Nat) (s : List U8 × Nat) :
    Result ((List U8 × Nat) ⊕ List U8) :=
  let (dest, written) := s
  if written < len then do
    let n := min (dst - src + written) (len - written)
    let dest ← copyWithin dest src n (dst + written)
    .ok (.inl (dest, written + n))
  else .ok (.inr dest)

/-- `copy_match`: `len` bytes to `dest[dst..]` from `dest[src..]`, where the
two ranges may overlap. -/
def copyMatch (dest : List U8) (src dst len : Nat) : Result (List U8) := do
  let period ← .expect (checkedSub dst src)
  if len ≤ period then copyWithin dest src len dst
  else if period = 1 then do
    let b ← .expect dest[src]?
    .guardOk (dst + len ≤ dest.length)
    pure (splice dest dst (List.replicate len b))
  else iterate (copyMatchPass src dst len) (len + 1) (dest, 0)

/-! ## The reference decoder -/

/-- The loop body of `read_length_extension`. -/
def readLengthExtensionPass (s : Nat × SliceInput) :
    Result ((Nat × SliceInput) ⊕ (Nat × SliceInput)) := do
  let (b, inp) ← s.2.readByte
  match checkedAdd s.1 b.toNat with
  | none => .err (.corrupted "LZ4 length extension overflows")
  | some next =>
    .ok (if b ≠ 0xFF then .inr (next, inp) else .inl (next, inp))

/-- `read_length_extension`.  Every pass reads a byte. -/
def readLengthExtension (input : SliceInput) (base : Nat) :
    Result (Nat × SliceInput) :=
  iterate readLengthExtensionPass (input.remaining + 1) (base, input)

/-- A length of the token: the nibble `0x0F` is followed by an extension. -/
def readNibble (input : SliceInput) (nibble : Nat) :
    Result (Nat × SliceInput) :=
  if nibble = 0x0F then readLengthExtension input nibble
  else .ok (nibble, input)

/-- The state of `decompress`: the input, the destination and the write
position. -/
structure DecompressState where
  input : SliceInput
  dest : List U8
  dOff : Nat

/-- The literal half of a sequence in `decompress`. -/
def decompressLiterals (s : DecompressState) (token : Nat) :
    Result DecompressState := do
  let (literalLen, input) ← readNibble s.input (token >>> 4)
  if literalLen ≠ 0 then do
    let end' ← .okOr (checkedAdd s.dOff literalLen) (.eof s.dOff)
    if s.dest.length < end' then .err (.eof end')
    else do
      let (run, input) ← input.readN literalLen
      .guardOk (s.dOff + run.length ≤ s.dest.length)
      .ok ⟨input, splice s.dest s.dOff run, end'⟩
  else .ok { s with input := input }

/-- The match half of a sequence in `decompress`. -/
def decompressMatch (s : DecompressState) (token : Nat) :
    Result DecompressState := do
  let (w, input) ← s.input.readU16
  let matchDec := w.toNat
  if matchDec = 0 then .err (.corrupted "LZ4 match offset 0 is invalid")
  else do
    let (matchLen, input) ← readNibble input (token &&& 0x0F)
    let matchLen ←
      .okOr (checkedAdd matchLen 4) (.corrupted "LZ4 match length overflows")
    if s.dOff < matchDec then
      .err (.corrupted "LZ4 match references before the start of the buffer")
    else do
      let end' ← .okOr (checkedAdd s.dOff matchLen) (.eof s.dOff)
      if s.dest.length < end' then .err (.eof end')
      else do
        let dest ← copyMatch s.dest (s.dOff - matchDec) s.dOff matchLen
        .ok ⟨input, dest, end'⟩

/-- The loop body of `decompress`. -/
def decompressPass (destEnd : Nat) (s : DecompressState) :
    Result (DecompressState ⊕ DecompressState) := do
  let (token, input) ← s.input.readByte
  let s ← decompressLiterals { s with input := input } token.toNat
  if destEnd ≤ s.dOff then .ok (.inr s)
  else do
    let s ← decompressMatch s token.toNat
    .ok (if destEnd ≤ s.dOff then .inr s else .inl s)

/-- `decompress`.  The result is the new write position, the destination
and the input.  Every pass of the loop reads a token, which bounds it. -/
def decompress (input : SliceInput) (decompressedLen : Nat) (dest : List U8)
    (dOff : Nat) : Result DecompressState := do
  let destEnd ← .okOr (checkedAdd dOff decompressedLen) (.eof dOff)
  if dest.length < destEnd then .err (.eof destEnd)
  else
    iterate (decompressPass destEnd) (input.remaining + 1) ⟨input, dest, dOff⟩

/-! ## The slice decoder -/

/-- The loop body of `slice_length_extension`: the length and the index. -/
def sliceLengthExtensionPass (src : List U8) (s : Nat × Nat) :
    Result ((Nat × Nat) ⊕ (Nat × Nat)) := do
  let b ← .okOr src[s.2]? (.eof s.2)
  match checkedAdd s.1 b.toNat with
  | none => .err (.corrupted "LZ4 length extension overflows")
  | some next =>
    .ok (if b ≠ 0xFF then .inr (next, s.2 + 1) else .inl (next, s.2 + 1))

/-- `slice_length_extension`. -/
def sliceLengthExtension (src : List U8) (s base : Nat) :
    Result (Nat × Nat) :=
  iterate (sliceLengthExtensionPass src) (src.length + 1 - s) (base, s)

/-- A length of the token, over a slice. -/
def sliceNibble (src : List U8) (s nibble : Nat) : Result (Nat × Nat) :=
  if nibble = 0x0F then sliceLengthExtension src s nibble
  else .ok (nibble, s)

/-- The state of `decompress_slice`: the index into the compressed slice,
the destination and the write position. -/
structure SliceState where
  s : Nat
  dest : List U8
  d : Nat

/-- The literal half of a sequence in `decompress_slice`.  A short run is
copied as one block of 16 bytes while both sides have them. -/
def sliceLiterals (src : List U8) (base destEnd : Nat) (st : SliceState)
    (token : Nat) : Result SliceState :=
  let lit := token >>> 4
  if lit ≠ 0 then
    if lit < 0x0F ∧ st.s + 16 ≤ src.length ∧ st.d + 16 ≤ destEnd then do
      .guardOk (st.d + 16 ≤ st.dest.length)
      .ok ⟨st.s + lit, splice st.dest st.d ((src.drop st.s).take 16),
        st.d + lit⟩
    else do
      let (lit, s) ← sliceNibble src st.s lit
      let end' ← .okOr (checkedAdd st.d lit) (.eof st.d)
      if st.dest.length < end' then .err (.eof end')
      else do
        let sEnd ← .okOr (checkedAdd s lit) (.eof (base + s))
        let run ← .okOr (slice src s sEnd) (.eof (base + s))
        .ok ⟨s + lit, splice st.dest st.d run, st.d + lit⟩
  else .ok st

/-- The copy of a match of at most 18 bytes at a distance of at least 8, in
steps of 8 bytes. -/
def wildCopyMatch (dest : List U8) (src d matchLen : Nat) :
    Result (List U8) := do
  let dest ← copyWithin dest src 8 d
  let dest ← copyWithin dest (src + 8) 8 (d + 8)
  if 16 < matchLen then copyWithin dest (src + 16) 8 (d + 16)
  else .ok dest

/-- The match half of a sequence in `decompress_slice`. -/
def sliceMatch (src : List U8) (base destEnd : Nat) (st : SliceState)
    (token : Nat) : Result SliceState := do
  let decBytes ← .okOr (slice src st.s (st.s + 2)) (.eof (base + st.s))
  let dec := (fromLeBytes 16 decBytes).toNat
  let s := st.s + 2
  if dec = 0 then .err (.corrupted "LZ4 match offset 0 is invalid")
  else if st.d < dec then
    .err (.corrupted "LZ4 match references before the start of the buffer")
  else do
    let (matchLen, s) ← sliceNibble src s (token &&& 0x0F)
    let matchLen ←
      .okOr (checkedAdd matchLen 4) (.corrupted "LZ4 match length overflows")
    let from' := st.d - dec
    if token &&& 0x0F ≠ 0x0F ∧ 8 ≤ dec ∧ st.d + 24 ≤ destEnd then do
      let dest ← wildCopyMatch st.dest from' st.d matchLen
      .ok ⟨s, dest, st.d + matchLen⟩
    else do
      let end' ← .okOr (checkedAdd st.d matchLen) (.eof st.d)
      if st.dest.length < end' then .err (.eof end')
      else do
        let dest ← copyMatch st.dest from' st.d matchLen
        .ok ⟨s, dest, end'⟩

/-- The loop body of `decompress_slice`. -/
def decompressSlicePass (src : List U8) (base destEnd : Nat)
    (st : SliceState) : Result (SliceState ⊕ SliceState) := do
  let token ← .okOr src[st.s]? (.eof (base + st.s))
  let st ← sliceLiterals src base destEnd { st with s := st.s + 1 } token.toNat
  if destEnd ≤ st.d then .ok (.inr st)
  else do
    let st ← sliceMatch src base destEnd st token.toNat
    .ok (if destEnd ≤ st.d then .inr st else .inl st)

/-- `decompress_slice`. -/
def decompressSlice (input : SliceInput) (decompressedLen : Nat)
    (dest : List U8) (dOff : Nat) : Result DecompressState := do
  let destEnd ← .okOr (checkedAdd dOff decompressedLen) (.eof dOff)
  if dest.length < destEnd then .err (.eof destEnd)
  else do
    let src := input.rest
    let st ← iterate (decompressSlicePass src input.pos destEnd)
      (src.length + 1) ⟨0, dest, dOff⟩
    let input ← input.skip st.s
    .ok ⟨input, st.dest, st.d⟩

end LuceneRust.Codecs.Lz4
