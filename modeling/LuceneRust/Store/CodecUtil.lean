import LuceneRust.Store.RoundTrip

/-!
# `lucene_store::codec_util`, headers and footers

An index file starts with a header (a magic word, the name of the codec, a
version, an id and a suffix) and ends with a footer whose checksum covers all
that is before it.  The checksum itself is `crc32fast`'s: it is the parameter
`crc32`.

* `checkHeader_reads` and `checkIndexHeaderSuffix_reads` read back what
  `writeIndexHeader` wrote.
* `checkFooter_writeFooter` accepts what `writeFooter` wrote.
-/

namespace LuceneRust.Store

open RustSem

/-- `CODEC_MAGIC`. -/
def codecMagic : U32 := 0x3fd76c17#32

/-- `FOOTER_MAGIC`. -/
def footerMagic : U32 := ~~~codecMagic

/-- `FOOTER_LENGTH`. -/
def footerLength : Nat := 16

/-- The format `{:#x}`. -/
def hex (n : Nat) : String := "0x" ++ String.ofList (Nat.toDigits 16 n)

/-- `str::is_ascii`. -/
def isAscii (s : String) : Bool := s.toList.all (·.toNat < 128)

section

variable (bmi2 : Bool)

/-- `write_header`. -/
def writeHeader (out : List U8) (codec : String) (version : U32) : Result (List U8) := do
  .guardOk (isAscii codec = true ∧ (utf8Bytes codec).length < 128)
  let out := writeBeU32 out codecMagic
  let out := writeString bmi2 out codec
  .ok (writeBeU32 out version)

/-- `write_index_header`: the header is put together in a buffer of its own. -/
def writeIndexHeader (out : List U8) (codec : String) (version : U32) (id : List U8)
    (suffix : String) : Result (List U8) := do
  .guardOk (isAscii suffix = true ∧ (utf8Bytes suffix).length < 256)
  let header ← writeHeader bmi2 [] codec version
  let header := writeBytes header id
  let header := writeByte header (BitVec.ofNat 8 (utf8Bytes suffix).length)
  let header := writeBytes header (utf8Bytes suffix)
  .ok (writeBytes out header)

end

/-- One bit of the CRC-32 of a byte. -/
def crc32Bit (crc : U32) : U32 :=
  if crc &&& 1#32 = 1#32 then (crc >>> 1) ^^^ 0xEDB88320#32 else crc >>> 1

/-- `crc32fast::hash`, bit by bit. -/
def crc32Hash (buf : List U8) : U32 :=
  ~~~ buf.foldl (fun crc b => crc32Bit^[8] (crc ^^^ b.setWidth 32)) 0xFFFFFFFF#32

/-- `write_footer`. -/
def writeFooter (crc32 : List U8 → U32) (buf : List U8) : List U8 :=
  let buf := writeBeU32 buf footerMagic
  let buf := writeBeU32 buf 0
  writeBeU64 buf ((crc32 buf).setWidth 64)

namespace SliceInput

/-- `slice`. -/
def subslice (inp : SliceInput) (start stop : Nat) : Result (List U8) :=
  .okOr (slice inp.buf start stop) (.eof inp.pos)

/-- `seek`. -/
def seek (inp : SliceInput) (pos : Nat) : Result SliceInput :=
  if h : pos ≤ inp.buf.length then .ok ⟨inp.buf, pos, h⟩ else .err (.eof inp.pos)

/-- `read_string_bytes`. -/
def readStringBytes (inp : SliceInput) : Result (List U8 × SliceInput) := do
  let (len, inp) ← inp.readLength "string"
  let bytes ← inp.subslice inp.pos (inp.pos + len)
  let inp ← inp.seek (inp.pos + len)
  .ok (bytes, inp)

/-- `check_header_no_magic`: the version of the file. -/
def checkHeaderNoMagic (expectedCodec : String) (minVersion maxVersion : Int)
    (inp : SliceInput) : Result (U32 × SliceInput) := do
  let (actualCodec, inp) ← inp.readStringBytes
  if actualCodec ≠ utf8Bytes expectedCodec then
    match fromUtf8 actualCodec with
    | none => .err (.corrupted "invalid UTF-8 string")
    | some actual =>
      .err (.corrupted ("codec mismatch: actual codec=" ++ actual ++ " vs expected codec=" ++
        expectedCodec))
  else
    let (version, inp) ← inp.readBeU32
    if version.toInt < minVersion then
      .err (.corrupted ("Version too old: actual version=" ++ toString version.toInt ++
        " but minVersion=" ++ toString minVersion))
    else if maxVersion < version.toInt then
      .err (.corrupted ("Version too new: actual version=" ++ toString version.toInt ++
        " but maxVersion=" ++ toString maxVersion))
    else .ok (version, inp)

/-- `check_header`. -/
def checkHeader (expectedCodec : String) (minVersion maxVersion : Int) (inp : SliceInput) :
    Result (U32 × SliceInput) := do
  let (magic, inp) ← inp.readBeU32
  if magic ≠ codecMagic then
    .err (.corrupted ("codec header mismatch: actual header=" ++ hex magic.toNat ++
      " vs expected header=" ++ hex codecMagic.toNat))
  else inp.checkHeaderNoMagic expectedCodec minVersion maxVersion

/-- `check_index_header_suffix`. -/
def checkIndexHeaderSuffix (expectedSuffix : String) (inp : SliceInput) :
    Result (String × SliceInput) := do
  let (len, inp) ← inp.readByte
  let start := inp.pos
  let bytes ← inp.subslice start (start + len.toNat)
  let inp ← inp.seek (start + len.toNat)
  if bytes = utf8Bytes expectedSuffix then .ok (expectedSuffix, inp)
  else
    match fromUtf8 bytes with
    | none => .err (.corrupted "invalid UTF-8 suffix")
    | some suffix =>
      .err (.corrupted ("file mismatch: suffix=" ++ suffix ++ " vs expected suffix=" ++
        expectedSuffix))

/-- `check_footer`, for an input of `totalLen` bytes. -/
def checkFooter (crc32 : List U8 → U32) (inp : SliceInput) (totalLen : Nat) :
    Result (U64 × SliceInput) :=
  if totalLen < footerLength then
    .err (.corrupted ("misplaced codec footer (file truncated?): length=" ++
      toString totalLen ++ " but footerLength==" ++ toString footerLength))
  else
    let footerStart := totalLen - footerLength
    if inp.pos ≠ footerStart then
      .err (.corrupted ("did not read all bytes from file: read " ++ toString inp.pos ++
        " vs size " ++ toString totalLen ++ " (resource=...)"))
    else do
      let (magic, inp) ← inp.readBeU32
      if magic ≠ footerMagic then
        .err (.corrupted ("codec footer mismatch (file truncated?): actual footer=" ++
          hex magic.toNat ++ " vs expected footer=" ++ hex footerMagic.toNat))
      else
        let (algorithmId, inp) ← inp.readBeU32
        if algorithmId ≠ 0 then
          .err (.corrupted ("codec footer mismatch: unknown algorithmID: " ++
            toString algorithmId.toNat))
        else
          let covered ← inp.subslice 0 (footerStart + 8)
          let actual : U64 := (crc32 covered).setWidth 64
          let (expected, inp) ← inp.readBeU64
          if expected &&& 0xFFFFFFFF00000000#64 ≠ 0 then
            .err (.corrupted ("Illegal CRC-32 checksum: " ++ toString expected.toNat))
          else if expected ≠ actual then
            .err (.corrupted ("checksum failed (hardware problem?) : expected=" ++
              hex expected.toNat ++ " actual=" ++ hex actual.toNat))
          else .ok (actual, inp)

end SliceInput

/-! ## What the writers put there -/

/-- The bytes of a header. -/
def headerBytes (codec : String) (version : U32) : List U8 :=
  toBeBytes 4 codecMagic ++ (stringBytes codec ++ toBeBytes 4 version)

/-- The bytes of a suffix. -/
def suffixBytes (suffix : String) : List U8 :=
  [BitVec.ofNat 8 (utf8Bytes suffix).length] ++ utf8Bytes suffix

theorem writeHeader_eq (bmi2 : Bool) (out : List U8) {codec : String} (version : U32)
    (hc : isAscii codec = true ∧ (utf8Bytes codec).length < 128) :
    writeHeader bmi2 out codec version = .ok (out ++ headerBytes codec version) := by
  rw [writeHeader, guardOk_pos hc, ok_bind]
  simp only [writeString_eq, writeBeU32, writeBytes, headerBytes, List.append_assoc]

theorem writeIndexHeader_eq (bmi2 : Bool) (out : List U8) {codec : String} (version : U32)
    (id : List U8) {suffix : String}
    (hc : isAscii codec = true ∧ (utf8Bytes codec).length < 128)
    (hs : isAscii suffix = true ∧ (utf8Bytes suffix).length < 256) :
    writeIndexHeader bmi2 out codec version id suffix =
      .ok (out ++ (headerBytes codec version ++ (id ++ suffixBytes suffix))) := by
  rw [writeIndexHeader, guardOk_pos hs, ok_bind,
    writeHeader_eq bmi2 [] version hc, ok_bind]
  simp only [writeBytes, writeByte, suffixBytes, List.nil_append, List.append_assoc]

/-- A footer comes behind what is there. -/
theorem writeFooter_append (crc32 : List U8 → U32) (body : List U8) :
    ∃ footer, writeFooter crc32 body = body ++ footer := by
  refine ⟨toBeBytes 4 footerMagic ++ (toBeBytes 4 (0 : U32) ++ toBeBytes 8 ((crc32 (body ++
    (toBeBytes 4 footerMagic ++ toBeBytes 4 (0 : U32)))).setWidth 64 : U64)), ?_⟩
  simp only [writeFooter, writeBeU32, writeBeU64, writeBytes, List.append_assoc]

/-! ## Reading them back -/

/-- A slice at the cursor, and a seek behind it, are a read. -/
theorem subslice_seek_eq {inp : SliceInput} {a b : List U8} (h : inp.rest = a ++ b) :
    inp.subslice inp.pos (inp.pos + a.length) = .ok a ∧
      inp.seek (inp.pos + a.length) = .ok (inp.advance a.length) := by
  have hlen := congrArg List.length h
  have hle := inp.pos_le
  rw [SliceInput.rest_length, SliceInput.remaining, List.length_append] at hlen
  have hin : inp.pos + a.length ≤ inp.buf.length := by omega
  constructor
  · rw [SliceInput.subslice, slice_eq_some (by omega) hin, Nat.add_sub_cancel_left,
      show inp.buf.drop inp.pos = a ++ b from h, List.take_left, okOr_some]
  · rw [SliceInput.seek, dif_pos hin, SliceInput.advance]
    simp only [Nat.min_eq_left hin]

theorem reads_readStringBytes {s : String} (hs : (utf8Bytes s).length < 2 ^ 31) :
    Reads SliceInput.readStringBytes (stringBytes s) (utf8Bytes s) := by
  intro inp tail h
  rw [stringBytes, List.append_assoc] at h
  have hrest := SliceInput.rest_advance_append h
  obtain ⟨hslice, hseek⟩ := subslice_seek_eq hrest
  rw [SliceInput.readStringBytes, readLength_eq hs "string" h (by simp), ok_bind]
  dsimp only
  rw [hslice, ok_bind, hseek, ok_bind, SliceInput.advance_advance,
    stringBytes, List.length_append]

theorem checkHeader_reads (codec : String) (version : U32) {lo hi : Int}
    (hc : (utf8Bytes codec).length < 2 ^ 31) (hlo : lo ≤ version.toInt)
    (hhi : version.toInt ≤ hi) :
    Reads (SliceInput.checkHeader codec lo hi) (headerBytes codec version) version := by
  intro inp tail h
  rw [headerBytes, List.append_assoc, List.append_assoc] at h
  have hrest := SliceInput.rest_advance_append h
  have hrest' := SliceInput.rest_advance_append hrest
  rw [SliceInput.checkHeader, reads_readBeU32 codecMagic inp _ h, ok_bind]
  dsimp only
  rw [if_neg (fun hne => hne rfl), SliceInput.checkHeaderNoMagic,
    reads_readStringBytes hc _ _ hrest, ok_bind]
  dsimp only
  rw [if_neg (fun hne => hne rfl), reads_readBeU32 version _ _ hrest', ok_bind]
  dsimp only
  rw [if_neg (by omega), if_neg (by omega), SliceInput.advance_advance,
    SliceInput.advance_advance, headerBytes, List.length_append, List.length_append]

theorem checkIndexHeaderSuffix_reads {suffix : String}
    (hs : (utf8Bytes suffix).length < 256) :
    Reads (SliceInput.checkIndexHeaderSuffix suffix) (suffixBytes suffix) suffix := by
  intro inp tail h
  rw [suffixBytes, List.append_assoc] at h
  have hrest := SliceInput.rest_advance_append h
  obtain ⟨hslice, hseek⟩ := subslice_seek_eq hrest
  have hlen : (BitVec.ofNat 8 (utf8Bytes suffix).length).toNat = (utf8Bytes suffix).length := by
    rw [BitVec.toNat_ofNat, Nat.mod_eq_of_lt (by omega)]
  rw [SliceInput.checkIndexHeaderSuffix, Reads.readByte _ inp _ h, ok_bind]
  dsimp only
  rw [hlen]
  rw [hslice, ok_bind, hseek, ok_bind, if_pos rfl,
    SliceInput.advance_advance, suffixBytes, List.length_append]

/-- The footer of a file is accepted where the file is as it was written. -/
theorem checkFooter_writeFooter (crc32 : List U8 → U32) (body : List U8) {inp : SliceInput}
    (hbuf : inp.buf = writeFooter crc32 body) (hpos : inp.pos = body.length) :
    ∃ r, inp.checkFooter crc32 (writeFooter crc32 body).length = .ok r := by
  set covered := body ++ (toBeBytes 4 footerMagic ++ toBeBytes 4 (0 : U32)) with hcov
  have hfooter : writeFooter crc32 body =
      covered ++ toBeBytes 8 ((crc32 covered).setWidth 64) := by
    simp only [writeFooter, writeBeU32, writeBeU64, writeBytes, hcov, List.append_assoc]
  have h4 : ∀ v : U32, (toBeBytes 4 v).length = 4 := fun v => by simp [toBeBytes]
  have h8 : ∀ v : U64, (toBeBytes 8 v).length = 8 := fun v => by simp [toBeBytes]
  have hclen : covered.length = body.length + 8 := by
    rw [hcov, List.length_append, List.length_append, h4, h4]
  have hlen : (writeFooter crc32 body).length = body.length + 16 := by
    rw [hfooter, List.length_append, hclen, h8]
  have hrest : inp.rest = toBeBytes 4 footerMagic ++ (toBeBytes 4 (0 : U32) ++
      (toBeBytes 8 ((crc32 covered).setWidth 64) ++ [])) := by
    rw [SliceInput.rest, hbuf, hpos, hfooter, hcov, List.append_assoc, List.drop_left,
      List.append_assoc, List.append_nil]
  have hrest1 := SliceInput.rest_advance_append hrest
  have hrest2 := SliceInput.rest_advance_append hrest1
  have hslice : slice inp.buf 0 (body.length + 8) = some covered := by
    rw [hbuf, slice_eq_some (by omega) (by omega), hfooter, List.drop_zero, Nat.sub_zero,
      ← hclen, List.take_left]
  have hhigh : ((crc32 covered).setWidth 64 : U64) &&& 0xFFFFFFFF00000000#64 = 0 := by
    apply BitVec.eq_of_getLsbD_eq
    intro i hi
    rw [BitVec.getLsbD_and, BitVec.getLsbD_setWidth]
    by_cases hlt : i < 32
    · have : (0xFFFFFFFF00000000#64).getLsbD i = false := by
        revert i
        decide
      simp [this]
    · simp [BitVec.getLsbD_of_ge (crc32 covered) i (by omega)]
  rw [SliceInput.checkFooter, hlen, if_neg (by rw [footerLength]; omega)]
  dsimp only
  rw [hpos, if_neg (by rw [footerLength]; omega), reads_readBeU32 _ inp _ hrest,
    ok_bind, if_neg (fun hne => hne rfl), reads_readBeU32 _ _ _ hrest1,
    ok_bind, if_neg (fun hne => hne rfl), SliceInput.subslice]
  rw [show body.length + 16 - footerLength + 8 = body.length + 8 by rw [footerLength]; omega]
  simp only [SliceInput.buf_advance]
  rw [hslice, okOr_some, ok_bind]
  rw [reads_readBeU64 _ _ _ hrest2, ok_bind, if_neg (fun hne => hne hhigh),
    if_neg (fun hne => hne rfl)]
  exact ⟨_, rfl⟩

end LuceneRust.Store
