import LuceneRust.Index.SegmentInfos

/-!
# The file of a commit reads back

`Valid` is what `parse` asks of a commit, and what it accepts is valid
(`parse_valid`).  `parse_toBytes` says that a valid commit reads back as it was
written: in the current format, without the fields that the file does not have,
and with the version of its oldest segment filled in (`SegmentInfos.written`).
-/

namespace LuceneRust.Index

open RustSem
open Store (SliceInput Reads utf8Bytes stringBytes lengthBytes vintBytes toBeBytes)

/-! ## Readers that take their bytes -/

/-- The reader takes exactly the bytes `bs` and returns `a`. -/
def Parses {α : Type} (rd : SliceInput → Result (α × SliceInput)) (bs : List U8) (a : α) :
    Prop :=
  ∀ (inp : SliceInput) (tail : List U8), inp.rest = bs ++ tail →
    rd inp = .ok (a, inp.advance bs.length)

section parses

variable {α β : Type} {rd : SliceInput → Result (α × SliceInput)} {bs : List U8} {a : α}

theorem ofStore_reads {rd : SliceInput → Store.Result (α × SliceInput)} (h : Reads rd bs a)
    {inp : SliceInput} {tail : List U8} (hrest : inp.rest = bs ++ tail) :
    ofStore (rd inp) = .ok (a, inp.advance bs.length) := by
  rw [h inp tail hrest, ofStore]

/-- The number of the call plays no role, so the range may start anywhere. -/
theorem foldlM_readMany (enc : α → List U8) (val : α → β)
    {rd : SliceInput → Result (β × SliceInput)} (items : List α)
    (h : ∀ x ∈ items, Parses rd (enc x) (val x)) :
    ∀ (n : Nat) (dst : List β) (inp : SliceInput) (tail : List U8),
      inp.rest = items.flatMap enc ++ tail →
      (List.range' n items.length).foldlM (fun s _ => do
          let (a, inp) ← rd s.2
          .ok (s.1 ++ [a], inp)) (dst, inp) =
        (.ok (dst ++ items.map val, inp.advance (items.flatMap enc).length) :
          Result (List β × SliceInput)) := by
  induction items with
  | nil =>
    intro n dst inp tail _
    simp
  | cons x xs ih =>
    intro n dst inp tail hrest
    rw [List.flatMap_cons, List.append_assoc] at hrest
    have hx := h x List.mem_cons_self inp _ hrest
    have hxs := ih (fun y hy => h y (List.mem_cons_of_mem x hy)) (n + 1) (dst ++ [val x]) _ tail
      (SliceInput.rest_advance_append hrest)
    rw [List.length_cons, List.range'_succ, List.foldlM_cons]
    simp only [hx, ok_bind]
    rw [hxs, SliceInput.advance_advance, List.flatMap_cons, List.length_append,
      List.map_cons, List.append_assoc, List.singleton_append]

/-- The reader is called once for each item of a list. -/
theorem parses_readMany (enc : α → List U8) (val : α → β)
    {rd : SliceInput → Result (β × SliceInput)} (items : List α)
    (h : ∀ x ∈ items, Parses rd (enc x) (val x)) :
    Parses (readMany rd items.length) (items.flatMap enc) (items.map val) := by
  intro inp tail hrest
  rw [readMany, List.range_eq_range', foldlM_readMany enc val items h 0 [] inp tail hrest,
    List.nil_append]

end parses

/-! ## The parts of a commit -/

/-- The bytes of a version. -/
def versionBytes (v : LuceneVersion) : List U8 :=
  vintBytes v.major ++ (vintBytes v.minor ++ vintBytes v.bugfix)

/-- The bytes of the id of a `SegmentCommitInfo`. -/
def sciIdBytes : Option Id → List U8
  | some id => 1 :: id.1
  | none => [0]

/-- The bytes of a set of strings. -/
def setBytes (set : List String) : List U8 :=
  lengthBytes set.length ++ set.flatMap stringBytes

/-- The bytes of the doc-values files of a field. -/
def dvFieldBytes (field : U32 × List String) : List U8 :=
  toBeBytes 4 field.1 ++ setBytes field.2

/-- The bytes of a segment. -/
def segmentBytes (seg : SegmentCommitInfo) : List U8 :=
  stringBytes seg.segmentName ++ (seg.segmentId.1 ++ (stringBytes seg.codecName ++
    (toBeBytes 8 seg.delGen ++ (toBeBytes 4 seg.delCount ++ (toBeBytes 8 seg.fieldInfosGen ++
      (toBeBytes 8 seg.docValuesGen ++ (toBeBytes 4 seg.softDelCount ++
        (sciIdBytes seg.sciId ++ (setBytes seg.fieldInfosFiles ++
          (toBeBytes 4 (BitVec.ofNat 32 seg.dvUpdateFiles.length) ++
            seg.dvUpdateFiles.flatMap dvFieldBytes))))))))))

/-- The bytes of the version of the oldest segment, which a commit without
segments does not have. -/
def minVersionBytes (sis : SegmentInfos) : List U8 :=
  if sis.segments = [] then []
  else versionBytes (sis.minSegmentLuceneVersion.getD sis.luceneVersion)

/-- The bytes of a commit before its footer. -/
def bodyBytes (sis : SegmentInfos) : List U8 :=
  Store.headerBytes codecName versionCurrent ++ (sis.id.1 ++
    (Store.suffixBytes (Util.toBase36 sis.generation) ++ (versionBytes sis.luceneVersion ++
      (vintBytes sis.indexCreatedVersionMajor ++ (toBeBytes 8 sis.version ++
        (Store.encodeVarint sis.counter ++
          (toBeBytes 4 (BitVec.ofNat 32 sis.segments.length) ++ (minVersionBytes sis ++
            (sis.segments.flatMap segmentBytes ++ (lengthBytes sis.userData.length ++
              sis.userData.flatMap Store.pairBytes))))))))))

/-! ## What the writers put there -/

theorem writeVintVersion_eq (bmi2 : Bool) (out : List U8) (v : LuceneVersion) :
    writeVintVersion bmi2 out v = out ++ versionBytes v := by
  simp only [writeVintVersion, Store.writeVint_eq, versionBytes, List.append_assoc]

theorem writeSciId_eq (out : List U8) (id : Option Id) :
    writeSciId out id = out ++ sciIdBytes id := by
  cases id with
  | none => rfl
  | some id => simp [writeSciId, sciIdBytes, Store.writeBytes, Store.writeByte]

theorem foldl_writeDvField (bmi2 : Bool) (fields : List (U32 × List String)) :
    ∀ out, fields.foldl (writeDvField bmi2) out = out ++ fields.flatMap dvFieldBytes := by
  induction fields with
  | nil =>
    intro out
    simp
  | cons field fields ih =>
    intro out
    rw [List.foldl_cons, ih, List.flatMap_cons, ← List.append_assoc]
    simp only [writeDvField, Store.writeBeU32, Store.writeBytes, Store.writeSetOfStrings_eq,
      dvFieldBytes, setBytes, List.append_assoc]

theorem writeSegment_eq (bmi2 : Bool) (out : List U8) (seg : SegmentCommitInfo) :
    writeSegment bmi2 out seg = out ++ segmentBytes seg := by
  simp only [writeSegment, foldl_writeDvField, Store.writeBeU32, Store.writeBeU64,
    Store.writeBytes, Store.writeSetOfStrings_eq, Store.writeString_eq, writeSciId_eq,
    segmentBytes, setBytes, List.append_assoc]

theorem foldl_writeSegment (bmi2 : Bool) (segs : List SegmentCommitInfo) :
    ∀ out, segs.foldl (writeSegment bmi2) out = out ++ segs.flatMap segmentBytes := by
  induction segs with
  | nil =>
    intro out
    simp
  | cons seg segs ih =>
    intro out
    rw [List.foldl_cons, ih, writeSegment_eq, List.flatMap_cons, List.append_assoc]

theorem writeSegments_eq (bmi2 : Bool) (out : List U8) (sis : SegmentInfos) :
    writeSegments bmi2 out sis = out ++ (toBeBytes 4 (BitVec.ofNat 32 sis.segments.length) ++
      (minVersionBytes sis ++ sis.segments.flatMap segmentBytes)) := by
  simp only [writeSegments, foldl_writeSegment, writeVintVersion_eq, Store.writeBeU32,
    Store.writeBytes, minVersionBytes]
  split
  · simp only [List.append_assoc, List.nil_append]
  · simp only [List.append_assoc]

/-! ## The header -/

theorem codecName_ok :
    Store.isAscii codecName = true ∧ (utf8Bytes codecName).length < 128 := by
  refine ⟨by decide, ?_⟩
  decide

theorem size_utf8Encode_le (l : List Char) : l.utf8Encode.size ≤ 4 * l.length := by
  induction l with
  | nil => simp
  | cons c l ih =>
    have h4 := c.utf8Size_le_four
    rw [← List.singleton_append, List.utf8Encode_append, ByteArray.size_append,
      List.utf8Encode_singleton]
    simp only [List.size_toByteArray, String.length_utf8EncodeChar, List.length_append,
      List.length_cons, List.length_nil]
    omega

theorem utf8Bytes_length_le (s : String) : (utf8Bytes s).length ≤ 4 * s.toList.length := by
  have h := size_utf8Encode_le s.toList
  rw [← String.toByteArray_ofList, String.ofList_toList] at h
  simpa [utf8Bytes] using h

theorem digitsLoop_length (fuel n : Nat) : (Util.digitsLoop fuel n).length ≤ fuel := by
  induction fuel generalizing n with
  | zero => exact Nat.le_refl 0
  | succ fuel ih =>
    rw [Util.digitsLoop]
    split
    · exact Nat.zero_le _
    · have := ih (n / 36)
      rw [List.length_append, List.length_singleton]
      omega

/-- A generation is a suffix that the header can hold. -/
theorem suffix_ok (n : Nat) :
    Store.isAscii (Util.toBase36 n) = true ∧ (utf8Bytes (Util.toBase36 n)).length < 256 := by
  constructor
  · rw [Store.isAscii, List.all_eq_true]
    intro c hc
    obtain ⟨d, hd, rfl⟩ := Util.toBase36_digit hc
    have hascii : ∀ d < 36, decide ((Util.digitChar d).toNat < 128) = true := by decide
    exact hascii d hd
  · have hle := utf8Bytes_length_le (Util.toBase36 n)
    have hlen : (Util.toBase36 n).toList.length ≤ 13 := by
      by_cases hn : n = 0
      · subst hn
        decide
      · rw [Util.toList_toBase36 hn]
        exact digitsLoop_length 13 n
    omega

/-! ## Valid commits -/

/-- A generation that `check_generation` lets pass. -/
def InRange (v : Int) : Prop := -1 ≤ v ∧ v ≤ maxGeneration

/-- A string that its length prefix can count. -/
def Short (s : String) : Prop := (utf8Bytes s).length < 2 ^ 31

/-- A set of strings that reads back. -/
def ShortSet (set : List String) : Prop := set.length < 2 ^ 31 ∧ ∀ s ∈ set, Short s

/-- Each component of a version is a byte. -/
structure LuceneVersion.Valid (v : LuceneVersion) : Prop where
  major : 0 ≤ v.major.toInt ∧ v.major.toInt ≤ 255
  minor : 0 ≤ v.minor.toInt ∧ v.minor.toInt ≤ 255
  bugfix : 0 ≤ v.bugfix.toInt ∧ v.bugfix.toInt ≤ 255

/-- What `parse` asks of a segment. -/
structure SegmentCommitInfo.Valid (seg : SegmentCommitInfo) : Prop where
  segmentName : Short seg.segmentName
  codecName : Short seg.codecName
  delGen : InRange seg.delGen.toInt
  delCount : 0 ≤ seg.delCount.toInt
  fieldInfosGen : InRange seg.fieldInfosGen.toInt
  docValuesGen : InRange seg.docValuesGen.toInt
  softDelCount : 0 ≤ seg.softDelCount.toInt
  fieldInfosFiles : ShortSet seg.fieldInfosFiles
  dvUpdateFiles : seg.dvUpdateFiles.length < 2 ^ 31
  dvFiles : ∀ field ∈ seg.dvUpdateFiles, ShortSet field.2

/-- What `parse` asks of a commit. -/
structure SegmentInfos.Valid (sis : SegmentInfos) : Prop where
  generation : 0 ≤ sis.generation ∧ sis.generation ≤ maxGeneration
  luceneVersion : sis.luceneVersion.Valid
  created : sis.indexCreatedVersionMajor.toInt ≤ sis.luceneVersion.major.toInt
  version : InRange sis.version.toInt
  counter : 0 ≤ sis.counter.toInt ∧ sis.counter.toInt ≤ maxGeneration
  minVersion : ∀ v, sis.minSegmentLuceneVersion = some v → v.Valid
  segmentCount : sis.segments.length < 2 ^ 31
  segments : ∀ seg ∈ sis.segments, seg.Valid
  userDataCount : sis.userData.length < 2 ^ 31
  userData : ∀ kv ∈ sis.userData, Short kv.1 ∧ Short kv.2

/-- A segment as it reads back: the fields that are not in the file have their
defaults. -/
def SegmentCommitInfo.written (seg : SegmentCommitInfo) : SegmentCommitInfo :=
  { seg with
    nextWriteDelGen := 0
    nextWriteFieldInfosGen := 0
    nextWriteDocValuesGen := 0
    bufferedDeletesGen := -1 }

/-- A commit as it reads back. -/
def SegmentInfos.written (sis : SegmentInfos) : SegmentInfos :=
  { sis with
    formatVersion := versionCurrent
    minSegmentLuceneVersion :=
      if sis.segments = [] then none
      else some (sis.minSegmentLuceneVersion.getD sis.luceneVersion)
    segments := sis.segments.map SegmentCommitInfo.written }

/-! ## Reading the parts -/

theorem reads_vint (v : U32) : Reads SliceInput.readVint (vintBytes v) v :=
  Store.reads_readVint v

theorem parses_versionComponent (which : String) {v : U32}
    (hv : 0 ≤ v.toInt ∧ v.toInt ≤ 255) :
    Parses (readVersionComponent which) (vintBytes v) v := by
  intro inp tail h
  rw [readVersionComponent, ofStore_reads (reads_vint v) h, ok_bind]
  dsimp only
  rw [checkVersionComponent, if_pos hv, ok_bind]

theorem parses_version {v : LuceneVersion} (hv : v.Valid) :
    Parses readVintVersion (versionBytes v) v := by
  intro inp tail h
  rw [versionBytes, List.append_assoc, List.append_assoc] at h
  have h1 := SliceInput.rest_advance_append h
  have h2 := SliceInput.rest_advance_append h1
  rw [readVintVersion, parses_versionComponent "major" hv.major _ _ h, ok_bind]
  dsimp only
  rw [parses_versionComponent "minor" hv.minor _ _ h1, ok_bind]
  dsimp only
  rw [parses_versionComponent "bugfix" hv.bugfix _ _ h2, ok_bind]
  simp only [SliceInput.advance_advance, versionBytes, List.length_append, Nat.add_assoc]

theorem parses_id (id : Id) : Parses readId id.1 id := by
  intro inp tail h
  have hread := SliceInput.readN_append h
  rw [id.2] at hread ⊢
  rw [readId, hread, ofStore, ok_bind]
  dsimp only
  rw [dif_pos id.2]

theorem checkGeneration_ok (which segment : String) {v : Int} (h : InRange v) :
    checkGeneration which v segment = .ok () := if_pos h

theorem parses_generation (which segment : String) {v : U64} (hv : InRange v.toInt) :
    Parses (readGeneration which segment) (toBeBytes 8 v) v := by
  intro inp tail h
  rw [readGeneration, ofStore_reads (Store.reads_readBeU64 v) h, ok_bind]
  dsimp only
  rw [checkGeneration_ok which segment hv, ok_bind]

theorem parses_counter {v : U64} (hv : InRange v.toInt) :
    Parses readCounter (Store.encodeVarint v) v := by
  intro inp tail h
  rw [readCounter, ofStore_reads (Store.reads_readVlong v) h, ok_bind]
  dsimp only
  rw [checkGeneration_ok "counter" "" hv, ok_bind]

theorem parses_deletionCount (segment : String) {v : U32} (hv : 0 ≤ v.toInt) :
    Parses (readDeletionCount segment) (toBeBytes 4 v) v := by
  intro inp tail h
  rw [readDeletionCount, ofStore_reads (Store.reads_readBeU32 v) h, ok_bind]
  dsimp only
  rw [if_neg (by omega)]

theorem parses_sciId (id : Option Id) :
    Parses (readSciId versionCurrent) (sciIdBytes id) id := by
  intro inp tail h
  rw [readSciId, if_pos (by decide)]
  cases id with
  | none =>
    rw [ofStore_reads (Reads.readByte 0) h, ok_bind]
    rfl
  | some id =>
    have hcons : inp.rest = [1] ++ (id.1 ++ tail) := h
    rw [ofStore_reads (Reads.readByte 1) hcons, ok_bind]
    dsimp only
    rw [if_neg (by decide), if_pos rfl,
      parses_id id _ _ (SliceInput.rest_advance_append hcons), ok_bind,
      SliceInput.advance_advance, ← List.length_append]
    rfl

theorem parses_dvField {field : U32 × List String} (hf : ShortSet field.2) :
    Parses readDvField (dvFieldBytes field) field := by
  intro inp tail h
  rw [dvFieldBytes, setBytes, List.append_assoc] at h
  have h1 := SliceInput.rest_advance_append h
  rw [readDvField, ofStore_reads (Store.reads_readBeU32 field.1) h, ok_bind]
  dsimp only
  rw [ofStore_reads (Store.reads_readSetOfStrings hf.1 hf.2) h1, ok_bind,
    SliceInput.advance_advance, ← List.length_append]
  rfl

theorem toBeBytes_length (n : Nat) {w : Nat} (v : BitVec w) : (toBeBytes n v).length = n := by
  rw [toBeBytes, List.length_reverse, toLeBytes_length]

theorem toInt_ofNat {n : Nat} (hn : n < 2 ^ 31) : (BitVec.ofNat 32 n).toInt = n := by
  rw [BitVec.toInt_eq_toNat_of_lt (by rw [BitVec.toNat_ofNat]; omega), BitVec.toNat_ofNat,
    Nat.mod_eq_of_lt (by omega)]

theorem parses_dvFields (segment : String) {fields : List (U32 × List String)}
    (hlen : fields.length < 2 ^ 31) (hf : ∀ field ∈ fields, ShortSet field.2) :
    Parses (readDvFields segment)
      (toBeBytes 4 (BitVec.ofNat 32 fields.length) ++ fields.flatMap dvFieldBytes) fields := by
  intro inp tail h
  rw [List.append_assoc] at h
  have h1 := SliceInput.rest_advance_append h
  have hpos : ∀ field : U32 × List String, 0 < (dvFieldBytes field).length := by
    intro field
    rw [dvFieldBytes, List.length_append, toBeBytes_length]
    omega
  have hcount := Store.length_le_flatMap hpos fields
  have hrem := SliceInput.rest_length
    (inp.advance (toBeBytes 4 (BitVec.ofNat 32 fields.length)).length)
  rw [h1, List.length_append] at hrem
  have hmany := parses_readMany dvFieldBytes id fields (fun f hf' => parses_dvField (hf f hf'))
    _ _ h1
  rw [List.map_id] at hmany
  rw [readDvFields, ofStore_reads (Store.reads_readBeU32 _) h, ok_bind]
  dsimp only
  rw [toInt_ofNat hlen, if_neg (by omega), Int.toNat_natCast, hmany,
    SliceInput.advance_advance, ← List.length_append]

theorem parses_segment {seg : SegmentCommitInfo} (hs : seg.Valid) :
    Parses (readSegment versionCurrent) (segmentBytes seg) seg.written := by
  intro inp tail h
  simp only [segmentBytes, setBytes, List.append_assoc] at h
  have h1 := SliceInput.rest_advance_append h
  have h2 := SliceInput.rest_advance_append h1
  have h3 := SliceInput.rest_advance_append h2
  have h4 := SliceInput.rest_advance_append h3
  have h5 := SliceInput.rest_advance_append h4
  have h6 := SliceInput.rest_advance_append h5
  have h7 := SliceInput.rest_advance_append h6
  have h8 := SliceInput.rest_advance_append h7
  have h9 := SliceInput.rest_advance_append h8
  rw [← List.append_assoc] at h9
  have h10 := SliceInput.rest_advance_append h9
  rw [← List.append_assoc] at h10
  rw [readSegment, ofStore_reads (Store.reads_readString hs.segmentName) h, ok_bind]
  dsimp only
  rw [parses_id _ _ _ h1, ok_bind]
  dsimp only
  rw [ofStore_reads (Store.reads_readString hs.codecName) h2, ok_bind]
  dsimp only
  rw [parses_generation _ _ hs.delGen _ _ h3, ok_bind]
  dsimp only
  rw [parses_deletionCount _ hs.delCount _ _ h4, ok_bind]
  dsimp only
  rw [parses_generation _ _ hs.fieldInfosGen _ _ h5, ok_bind]
  dsimp only
  rw [parses_generation _ _ hs.docValuesGen _ _ h6, ok_bind]
  dsimp only
  rw [parses_deletionCount _ hs.softDelCount _ _ h7, ok_bind]
  dsimp only
  rw [parses_sciId _ _ _ h8, ok_bind]
  dsimp only
  rw [ofStore_reads (Store.reads_readSetOfStrings hs.fieldInfosFiles.1 hs.fieldInfosFiles.2) h9,
    ok_bind]
  dsimp only
  rw [parses_dvFields _ hs.dvUpdateFiles hs.dvFiles _ _ h10, ok_bind]
  simp only [SliceInput.advance_advance, segmentBytes, setBytes, List.length_append,
    Nat.add_assoc]
  rfl

theorem segmentBytes_pos (seg : SegmentCommitInfo) : 0 < (segmentBytes seg).length := by
  have := Store.stringBytes_length_pos seg.segmentName
  rw [segmentBytes, List.length_append]
  omega

theorem parses_segments {sis : SegmentInfos} (hs : sis.Valid) :
    Parses (readSegments versionCurrent)
      (toBeBytes 4 (BitVec.ofNat 32 sis.segments.length) ++
        (minVersionBytes sis ++ sis.segments.flatMap segmentBytes))
      (sis.written.minSegmentLuceneVersion, sis.written.segments) := by
  intro inp tail h
  rw [List.append_assoc, List.append_assoc] at h
  have h1 := SliceInput.rest_advance_append h
  have hcount := Store.length_le_flatMap segmentBytes_pos sis.segments
  have hrem := SliceInput.rest_length
    (inp.advance (toBeBytes 4 (BitVec.ofNat 32 sis.segments.length)).length)
  rw [h1, List.length_append, List.length_append] at hrem
  rw [readSegments, ofStore_reads (Store.reads_readBeU32 _) h, ok_bind]
  dsimp only
  rw [toInt_ofNat hs.segmentCount, if_neg (by omega)]
  by_cases hnil : sis.segments = []
  case pos =>
    rw [if_neg (by rw [hnil]; decide)]
    simp [SegmentInfos.written, minVersionBytes, hnil]
  have hlen : 0 < sis.segments.length := List.length_pos_iff.mpr hnil
  have hmin : (sis.minSegmentLuceneVersion.getD sis.luceneVersion).Valid := by
    cases hv : sis.minSegmentLuceneVersion with
    | none => exact hs.luceneVersion
    | some v => exact hs.minVersion v hv
  rw [minVersionBytes, if_neg hnil] at h1
  have h2 := SliceInput.rest_advance_append h1
  have hmany := parses_readMany segmentBytes SegmentCommitInfo.written sis.segments
    (fun seg hseg => parses_segment (hs.segments seg hseg)) _ _ h2
  rw [if_pos (by omega), parses_version hmin _ _ h1, ok_bind]
  dsimp only
  rw [Int.toNat_natCast, hmany, ok_bind]
  simp only [SliceInput.advance_advance, SegmentInfos.written, minVersionBytes, hnil, if_false,
    List.length_append, Nat.add_assoc]

/-! ## The whole file -/

theorem toBytes_eq (bmi2 : Bool) (crc32 : List U8 → U32) {sis : SegmentInfos}
    (hgen : 0 ≤ sis.generation) (hcounter : 0 ≤ sis.counter.toInt) :
    toBytes bmi2 crc32 sis = .ok (Store.writeFooter crc32 (bodyBytes sis)) := by
  obtain ⟨n, hn⟩ := Int.eq_ofNat_of_zero_le hgen
  rw [toBytes]
  dsimp only
  rw [hn, Store.writeIndexHeader_eq bmi2 [] versionCurrent sis.id.1 codecName_ok (suffix_ok n),
    ok_bind, Store.writeVlong, guardOk_pos hcounter, ok_bind,
    ok_bind, Store.writeVlongRawU64, Store.pushVarint_eq, writeSegments_eq,
    Store.writeMapOfStrings_eq, writeVintVersion_eq, Store.writeVint_eq]
  simp only [Store.writeBeU64, Store.writeBytes, bodyBytes, hn, List.append_assoc,
    List.nil_append]

/-- The bytes of a commit behind its two versions. -/
def countersBytes (sis : SegmentInfos) : List U8 :=
  toBeBytes 8 sis.version ++ (Store.encodeVarint sis.counter ++
    ((toBeBytes 4 (BitVec.ofNat 32 sis.segments.length) ++ (minVersionBytes sis ++
      sis.segments.flatMap segmentBytes)) ++ (lengthBytes sis.userData.length ++
        sis.userData.flatMap Store.pairBytes)))

/-- `parse` reads up to the two versions of a commit, and the cursor is there. -/
theorem parse_versions (crc32 : List U8 → U32) {sis : SegmentInfos} {bytes footer : List U8}
    (hgen : 0 ≤ sis.generation ∧ sis.generation ≤ maxGeneration)
    (hversion : sis.luceneVersion.Valid) (hbytes : bytes = bodyBytes sis ++ footer) :
    ∃ inp : SliceInput, inp.buf = bytes ∧ inp.rest = countersBytes sis ++ footer ∧
      parse crc32 bytes sis.generation =
        if sis.luceneVersion.major.toInt < sis.indexCreatedVersionMajor.toInt then
          .err (.createdVersionAheadOfWriter sis.indexCreatedVersionMajor.toInt
            sis.luceneVersion.major.toInt sis.luceneVersion.minor.toInt
            sis.luceneVersion.bugfix.toInt)
        else
          parseCounters crc32 bytes sis.generation versionCurrent sis.id sis.luceneVersion
            sis.indexCreatedVersionMajor inp := by
  obtain ⟨n, hn⟩ := Int.eq_ofNat_of_zero_le hgen.1
  have h : (SliceInput.new bytes).rest = bodyBytes sis ++ footer := by
    rw [SliceInput.rest_new, hbytes]
  simp only [bodyBytes, List.append_assoc] at h
  have h1 := SliceInput.rest_advance_append h
  have h2 := SliceInput.rest_advance_append h1
  have h3 := SliceInput.rest_advance_append h2
  have h4 := SliceInput.rest_advance_append h3
  have h5 := SliceInput.rest_advance_append h4
  have hrange : InRange sis.generation := ⟨by have := hgen.1; omega, hgen.2⟩
  have hversions : version74 ≤ versionCurrent.toInt := by decide
  have hheader := Store.checkHeader_reads codecName versionCurrent
    (by have := codecName_ok.2; omega) hversions le_rfl
  have hsuffix := Store.checkIndexHeaderSuffix_reads (suffix_ok n).2
  rw [hn] at h2
  refine ⟨_, rfl, h5.trans ?_, ?_⟩
  · simp only [countersBytes, List.append_assoc]
  rw [parse]
  dsimp only
  rw [checkGeneration_ok _ _ hrange, ok_bind, ofStore_reads hheader h, ok_bind]
  dsimp only
  rw [parses_id _ _ _ h1, ok_bind]
  dsimp only
  rw [hn, ofStore_reads hsuffix h2, ok_bind, ← hn]
  dsimp only
  rw [parses_version hversion _ _ h3, ok_bind]
  dsimp only
  rw [ofStore_reads (reads_vint _) h4, ok_bind]

/-- `parse` reads what is behind the two versions. -/
theorem parseCounters_eq (crc32 : List U8 → U32) {sis : SegmentInfos} (hs : sis.Valid)
    {inp : SliceInput} {footer : List U8}
    (hfooter : Store.writeFooter crc32 (bodyBytes sis) = bodyBytes sis ++ footer)
    (hbuf : inp.buf = Store.writeFooter crc32 (bodyBytes sis))
    (hrest : inp.rest = countersBytes sis ++ footer) :
    parseCounters crc32 (Store.writeFooter crc32 (bodyBytes sis)) sis.generation versionCurrent
      sis.id sis.luceneVersion sis.indexCreatedVersionMajor inp = .ok sis.written := by
  have hcounter : InRange sis.counter.toInt := ⟨by have := hs.counter.1; omega, hs.counter.2⟩
  rw [countersBytes, List.append_assoc, List.append_assoc, List.append_assoc] at hrest
  have h1 := SliceInput.rest_advance_append hrest
  have h2 := SliceInput.rest_advance_append h1
  have h3 := SliceInput.rest_advance_append h2
  have h4 := SliceInput.rest_advance_append h3
  rw [parseCounters, parses_generation _ _ hs.version _ _ hrest, ok_bind]
  dsimp only
  rw [parses_counter hcounter _ _ h1, ok_bind]
  dsimp only
  rw [parses_segments hs _ _ h2, ok_bind]
  dsimp only
  rw [ofStore_reads (Store.reads_readMapOfStrings hs.userDataCount hs.userData) h3,
    ok_bind]
  -- What is left is the footer, so the cursor is at its start.
  set last := SliceInput.advance _ (lengthBytes sis.userData.length ++
    sis.userData.flatMap Store.pairBytes).length with hlast
  have hlastbuf : last.buf = Store.writeFooter crc32 (bodyBytes sis) := hbuf
  have hpos : last.pos = (bodyBytes sis).length := by
    have hrem := last.rest_length
    have hle := last.pos_le
    rw [h4, SliceInput.remaining] at hrem
    rw [hlastbuf, hfooter, List.length_append] at hrem hle
    omega
  obtain ⟨r, hr⟩ := Store.checkFooter_writeFooter crc32 (bodyBytes sis) hlastbuf hpos
  rw [hr, ofStore, ok_bind]
  rfl

theorem written_written (sis : SegmentInfos) : sis.written.written = sis.written := by
  by_cases hnil : sis.segments = []
  · simp [SegmentInfos.written, hnil]
  · simp [SegmentInfos.written, SegmentCommitInfo.written, Function.comp_def, hnil]

/-- The bytes do not depend on the fields that are not in the file. -/
theorem bodyBytes_written (sis : SegmentInfos) : bodyBytes sis.written = bodyBytes sis := by
  have hmin : minVersionBytes sis.written = minVersionBytes sis := by
    unfold minVersionBytes SegmentInfos.written
    by_cases hnil : sis.segments = []
    · simp [hnil]
    · simp [hnil]
  have hsegs : sis.written.segments.flatMap segmentBytes = sis.segments.flatMap segmentBytes := by
    simp only [SegmentInfos.written, List.flatMap_map]
    rfl
  have hlen : sis.written.segments.length = sis.segments.length := List.length_map _
  unfold bodyBytes
  rw [hmin, hsegs, hlen]
  rfl

/-- A commit reads back as it was written, if that is valid. -/
theorem parse_toBytes (bmi2 : Bool) (crc32 : List U8 → U32) {sis : SegmentInfos}
    (hs : sis.written.Valid) :
    ∃ bytes, toBytes bmi2 crc32 sis = .ok bytes ∧
      parse crc32 bytes sis.generation = .ok sis.written := by
  obtain ⟨footer, hfooter⟩ := Store.writeFooter_append crc32 (bodyBytes sis.written)
  obtain ⟨inp, hbuf, hrest, hparse⟩ :=
    parse_versions crc32 hs.generation hs.luceneVersion hfooter
  refine ⟨_, toBytes_eq bmi2 crc32 hs.generation.1 hs.counter.1, ?_⟩
  rw [← bodyBytes_written]
  refine hparse.trans ?_
  rw [if_neg (not_lt.mpr hs.created), parseCounters_eq crc32 hs hfooter hbuf hrest, written_written]

/-- A commit whose index is newer than the version that wrote it is written,
and does not read back. -/
theorem parse_toBytes_ahead (bmi2 : Bool) (crc32 : List U8 → U32) {sis : SegmentInfos}
    (hgen : 0 ≤ sis.generation ∧ sis.generation ≤ maxGeneration)
    (hversion : sis.luceneVersion.Valid) (hcounter : 0 ≤ sis.counter.toInt)
    (hahead : sis.luceneVersion.major.toInt < sis.indexCreatedVersionMajor.toInt) :
    ∃ bytes, toBytes bmi2 crc32 sis = .ok bytes ∧
      parse crc32 bytes sis.generation =
        .err (.createdVersionAheadOfWriter sis.indexCreatedVersionMajor.toInt
          sis.luceneVersion.major.toInt sis.luceneVersion.minor.toInt
          sis.luceneVersion.bugfix.toInt) := by
  obtain ⟨footer, hfooter⟩ := Store.writeFooter_append crc32 (bodyBytes sis)
  obtain ⟨inp, -, -, hparse⟩ := parse_versions crc32 hgen hversion hfooter
  refine ⟨_, toBytes_eq bmi2 crc32 hgen.1 hcounter, ?_⟩
  rw [hparse, if_pos hahead]

/-! ## What is accepted is valid -/

/-- Every value that the reader returns has `P`. -/
def Gives {ε α : Type} (rd : SliceInput → Outcome ε (α × SliceInput)) (P : α → Prop) : Prop :=
  ∀ inp a inp', rd inp = .ok (a, inp') → P a

theorem ofStore_eq_ok {α : Type} {x : Store.Result α} {a : α} (h : ofStore x = .ok a) :
    x = .ok a := by
  cases x with
  | ok b => simpa [ofStore] using h
  | err e => simp [ofStore] at h
  | panic => simp [ofStore] at h

section accepted

variable {α : Type} {P : α → Prop}

/-- A reader that is called so many times. -/
theorem gives_pushes {ε : Type} {rd : SliceInput → Outcome ε (α × SliceInput)} (h : Gives rd P)
    (n : Nat) (inp : SliceInput) {r : List α × SliceInput}
    (hr : (List.range n).foldlM (fun s _ => do
      let (a, inp) ← rd s.2
      .ok (s.1 ++ [a], inp)) ([], inp) = .ok r) :
    r.1.length = n ∧ ∀ a ∈ r.1, P a := by
  have hrun : ∀ (l : List Nat) (s r : List α × SliceInput), (∀ a ∈ s.1, P a) →
      l.foldlM (fun s _ => do
        let (a, inp) ← rd s.2
        .ok (s.1 ++ [a], inp)) s = .ok r → r.1.length = s.1.length + l.length ∧ ∀ a ∈ r.1, P a := by
    intro l
    induction l with
    | nil =>
      intro s r hs hr
      cases hr
      exact ⟨rfl, hs⟩
    | cons _ l ih =>
      intro s r hs hr
      rw [List.foldlM_cons, bind_eq_ok] at hr
      obtain ⟨s', hs', hr⟩ := hr
      rw [bind_eq_ok] at hs'
      obtain ⟨⟨a, inp'⟩, ha, hs'⟩ := hs'
      cases hs'
      obtain ⟨hlen, hall⟩ := ih _ r (fun b hb => by
        rcases List.mem_append.mp hb with hb | hb
        · exact hs b hb
        · rw [List.mem_singleton.mp hb]
          exact h _ _ _ ha) hr
      rw [List.length_append, List.length_singleton] at hlen
      rw [List.length_cons]
      exact ⟨by omega, hall⟩
  have h := hrun _ _ _ (by simp) hr
  rwa [List.length_nil, List.length_range, Nat.zero_add] at h

theorem gives_readLength (what : String) : Gives (SliceInput.readLength · what) (· < 2 ^ 31) := by
  intro inp len inp' h
  dsimp only at h
  rw [SliceInput.readLength, bind_eq_ok] at h
  obtain ⟨⟨v, inp₁⟩, -, h⟩ := h
  have hv := BitVec.toInt_lt (x := v)
  dsimp only at h
  split at h
  · cases h
  · split at h
    · cases h
    · cases h
      omega

theorem length_utf8Bytes_fromUtf8 {bs : List U8} {s : String}
    (h : SliceInput.fromUtf8 bs = some s) : (utf8Bytes s).length = bs.length := by
  rw [SliceInput.fromUtf8, String.fromUTF8?] at h
  split at h
  · cases h
    simp [utf8Bytes, String.fromUTF8]
  · cases h

theorem gives_readString : Gives SliceInput.readString Short := by
  intro inp s inp' h
  rw [SliceInput.readString, bind_eq_ok] at h
  obtain ⟨⟨len, inp₁⟩, hlen, h⟩ := h
  rw [bind_eq_ok] at h
  obtain ⟨bytes, hbytes, h⟩ := h
  have hlt := gives_readLength "string" _ _ _ hlen
  have hlength : bytes.length ≤ len := by
    unfold slice at hbytes
    split at hbytes
    · cases hbytes
      rw [List.length_take]
      omega
    · cases hbytes
  dsimp only at h
  split at h
  · cases h
  next s' hs =>
    cases h
    rw [Short, length_utf8Bytes_fromUtf8 hs]
    omega

theorem gives_readSetOfStrings : Gives SliceInput.readSetOfStrings ShortSet := by
  intro inp set inp' h
  rw [SliceInput.readSetOfStrings, bind_eq_ok] at h
  obtain ⟨⟨count, inp₁⟩, hcount, h⟩ := h
  obtain ⟨hlen, hall⟩ := gives_pushes gives_readString _ _ h
  exact ⟨hlen ▸ gives_readLength _ _ _ _ hcount, hall⟩

theorem gives_readMapOfStrings : Gives SliceInput.readMapOfStrings fun map =>
    map.length < 2 ^ 31 ∧ ∀ kv ∈ map, Short kv.1 ∧ Short kv.2 := by
  let readPair (inp : SliceInput) : Store.Result ((String × String) × SliceInput) := do
    let k ← inp.readString
    let v ← k.2.readString
    .ok ((k.1, v.1), v.2)
  have hpair : Gives readPair fun kv => Short kv.1 ∧ Short kv.2 := by
    intro inp kv inp' h
    simp only [readPair, bind_eq_ok] at h
    obtain ⟨⟨k, _⟩, hk, ⟨v, _⟩, hv, h⟩ := h
    cases h
    exact ⟨gives_readString _ _ _ hk, gives_readString _ _ _ hv⟩
  intro inp map inp' h
  rw [SliceInput.readMapOfStrings, bind_eq_ok] at h
  obtain ⟨⟨count, inp₁⟩, hcount, h⟩ := h
  obtain ⟨hlen, hall⟩ := gives_pushes hpair count inp₁ (r := (map, inp')) (by
    rw [← h]
    simp only [readPair, bind_assoc, ok_bind])
  exact ⟨hlen ▸ gives_readLength _ _ _ _ hcount, hall⟩

theorem checkGeneration_inRange {which segment : String} {v : Int} {u : Unit}
    (h : checkGeneration which v segment = .ok u) : InRange v := by
  rw [checkGeneration] at h
  split at h
  case isTrue hv => exact hv
  case isFalse => cases h

theorem gives_version : Gives readVintVersion LuceneVersion.Valid := by
  have hcomponent : ∀ which, Gives (readVersionComponent which)
      fun v => 0 ≤ v.toInt ∧ v.toInt ≤ 255 := by
    intro which inp v inp' h
    simp only [readVersionComponent, bind_eq_ok] at h
    obtain ⟨⟨w, inp₁⟩, -, w', hw, h⟩ := h
    rw [checkVersionComponent] at hw
    split at hw
    case isTrue hw' =>
      cases hw
      cases h
      exact hw'
    case isFalse => cases hw
  intro inp v inp' h
  simp only [readVintVersion, bind_eq_ok] at h
  obtain ⟨⟨major, _⟩, hmajor, ⟨minor, _⟩, hminor, ⟨bugfix, _⟩, hbugfix, h⟩ := h
  cases h
  exact ⟨hcomponent _ _ _ _ hmajor, hcomponent _ _ _ _ hminor, hcomponent _ _ _ _ hbugfix⟩

theorem gives_generation (which segment : String) :
    Gives (readGeneration which segment) fun v => InRange v.toInt := by
  intro inp v inp' h
  simp only [readGeneration, bind_eq_ok] at h
  obtain ⟨⟨w, _⟩, -, _, hw, h⟩ := h
  cases h
  exact checkGeneration_inRange hw

theorem gives_counter : Gives readCounter fun v => InRange v.toInt := by
  intro inp v inp' h
  simp only [readCounter, bind_eq_ok] at h
  obtain ⟨⟨w, _⟩, -, _, hw, h⟩ := h
  cases h
  exact checkGeneration_inRange hw

theorem gives_deletionCount (segment : String) :
    Gives (readDeletionCount segment) fun v => 0 ≤ v.toInt := by
  intro inp v inp' h
  simp only [readDeletionCount, bind_eq_ok] at h
  obtain ⟨⟨w, _⟩, -, h⟩ := h
  dsimp only at h
  split at h
  · cases h
  · cases h
    omega

theorem gives_dvFields (segment : String) :
    Gives (readDvFields segment) fun fields => fields.length < 2 ^ 31 ∧
      ∀ field ∈ fields, ShortSet field.2 := by
  have hfield : Gives readDvField fun field => ShortSet field.2 := by
    intro inp field inp' h
    simp only [readDvField, bind_eq_ok] at h
    obtain ⟨⟨_, _⟩, -, ⟨set, _⟩, hset, h⟩ := h
    cases h
    exact gives_readSetOfStrings _ _ _ (ofStore_eq_ok hset)
  intro inp fields inp' h
  simp only [readDvFields, bind_eq_ok] at h
  obtain ⟨⟨n, inp₁⟩, -, h⟩ := h
  have hn := BitVec.toInt_lt (x := n)
  dsimp only at h
  split at h
  · cases h
  · obtain ⟨hlen, hall⟩ := gives_pushes hfield _ _ h
    refine ⟨?_, hall⟩
    rw [hlen]
    omega

theorem gives_segment (formatVersion : U32) :
    Gives (readSegment formatVersion) SegmentCommitInfo.Valid := by
  intro inp seg inp' h
  simp only [readSegment, bind_eq_ok] at h
  obtain ⟨⟨name, _⟩, hname, ⟨_, _⟩, -, ⟨codec, _⟩, hcodec, ⟨_, _⟩, hdelGen, ⟨_, _⟩, hdelCount,
    ⟨_, _⟩, hfieldInfosGen, ⟨_, _⟩, hdocValuesGen, ⟨_, _⟩, hsoftDelCount, ⟨_, _⟩, -, ⟨_, _⟩, hfiles,
    ⟨_, _⟩, hdv, h⟩ := h
  cases h
  obtain ⟨hdvLength, hdvFiles⟩ := gives_dvFields _ _ _ _ hdv
  exact
    { segmentName := gives_readString _ _ _ (ofStore_eq_ok hname)
      codecName := gives_readString _ _ _ (ofStore_eq_ok hcodec)
      delGen := gives_generation _ _ _ _ _ hdelGen
      delCount := gives_deletionCount _ _ _ _ hdelCount
      fieldInfosGen := gives_generation _ _ _ _ _ hfieldInfosGen
      docValuesGen := gives_generation _ _ _ _ _ hdocValuesGen
      softDelCount := gives_deletionCount _ _ _ _ hsoftDelCount
      fieldInfosFiles := gives_readSetOfStrings _ _ _ (ofStore_eq_ok hfiles)
      dvUpdateFiles := hdvLength
      dvFiles := hdvFiles }

theorem gives_segments (formatVersion : U32) :
    Gives (readSegments formatVersion) fun r => (∀ v, r.1 = some v → v.Valid) ∧
      r.2.length < 2 ^ 31 ∧ ∀ seg ∈ r.2, seg.Valid := by
  intro inp r inp' h
  simp only [readSegments, bind_eq_ok] at h
  obtain ⟨⟨n, inp₁⟩, -, h⟩ := h
  have hn := BitVec.toInt_lt (x := n)
  dsimp only at h
  split at h
  · cases h
  · split at h
    · simp only [bind_eq_ok] at h
      obtain ⟨⟨v, _⟩, hv, ⟨segs, _⟩, hsegs, h⟩ := h
      cases h
      obtain ⟨hlen, hall⟩ := gives_pushes (gives_segment formatVersion) _ _ hsegs
      refine ⟨fun w hw => ?_, ?_, hall⟩
      · cases hw
        exact gives_version _ _ _ hv
      · rw [hlen]
        omega
    · cases h
      simp

/-- What `parse` accepts is valid, but for the sign of the counter. -/
theorem parse_valid {crc32 : List U8 → U32} {buf : List U8} {g : Int} {sis : SegmentInfos}
    (h : parse crc32 buf g = .ok sis) (hg : 0 ≤ sis.generation) (hcounter : 0 ≤ sis.counter.toInt) :
    sis.Valid := by
  simp only [parse, bind_eq_ok] at h
  obtain ⟨_, hgen, ⟨_, _⟩, -, ⟨_, _⟩, -, ⟨_, _⟩, -, ⟨_, _⟩, hversion, ⟨_, _⟩, -, h⟩ := h
  dsimp only at h
  split at h
  · cases h
  next hcreated =>
    simp only [parseCounters, bind_eq_ok] at h
    obtain ⟨⟨_, _⟩, hv, ⟨_, _⟩, hc, ⟨⟨_, _⟩, _⟩, hsegs, ⟨_, _⟩, huser, ⟨_, _⟩, -, h⟩ := h
    cases h
    obtain ⟨hmin, hcount, hall⟩ := gives_segments _ _ _ _ hsegs
    obtain ⟨huserCount, hstrings⟩ := gives_readMapOfStrings _ _ _ (ofStore_eq_ok huser)
    exact
      { generation := ⟨hg, (checkGeneration_inRange hgen).2⟩
        luceneVersion := gives_version _ _ _ hversion
        created := not_lt.mp hcreated
        version := gives_generation _ _ _ _ _ hv
        counter := ⟨hcounter, (gives_counter _ _ _ hc).2⟩
        minVersion := hmin
        segmentCount := hcount
        segments := hall
        userDataCount := huserCount
        userData := hstrings }

end accepted

end LuceneRust.Index
