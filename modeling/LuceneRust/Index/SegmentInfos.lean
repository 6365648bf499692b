import LuceneRust.Store.CodecUtil
import LuceneRust.Store.SegmentsFileName

/-!
# `lucene_index::segment_infos`, the bytes of a commit

A `SegmentInfos` is a commit: the segments of the index, and what the commit
knows about each of them.  `toBytes` writes the file of a commit and `parse`
reads it.  The signed words of the source are bit vectors that are read with
`BitVec.toInt`; the generation, which is only written as digits, is an `Int`.

The checksum is the parameter `crc32`, and `bmi2` is the flag of the varint
writer.  A failed `debug_assert!` of a writer is a panic.
-/

namespace LuceneRust.Index

open RustSem
open Store (SliceInput)

/-- `segment_infos::Error`. -/
inductive SegmentInfosError where
  | store (e : Store.Error)
  | invalidSegmentCount (count : Int)
  | invalidDeletionCount (count : Int) (segment : String)
  | invalidSciIdMarker (marker : U8)
  | invalidDocValuesFieldCount (count : Int) (segment : String)
  | createdVersionAheadOfWriter (created major minor bugfix : Int)
  | illegalVersion (which : String) (value : Int)
  | invalidGeneration (which : String) (value : Int) (segment : String)
  deriving Repr, DecidableEq

abbrev Result := Outcome SegmentInfosError

/-- `?` on a result of the store. -/
def ofStore {α : Type} : Store.Result α → Result α
  | .ok a => .ok a
  | .err e => .err (.store e)
  | .panic => .panic

/-- An id: `ID_LENGTH` bytes. -/
abbrev Id := { bs : List U8 // bs.length = 16 }

/-- `LuceneVersion`. -/
structure LuceneVersion where
  major : U32
  minor : U32
  bugfix : U32
  deriving Repr, DecidableEq

/-- `SegmentCommitInfo`. -/
structure SegmentCommitInfo where
  segmentName : String
  segmentId : Id
  codecName : String
  delGen : U64
  delCount : U32
  fieldInfosGen : U64
  docValuesGen : U64
  softDelCount : U32
  sciId : Option Id
  fieldInfosFiles : List String
  dvUpdateFiles : List (U32 × List String)
  nextWriteDelGen : U64
  nextWriteFieldInfosGen : U64
  nextWriteDocValuesGen : U64
  bufferedDeletesGen : U64
  deriving Repr, DecidableEq

/-- `SegmentInfos`. -/
structure SegmentInfos where
  id : Id
  generation : Int
  formatVersion : U32
  luceneVersion : LuceneVersion
  indexCreatedVersionMajor : U32
  version : U64
  counter : U64
  minSegmentLuceneVersion : Option LuceneVersion
  segments : List SegmentCommitInfo
  userData : List (String × String)
  deriving Repr, DecidableEq

/-- `CODEC_NAME`. -/
def codecName : String := "segments"

/-- `VERSION_74`. -/
def version74 : Int := 9

/-- `VERSION_CURRENT`. -/
def versionCurrent : U32 := 10#32

/-- `MAX_GENERATION`: `i64::MAX / 2`. -/
def maxGeneration : Int := (2 ^ 63 - 1) / 2

/-- `check_generation`. -/
def checkGeneration (which : String) (value : Int) (segment : String) : Result Unit :=
  if -1 ≤ value ∧ value ≤ maxGeneration then .ok ()
  else .err (.invalidGeneration which value segment)

/-- `check_writable_generations`. -/
def checkWritableGenerations (sis : SegmentInfos) : Result Unit := do
  checkGeneration "generation" sis.generation ""
  checkGeneration "version" sis.version.toInt ""
  checkGeneration "counter" sis.counter.toInt ""
  sis.segments.forM fun sci => do
    checkGeneration "delGen" sci.delGen.toInt sci.segmentName
    checkGeneration "fieldInfosGen" sci.fieldInfosGen.toInt sci.segmentName
    checkGeneration "docValuesGen" sci.docValuesGen.toInt sci.segmentName

/-! ## Reading -/

/-- `check_version_component`. -/
def checkVersionComponent (which : String) (value : U32) : Result U32 :=
  if 0 ≤ value.toInt ∧ value.toInt ≤ 255 then .ok value
  else .err (.illegalVersion which value.toInt)

/-- One component of a version. -/
def readVersionComponent (which : String) (inp : SliceInput) : Result (U32 × SliceInput) := do
  let (v, inp) ← ofStore inp.readVint
  let v ← checkVersionComponent which v
  .ok (v, inp)

/-- `read_vint_version`. -/
def readVintVersion (inp : SliceInput) : Result (LuceneVersion × SliceInput) := do
  let (major, inp) ← readVersionComponent "major" inp
  let (minor, inp) ← readVersionComponent "minor" inp
  let (bugfix, inp) ← readVersionComponent "bugfix" inp
  .ok (⟨major, minor, bugfix⟩, inp)

/-- `read_bytes` into an id. -/
def readId (inp : SliceInput) : Result (Id × SliceInput) := do
  let (b, inp) ← ofStore (inp.readN 16)
  if h : b.length = 16 then .ok (⟨b, h⟩, inp) else .panic

/-- A generation of a segment, checked. -/
def readGeneration (which segment : String) (inp : SliceInput) : Result (U64 × SliceInput) := do
  let (v, inp) ← ofStore inp.readBeU64
  checkGeneration which v.toInt segment
  .ok (v, inp)

/-- `counter`, which is a `vlong`. -/
def readCounter (inp : SliceInput) : Result (U64 × SliceInput) := do
  let (v, inp) ← ofStore inp.readVlong
  checkGeneration "counter" v.toInt ""
  .ok (v, inp)

/-- A count of deletions. -/
def readDeletionCount (segment : String) (inp : SliceInput) : Result (U32 × SliceInput) := do
  let (v, inp) ← ofStore inp.readBeU32
  if v.toInt < 0 then .err (.invalidDeletionCount v.toInt segment) else .ok (v, inp)

/-- The id of a `SegmentCommitInfo`, which formats after `VERSION_74` have. -/
def readSciId (formatVersion : U32) (inp : SliceInput) : Result (Option Id × SliceInput) :=
  if version74 < formatVersion.toInt then do
    let (marker, inp) ← ofStore inp.readByte
    if marker = 0 then .ok (none, inp)
    else if marker = 1 then do
      let (id, inp) ← readId inp
      .ok (some id, inp)
    else .err (.invalidSciIdMarker marker)
  else .ok (none, inp)

/-- The doc-values files of one field. -/
def readDvField (inp : SliceInput) : Result ((U32 × List String) × SliceInput) := do
  let (fieldNumber, inp) ← ofStore inp.readBeU32
  let (files, inp) ← ofStore inp.readSetOfStrings
  .ok ((fieldNumber, files), inp)

/-- A reader that is called so many times. -/
def readMany {α : Type} (rd : SliceInput → Result (α × SliceInput)) (n : Nat)
    (inp : SliceInput) : Result (List α × SliceInput) :=
  (List.range n).foldlM (fun s _ => do
    let (a, inp) ← rd s.2
    .ok (s.1 ++ [a], inp)) ([], inp)

/-- The doc-values files of a segment. -/
def readDvFields (segment : String) (inp : SliceInput) :
    Result (List (U32 × List String) × SliceInput) := do
  let (numDvFields, inp) ← ofStore inp.readBeU32
  if numDvFields.toInt < 0 ∨ inp.remaining < numDvFields.toInt.toNat then
    .err (.invalidDocValuesFieldCount numDvFields.toInt segment)
  else readMany readDvField numDvFields.toInt.toNat inp

/-- One segment of `parse`.  The fields that are not in the file have their
defaults. -/
def readSegment (formatVersion : U32) (inp : SliceInput) :
    Result (SegmentCommitInfo × SliceInput) := do
  let (segmentName, inp) ← ofStore inp.readString
  let (segmentId, inp) ← readId inp
  let (codecName, inp) ← ofStore inp.readString
  let (delGen, inp) ← readGeneration "delGen" segmentName inp
  let (delCount, inp) ← readDeletionCount segmentName inp
  let (fieldInfosGen, inp) ← readGeneration "fieldInfosGen" segmentName inp
  let (docValuesGen, inp) ← readGeneration "docValuesGen" segmentName inp
  let (softDelCount, inp) ← readDeletionCount segmentName inp
  let (sciId, inp) ← readSciId formatVersion inp
  let (fieldInfosFiles, inp) ← ofStore inp.readSetOfStrings
  let (dvUpdateFiles, inp) ← readDvFields segmentName inp
  .ok (⟨segmentName, segmentId, codecName, delGen, delCount, fieldInfosGen, docValuesGen,
    softDelCount, sciId, fieldInfosFiles, dvUpdateFiles, 0, 0, 0, -1⟩, inp)

/-- The segments of `parse`, with the version that is there when there are
some. -/
def readSegments (formatVersion : U32) (inp : SliceInput) :
    Result ((Option LuceneVersion × List SegmentCommitInfo) × SliceInput) := do
  let (numSegments, inp) ← ofStore inp.readBeU32
  if numSegments.toInt < 0 ∨ inp.remaining < numSegments.toInt.toNat then
    .err (.invalidSegmentCount numSegments.toInt)
  else if 0 < numSegments.toInt then do
    let (minVersion, inp) ← readVintVersion inp
    let (segments, inp) ← readMany (readSegment formatVersion) numSegments.toInt.toNat inp
    .ok ((some minVersion, segments), inp)
  else .ok ((none, []), inp)

/-- `parse`, behind the check of the two versions. -/
def parseCounters (crc32 : List U8 → U32) (buf : List U8) (generation : Int)
    (formatVersion : U32) (id : Id) (luceneVersion : LuceneVersion)
    (indexCreatedVersionMajor : U32) (inp : SliceInput) : Result SegmentInfos := do
  let (version, inp) ← readGeneration "version" "" inp
  let (counter, inp) ← readCounter inp
  let ((minSegmentLuceneVersion, segments), inp) ← readSegments formatVersion inp
  let (userData, inp) ← ofStore inp.readMapOfStrings
  let _ ← ofStore (inp.checkFooter crc32 buf.length)
  .ok ⟨id, generation, formatVersion, luceneVersion, indexCreatedVersionMajor, version,
    counter, minSegmentLuceneVersion, segments, userData⟩

/-- `parse`. -/
def parse (crc32 : List U8 → U32) (buf : List U8) (generation : Int) : Result SegmentInfos := do
  let inp := SliceInput.new buf
  checkGeneration "generation" generation ""
  let suffix := Util.toBase36 generation
  let (formatVersion, inp) ←
    ofStore (inp.checkHeader codecName version74 versionCurrent.toInt)
  let (id, inp) ← readId inp
  let (_, inp) ← ofStore (inp.checkIndexHeaderSuffix suffix)
  let (luceneVersion, inp) ← readVintVersion inp
  let (indexCreatedVersionMajor, inp) ← ofStore inp.readVint
  if luceneVersion.major.toInt < indexCreatedVersionMajor.toInt then
    .err (.createdVersionAheadOfWriter indexCreatedVersionMajor.toInt
      luceneVersion.major.toInt luceneVersion.minor.toInt luceneVersion.bugfix.toInt)
  else
    parseCounters crc32 buf generation formatVersion id luceneVersion indexCreatedVersionMajor
      inp

/-! ## Writing -/

section

variable (bmi2 : Bool)

/-- `write_vint_version`. -/
def writeVintVersion (out : List U8) (v : LuceneVersion) : List U8 :=
  let out := Store.writeVint bmi2 out v.major
  let out := Store.writeVint bmi2 out v.minor
  Store.writeVint bmi2 out v.bugfix

/-- The id of a `SegmentCommitInfo`, behind its marker. -/
def writeSciId (out : List U8) : Option Id → List U8
  | some id => Store.writeBytes (Store.writeByte out 1) id.1
  | none => Store.writeByte out 0

/-- The doc-values files of one field. -/
def writeDvField (out : List U8) (field : U32 × List String) : List U8 :=
  let out := Store.writeBeU32 out field.1
  Store.writeSetOfStrings bmi2 out field.2

/-- One segment of `to_bytes`. -/
def writeSegment (out : List U8) (seg : SegmentCommitInfo) : List U8 :=
  let out := Store.writeString bmi2 out seg.segmentName
  let out := Store.writeBytes out seg.segmentId.1
  let out := Store.writeString bmi2 out seg.codecName
  let out := Store.writeBeU64 out seg.delGen
  let out := Store.writeBeU32 out seg.delCount
  let out := Store.writeBeU64 out seg.fieldInfosGen
  let out := Store.writeBeU64 out seg.docValuesGen
  let out := Store.writeBeU32 out seg.softDelCount
  let out := writeSciId out seg.sciId
  let out := Store.writeSetOfStrings bmi2 out seg.fieldInfosFiles
  let out := Store.writeBeU32 out (BitVec.ofNat 32 seg.dvUpdateFiles.length)
  seg.dvUpdateFiles.foldl (writeDvField bmi2) out

/-- The segments of `to_bytes`. -/
def writeSegments (out : List U8) (sis : SegmentInfos) : List U8 :=
  let out := Store.writeBeU32 out (BitVec.ofNat 32 sis.segments.length)
  let out :=
    if sis.segments = [] then out
    else writeVintVersion bmi2 out (sis.minSegmentLuceneVersion.getD sis.luceneVersion)
  sis.segments.foldl (writeSegment bmi2) out

/-- `to_bytes`. -/
def toBytes (crc32 : List U8 → U32) (sis : SegmentInfos) : Store.Result (List U8) := do
  let suffix := Util.toBase36 sis.generation
  let out ← Store.writeIndexHeader bmi2 [] codecName versionCurrent sis.id.1 suffix
  let out := writeVintVersion bmi2 out sis.luceneVersion
  let out := Store.writeVint bmi2 out sis.indexCreatedVersionMajor
  let out := Store.writeBeU64 out sis.version
  let out ← Store.writeVlong bmi2 out sis.counter
  let out := writeSegments bmi2 out sis
  let out := Store.writeMapOfStrings bmi2 out sis.userData
  .ok (Store.writeFooter crc32 out)

end

end LuceneRust.Index
