import LuceneRust.Index.BufferedUpdates
import LuceneRust.Lib.EditLog
import LuceneRust.Lib.StateHoare

/-!
# `lucene_index::deletes` and the packets of an `IndexWriter`

A segment is its `SegmentCommitInfo` with what its files hold: for each doc id
the document, whether the current `.liv` has it live, and the values of the
current doc-values generation.  `applyPackets` resolves the frozen packets
against one segment.

Any read or write of a file may fail (`WriterFaults`).  A `.liv` file, or a
doc-values generation, is written in full or not at all.

A document has the sequence number of the operation that added it and its
place among the documents of that operation.  They tell the documents apart;
no function reads them.
-/

namespace LuceneRust.Index

open RustSem
open StateHoare (Op)
open EditLog (Cell)

/-- A document that was added to the writer. -/
structure Document (δ : Type) where
  content : δ
  seqNo : Nat
  ord : Nat
  deriving Repr, DecidableEq

/-- What a segment has for one doc id. -/
structure Row (δ : Type) extends Cell String UpdateValue where
  doc : Document δ

/-- A `SegmentCommitInfo`, and the files that it names. -/
structure Segment (δ : Type) where
  segmentName : String
  rows : List (Row δ)
  delGen : Int := -1
  delCount : Nat := 0
  fieldInfosGen : Int := -1
  docValuesGen : Int := -1
  nextWriteDelGen : Int := 0
  nextWriteFieldInfosGen : Int := 0
  nextWriteDocValuesGen : Int := 0
  bufferedDeletesGen : Int := -1

/-- The types of doc values that can be updated. -/
inductive DocValuesType where
  | numeric
  | binary
  | other
  deriving Repr, DecidableEq

/-- An error of the writer. -/
inductive WriterError where
  | io
  | docOutOfRange (docId maxDoc : Nat)
  | delCountExceedsMaxDoc (segment : String) (delCount maxDoc : Nat)
  | tooManyDocs (maxDocs : Nat)
  | noDocValuesUpdatesSupplied
  | noSoftDeletesSupplied
  | blocksWithIndexSortNeedParentField
  | unknownDocValuesUpdateField (field : String)
  | wrongDocValuesUpdateType (field : String) (declared : DocValuesType)
  | docValuesUpdateOnIndexSortField (field : String)
  | preparedCommitPending (caller : String)
  | prepareCommitAlreadyCalled
  | noPreparedCommit
  | invalidMaxNumSegments (n : Nat)
  | explicit (message : String)
  deriving Repr, DecidableEq

/-- Which calls on the directory, and on what is plugged into the writer,
fail. -/
structure WriterFaults where
  fails : Nat → Bool

/-- What the writer knows of its documents and fields. -/
structure IndexingConfig (δ κ : Type) where
  /-- The postings of the document have the term. -/
  hasTerm : Term → δ → Bool
  /-- `resolve_delete_query` finds the document. -/
  matchesQuery : κ → δ → Bool
  /-- The query is `DeleteQuery::MatchAll`. -/
  isMatchAll : κ → Bool
  matches_of_isMatchAll : ∀ {q : κ} (d : δ), isMatchAll q = true → matchesQuery q d = true
  /-- The doc values of the document as it is added. -/
  original : δ → String → UpdateValue
  /-- `field_by_name`. -/
  docValuesType : String → Option DocValuesType
  /-- The field is one of the index sort. -/
  isSortField : String → Bool

variable {δ κ : Type}

/-! ## `segment_infos::SegmentCommitInfo` -/

/-- `derive_next_gen`. -/
def deriveNextGen (explicit currentGen : Int) : Int :=
  if explicit ≠ 0 then explicit else if currentGen = -1 then 1 else currentGen + 1

namespace Segment

/-- `next_write_del_gen`. -/
def nextDelGen (s : Segment δ) : Int := deriveNextGen s.nextWriteDelGen s.delGen

/-- `next_write_field_infos_gen`. -/
def nextFieldInfosGen (s : Segment δ) : Int :=
  deriveNextGen s.nextWriteFieldInfosGen s.fieldInfosGen

/-- `next_write_doc_values_gen`. -/
def nextDocValuesGen (s : Segment δ) : Int :=
  deriveNextGen s.nextWriteDocValuesGen s.docValuesGen

/-- `advance_del_gen`. -/
def advanceDelGen (s : Segment δ) : Segment δ :=
  { s with delGen := s.nextDelGen, nextWriteDelGen := s.nextDelGen + 1 }

/-- `advance_doc_values_gen`. -/
def advanceDocValuesGen (s : Segment δ) : Segment δ :=
  { s with docValuesGen := s.nextDocValuesGen, nextWriteDocValuesGen := s.nextDocValuesGen + 1 }

/-- `advance_field_infos_gen`. -/
def advanceFieldInfosGen (s : Segment δ) : Segment δ :=
  { s with
    fieldInfosGen := s.nextFieldInfosGen
    nextWriteFieldInfosGen := s.nextFieldInfosGen + 1 }

/-- `set_buffered_deletes_gen`. -/
def setBufferedDeletesGen (s : Segment δ) (v : Int) : Segment δ :=
  if s.bufferedDeletesGen = -1 then { s with bufferedDeletesGen := v } else s

/-- `max_doc`. -/
def maxDoc (s : Segment δ) : Nat := s.rows.length

end Segment

/-! ## `deletes` -/

/-- One turn of the loop of `mark_deleted`. -/
def markOne (acc : List (Row δ) × Nat) (docId : Nat) :
    Outcome WriterError (List (Row δ) × Nat) :=
  match acc.1[docId]? with
  | none => .err (.docOutOfRange docId acc.1.length)
  | some row =>
    if row.live then .ok (acc.1.set docId { row with live := false }, acc.2 + 1) else .ok acc

/-- `mark_deleted`. -/
def markDeleted (rows : List (Row δ)) (docIds : List Nat) :
    Outcome WriterError (List (Row δ) × Nat) :=
  docIds.foldlM markOne (rows, 0)

/-- The checks of `apply_deletes_with_codec`, and the segment that it returns
once the `.liv` file is written. -/
def deletedSegment (s : Segment δ) (docIds : List Nat) : Outcome WriterError (Segment δ) := do
  let (rows, newlyDeleted) ← markDeleted s.rows docIds
  if s.delCount + newlyDeleted ≤ s.maxDoc then
    .ok { s with rows := rows, delCount := s.delCount + newlyDeleted }.advanceDelGen
  else .err (.delCountExceedsMaxDoc s.segmentName (s.delCount + newlyDeleted) s.maxDoc)

/-! ## The state of one segment's turn -/

/-- A segment, and how many calls were made on the directory. -/
structure SegmentIo (δ : Type) where
  segment : Segment δ
  calls : Nat

section

variable (fx : WriterFaults)

namespace SegmentIo

/-- A call that may fail. -/
def ioCall : Op WriterError (SegmentIo δ) Unit := fun w =>
  (if fx.fails w.calls then .err .io else .ok (), { w with calls := w.calls + 1 })

/-- A call that is followed by `recover` if it fails. -/
def ioCallOr (recover : Segment δ → Segment δ) : Op WriterError (SegmentIo δ) Unit := fun w =>
  if fx.fails w.calls then (.err .io, ⟨recover w.segment, w.calls + 1⟩)
  else (.ok (), { w with calls := w.calls + 1 })

/-- `apply_deletes_with_codec`, with its caller's part: the segment is
replaced, and `set_next_write_del_gen` steps past a failed attempt. -/
def applyDeletes (docIds : List Nat) : Op WriterError (SegmentIo δ) Unit := do
  let s ← Op.get (·.segment)
  match deletedSegment s docIds with
  | .ok updated =>
    ioCallOr fx fun s => { s with nextWriteDelGen := s.nextDelGen + 1 }
    Op.modify fun w => { w with segment := updated }
  | .err e =>
    Op.modify fun w =>
      { w with segment := { w.segment with nextWriteDelGen := w.segment.nextDelGen + 1 } }
    Op.lift (.err e)
  | .panic => Op.lift .panic

end SegmentIo

/-! ## Doc-values updates -/

/-- The value of a field of one document, to be written. -/
structure ValueUpdate where
  field : String
  doc : Nat
  value : UpdateValue
  deriving Repr, DecidableEq

/-- The column of the field has the new value. -/
def writeValue (rows : List (Row δ)) (u : ValueUpdate) : List (Row δ) :=
  rows.modify u.doc fun row => { row with values := Function.update row.values u.field u.value }

/-- What `write_field_updates_inner` makes of a segment: a generation for each
of the fields, and one for the field infos. -/
def updatedSegment (s : Segment δ) (updates : List ValueUpdate) : Segment δ :=
  let s := (updates.map (·.field)).dedup.foldl (fun s _ => s.advanceDocValuesGen) s
  { s with rows := updates.foldl writeValue s.rows }.advanceFieldInfosGen

/-- `write_doc_values_update_generation`.  A failed round leaves the segment,
with the next generations behind the attempt's. -/
def SegmentIo.writeDocValuesUpdates (updates : List ValueUpdate) :
    Op WriterError (SegmentIo δ) Unit := do
  ioCallOr fx fun s =>
    { s with
      nextWriteFieldInfosGen := s.nextFieldInfosGen + 1
      nextWriteDocValuesGen := s.nextDocValuesGen + 1 }
  Op.modify fun w => { w with segment := updatedSegment w.segment updates }

end

/-! ## `apply_packets_to_segment` -/

/-- What the packets do to the segment: `deleted`, and `numeric_updates` with
`binary_updates` in the order in which they are pushed. -/
structure Resolution where
  deleted : List Nat
  updates : List ValueUpdate

/-- The doc id, as a position of the buffer before it was sorted, is below the
limit. -/
def belowLimit (sortMap : Option (List Nat)) (doc limit : Nat) : Bool :=
  match sortMap with
  | none => doc < limit
  | some map =>
    match map[doc]? with
    | some old => old < limit
    | none => false

/-- The live documents that satisfy `m`, in the order of their ids. -/
def liveDocsWith (rows : List (Row δ)) (m : δ → Bool) : List Nat :=
  (rows.zipIdx.filter fun e => e.1.live && m e.1.doc.content).map (·.2)

/-- The value of an update of a field whose buffer is numeric or not. -/
def bufferValue (isNumeric : Bool) (value : UpdateValue) : UpdateValue :=
  match isNumeric, value with
  | true, .numeric v => .numeric v
  | false, .binary v => .binary v
  | _, _ => .none

section

variable (cfg : IndexingConfig δ κ) (rows : List (Row δ)) (segGen : Int)
  (sortMap : Option (List Nat))

/-- The deletes of one packet. -/
def resolveDeletes (p : FrozenBufferedUpdates κ) : List Nat :=
  (p.deleteTerms.flatMap fun e =>
      (liveDocsWith rows (cfg.hasTerm e.1)).filter fun d =>
        belowLimit sortMap d (p.limitFor segGen e.2))
    ++ p.deleteQueries.flatMap fun e =>
      (liveDocsWith rows (cfg.matchesQuery e.1)).filter fun d =>
        belowLimit sortMap d (p.limitFor segGen e.2)

/-- The updates of one field of a packet. -/
def resolveField (p : FrozenBufferedUpdates κ) (deleted : List Nat)
    (e : String × FieldUpdatesBuffer) : List ValueUpdate :=
  if (cfg.docValuesType e.1).isSome then
    e.2.updates.flatMap fun u =>
      ((liveDocsWith rows (cfg.hasTerm u.term)).filter fun d =>
          belowLimit sortMap d (p.limitFor segGen u.docIdUpto) && !deleted.contains d).map
        fun d => ⟨e.1, d, bufferValue e.2.isNumeric u.value⟩
  else []

/-- One turn of the loop of `apply_packets_at_gen`. -/
def resolvePacket (r : Resolution) (p : FrozenBufferedUpdates κ) : Resolution :=
  let deleted := r.deleted ++ resolveDeletes cfg rows segGen sortMap p
  ⟨deleted, r.updates ++ p.fieldUpdates.flatMap (resolveField cfg rows segGen sortMap p deleted)⟩

/-- The packet may touch the segment. -/
def FrozenBufferedUpdates.isApplicable (segmentName : String) (p : FrozenBufferedUpdates κ) :
    Bool :=
  p.appliesTo segGen && p.privateSegment.all (· == segmentName)

end

/-- `apply_packets_at_gen`.  The value says that no document is live any
more. -/
def SegmentIo.applyPacketsAtGen (fx : WriterFaults) (cfg : IndexingConfig δ κ)
    (packets : List (FrozenBufferedUpdates κ)) (segGen : Int)
    (pendingSortMap : Option (String × List Nat)) : Op WriterError (SegmentIo δ) Bool := do
  let s ← Op.get (·.segment)
  let applicable := packets.filter (·.isApplicable segGen s.segmentName)
  if applicable.isEmpty then
    pure false
  else do
    let sortMap := (pendingSortMap.filter (·.1 == s.segmentName)).map (·.2)
    -- `open_segment_for_deletes` and the reads of the postings
    ioCall fx
    let r := applicable.foldl (resolvePacket cfg s.rows segGen sortMap) ⟨[], []⟩
    Op.when (!r.deleted.isEmpty)
      (applyDeletes fx ((List.range s.maxDoc).filter fun d => r.deleted.contains d))
    Op.when (!r.updates.isEmpty) (writeDocValuesUpdates fx r.updates)
    Op.get fun w => w.segment.delCount == w.segment.maxDoc

/-- `apply_packets_to_segment`. -/
def SegmentIo.applyPacketsToSegment (fx : WriterFaults) (cfg : IndexingConfig δ κ)
    (packets : List (FrozenBufferedUpdates κ)) (pendingSortMap : Option (String × List Nat)) :
    Op WriterError (SegmentIo δ) Bool := do
  let s ← Op.get (·.segment)
  applyPacketsAtGen fx cfg packets s.bufferedDeletesGen pendingSortMap

end LuceneRust.Index
