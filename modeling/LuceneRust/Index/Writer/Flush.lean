import LuceneRust.Index.Writer.TryModify

/-!
# Adds, deletes and flushes of an `IndexWriter`

Documents and deletes are buffered, and a flush turns the buffer into a
segment: the deletes of the written segments are frozen (`beginSegment`), the
segment is built, and it is published with the packet of its own deletes
(`publishSegment`), which applies all the packets that are pending.
-/

namespace LuceneRust.Index

open RustSem
open StateHoare (Op)

namespace IndexWriter

variable {δ κ : Type}

/-! ## The packets of the stream -/

/-- The packets on each segment of a list. -/
def applyToAll (fx : WriterFaults) (cfg : WriterConfig δ κ)
    (packets : List (FrozenBufferedUpdates κ)) (sortMaps : List (String × List Nat)) :
    List (Segment δ) → Nat → List (Outcome WriterError Bool) × List (Segment δ) × Nat
  | [], calls => ([], [], calls)
  | s :: segments, calls =>
    let (result, io) :=
      SegmentIo.applyPacketsToSegment fx cfg.toIndexingConfig packets
        (sortMaps.find? (·.1 == s.segmentName)) ⟨s, calls⟩
    let (results, segments, calls) := applyToAll fx cfg packets sortMaps segments io.calls
    (result :: results, io.segment :: segments, calls)

/-- The first error of the results, or the values of all of them. -/
def collect : List (Outcome WriterError Bool) → Outcome WriterError (List Bool)
  | [] => .ok []
  | r :: results => do
    let flag ← r
    let flags ← collect results
    .ok (flag :: flags)

variable [DecidableEq κ]

section

variable (fx : WriterFaults) (cfg : WriterConfig δ κ)

/-- `apply_stream_packets`.  The segments are independent of each other, and
each of them is tried. -/
def applyStreamPackets : WriterOp δ κ Unit := do
  let w ← Op.get id
  if !w.updatesStream.any then pure ()
  else do
    let packets := w.updatesStream.updates
    let (committedResults, committed, calls) :=
      applyToAll fx cfg packets w.pendingSortMap w.segmentInfos.segments w.calls
    let (flushedResults, flushed, calls) :=
      applyToAll fx cfg packets w.pendingSortMap w.flushedSegments calls
    Op.modify fun w =>
      { w.mapCommitted fun _ => committed with
        flushedSegments := flushed
        updatesStream := w.updatesStream.clear
        calls := calls }
    let results : Outcome WriterError (List Bool × List Bool) := do
      let committedFlags ← collect committedResults
      let flushedFlags ← collect flushedResults
      .ok (committedFlags, flushedFlags)
    match ← Op.attempt (Op.lift results) with
    | .ok (committedFlags, flushedFlags) =>
      Op.modify (dropFullyDeletedSegments cfg committedFlags flushedFlags)
    | .error e => do
      Op.modify fun w => { w with updatesStream := w.updatesStream.restorePending packets }
      Op.throw e

/-- What `freeze_global_buffer` leaves.  The packet is
`w.deleteQueue.frozenGlobal`. -/
def freezeGlobalBuffer (w : IndexWriter δ κ) : IndexWriter δ κ :=
  { w with deleteQueue := w.deleteQueue.clearGlobal }

/-- `begin_deletes_ticket`, which freezes the global buffer and returns the
packet. -/
def beginDeletesTicket : WriterOp δ κ (Option (FrozenBufferedUpdates κ)) := do
  let packet ← Op.get (·.deleteQueue.frozenGlobal)
  Op.modify freezeGlobalBuffer
  pure packet

/-- A packet that joins the stream, if there is one. -/
def pushPacket (packet : Option (FrozenBufferedUpdates κ)) (w : IndexWriter δ κ) :
    IndexWriter δ κ :=
  match packet with
  | some p => { w with updatesStream := w.updatesStream.push p }
  | none => w

/-- `apply_all_deletes_and_updates`. -/
def applyAllDeletesAndUpdates : WriterOp δ κ Unit := do
  Op.modify fun w => w.freezeGlobalBuffer.pushPacket w.deleteQueue.frozenGlobal
  applyStreamPackets fx cfg

/-- `apply_pending_packets`. -/
def applyPendingPackets : WriterOp δ κ Unit := do
  writePendingTryChanges fx cfg
  applyStreamPackets fx cfg
  checkpoint fx

/-- `publish_deletes_ticket`. -/
def publishDeletesTicket (packet : Option (FrozenBufferedUpdates κ)) : WriterOp δ κ Unit := do
  writePendingTryChanges fx cfg
  Op.modify (pushPacket packet)
  applyPendingPackets fx cfg

/-- `apply_deletes_now`. -/
def applyDeletesNow : WriterOp δ κ Unit := do
  ensureWriteLockValid fx
  applyAllDeletesAndUpdates fx cfg
  checkpoint fx

/-- `maybe_apply_deletes`. -/
def maybeApplyDeletes : WriterOp δ κ Unit := do
  let w ← Op.get id
  if w.preparedCommit.isSome then pure ()
  else
    Op.when (cfg.ramBufferBytes.any fun limit => limit ≤ w.deleteQueue.globalBytes)
      (applyDeletesNow fx cfg)

/-! ## The flush -/

/-- `permute_in_place`: position `i` gets the element at `map[i]`. -/
def permute {α : Type} (map : List Nat) (l : List α) : List α := map.filterMap (l[·]?)

/-- The inverse of a map from new positions to old ones. -/
def invertMap (map : List Nat) : List Nat := (List.range map.length).map map.idxOf

/-- `sort_pending_buffer`. -/
def sortPendingBuffer : WriterOp δ κ (Option (List Nat)) := do
  -- the keys, and blocks without a parent field
  ioCall fx
  let docs ← Op.get (·.pendingDocs)
  match cfg.sortPermutation (docs.map (·.content)) with
  | none => pure none
  | some map => do
    Op.modify fun w => { w with pendingDocs := permute map w.pendingDocs }
    pure (some map)

/-- `unsort_pending_buffer`. -/
def unsortPendingBuffer (map : List Nat) (w : IndexWriter δ κ) : IndexWriter δ κ :=
  { w with pendingDocs := permute (invertMap map) w.pendingDocs }

/-- `SegmentTicket`. -/
structure SegmentTicket (κ : Type) where
  segmentName : String
  global : Option (FrozenBufferedUpdates κ)

/-- `reserve_segment`.  The name stands for the name and the id. -/
def reserveSegment : WriterOp δ κ String := newSegmentName

/-- `begin_segment`, with the name that a buffer has reserved, if it has. -/
def beginSegment (reserved : Option String) : WriterOp δ κ (SegmentTicket κ) := do
  let global ← beginDeletesTicket
  match reserved with
  | some segmentName => pure ⟨segmentName, global⟩
  | none => do
    let segmentName ← reserveSegment
    pure ⟨segmentName, global⟩

/-- `abandon_segment`. -/
def abandonSegment (ticket : SegmentTicket κ) (w : IndexWriter δ κ) : IndexWriter δ κ :=
  w.pushPacket ticket.global

/-- The segment that `build_and_write_segment` writes. -/
def builtSegment (name : String) (docs : List (Document δ)) : Segment δ where
  segmentName := name
  rows := docs.map fun d => ⟨⟨true, cfg.original d.content⟩, d⟩

/-- The segment in the stream's order: it has the generation of its own packet,
or one that no packet has. -/
def numberSegment (sci : Segment δ) (privatePacket : Option (FrozenBufferedUpdates κ))
    (w : IndexWriter δ κ) : IndexWriter δ κ :=
  { w with
    updatesStream :=
      match privatePacket with
      | some p => w.updatesStream.push p
      | none => w.updatesStream.skipGen
    flushedSegments :=
      w.flushedSegments ++ [sci.setBufferedDeletesGen w.updatesStream.nextGen] }

/-- The sort map of a segment that waits for its packets. -/
def addSortMap (name : String) (sortMap : Option (List Nat)) (w : IndexWriter δ κ) :
    IndexWriter δ κ :=
  match sortMap with
  | some map =>
    { w with pendingSortMap := w.pendingSortMap.filter (·.1 != name) ++ [(name, map)] }
  | none => w

/-- `publish_segment_with`.  The deletes that were buffered since the ticket are
frozen and applied, too, if `freezeGlobal` holds. -/
def publishSegmentWith (ticket : SegmentTicket κ) (sci : Segment δ)
    (privatePacket : Option (FrozenBufferedUpdates κ)) (sortMap : Option (List Nat))
    (freezeGlobal : Bool) : WriterOp δ κ Unit := do
  writePendingTryChanges fx cfg
  Op.modify (pushPacket ticket.global)
  Op.modify (addSortMap sci.segmentName sortMap)
  Op.modify (numberSegment sci privatePacket)
  checkpoint fx
  (if freezeGlobal then applyAllDeletesAndUpdates fx cfg else applyStreamPackets fx cfg)
  Op.modify fun w => { w with pendingSortMap := [] }
  checkpoint fx

/-- `publish_segment`. -/
def publishSegment (ticket : SegmentTicket κ) (sci : Segment δ)
    (privatePacket : Option (FrozenBufferedUpdates κ)) (sortMap : Option (List Nat)) :
    WriterOp δ κ Unit := do
  writePendingTryChanges fx cfg
  publishSegmentWith fx cfg ticket sci privatePacket sortMap true

/-- `drop_fully_deleted_flushed`. -/
def dropFullyDeletedFlushed (name : String) : WriterOp δ κ Unit := do
  writePendingTryChanges fx cfg
  Op.modify fun w =>
    w.dropFullyDeletedSegments cfg [] (w.flushedSegments.map (·.segmentName == name))
  checkpoint fx

/-- `flush` of an empty document buffer. -/
def flushDeletes : WriterOp δ κ Unit := do
  applyAllDeletesAndUpdates fx cfg
  Op.modify fun w => { w with deleteQueue := w.deleteQueue.clearPrivate }
  checkpoint fx

/-- `flush` of a document buffer that is not empty. -/
def flushDocuments : WriterOp δ κ Unit := do
  let sortMap ← sortPendingBuffer fx cfg
  let ticket ← beginSegment none
  match ← Op.attempt (ioCall fx) with
  | .error e => do
    -- back to the order in which the limits of the deletes count
    Op.modify fun w => (sortMap.elim w (w.unsortPendingBuffer ·)).abandonSegment ticket
    -- `delete_new_files`
    let _ ← Op.attempt (ioCall fx)
    Op.throw e
  | .ok () => do
    let docs ← Op.get (·.pendingDocs)
    let privatePacket ← Op.get (·.deleteQueue.frozenPrivate ticket.segmentName)
    Op.modify fun w =>
      { w with
        pendingDocs := []
        ramBytesUsed := 0
        deleteQueue := w.deleteQueue.clearPrivate }
    publishSegment fx cfg ticket (builtSegment cfg ticket.segmentName docs) privatePacket sortMap

/-- `flush`. -/
def flush : WriterOp δ κ Unit := do
  writePendingTryChanges fx cfg
  if (← Op.get (·.preparedCommit.isSome)) then Op.throw (.preparedCommitPending "flush")
  else do
    ensureWriteLockValid fx
    -- `validate_configured_term_vector_schema` and `release_nrt_holds`
    ioCall fx
    if (← Op.get (·.pendingDocs.isEmpty)) then flushDeletes fx cfg else flushDocuments fx cfg

/-- `maybe_flush`. -/
def maybeFlush : WriterOp δ κ Unit := do
  let w ← Op.get id
  if w.preparedCommit.isSome then pure ()
  else if cfg.maxBufferedDocs.any (· ≤ w.pendingDocs.length) then flush fx cfg
  else
    let deletes := w.deleteQueue.globalBytes
    if cfg.ramBufferBytes.any fun limit => limit ≤ deletes && w.ramBytesUsed < limit then
      applyDeletesNow fx cfg
    else if cfg.ramBufferBytes.any fun limit => limit ≤ w.ramBytesUsed + deletes then
      flush fx cfg
    else if hardMaxBytesPerSlot < w.ramBytesUsed then flush fx cfg
    else pure ()

/-! ## Adds and deletes -/

/-- `reserve_docs`. -/
def reserveDocs (added : Nat) : WriterOp δ κ Unit := do
  writePendingTryChanges fx cfg
  -- `segment_doc_total`, which may have to read the sizes
  writePendingTryChanges fx cfg
  ioCall fx
  let w ← Op.get id
  if cfg.maxDocs < (w.liveSegments.map (·.maxDoc)).sum + w.pendingDocs.length + added then
    Op.throw (.tooManyDocs cfg.maxDocs)
  else pure ()

/-- `buffer_document`, for each of the documents of one operation. -/
def bufferDocuments (docs : List (Document δ)) (w : IndexWriter δ κ) : IndexWriter δ κ :=
  { w with
    pendingDocs := w.pendingDocs ++ docs
    ramBytesUsed := w.ramBytesUsed + (docs.map fun d => cfg.documentRamBytes d.content).sum }

/-- `buffer_delete_node`.  The sequence number is the next one of the queue. -/
def bufferDeleteNode (node : DeleteNode κ) (docIdUpto : Nat) (w : IndexWriter δ κ) :
    IndexWriter δ κ :=
  let q := w.deleteQueue.addGlobalBytes (cfg.nodeRamBytes node)
  { w with
    deleteQueue :=
      match node with
      | .terms terms => q.addTermDeletes terms docIdUpto
      | .queries queries => q.addQueryDeletes queries docIdUpto
      | .docValuesUpdates updates => q.addDocValuesUpdates updates docIdUpto }

/-- `buffer_node`. -/
def bufferNode (node : DeleteNode κ) (docIdUpto : Nat) (b : BufferedUpdates κ) :
    BufferedUpdates κ :=
  match node with
  | .terms terms => terms.foldl (fun b t => b.addTerm t docIdUpto) b
  | .queries queries => queries.foldl (fun b q => b.addQuery q docIdUpto) b
  | .docValuesUpdates updates => updates.foldl (fun b u => b.addDocValuesUpdate u docIdUpto) b

/-- `buffer_global_delete`. -/
def bufferGlobalDelete (node : DeleteNode κ) (w : IndexWriter δ κ) : IndexWriter δ κ :=
  { w with
    deleteQueue :=
      { w.deleteQueue with global := bufferNode node maxDocIdUpto w.deleteQueue.global } }

/-- `add_documents_with_delete`. -/
def addDocumentsWithDelete (delete : Option (DeleteNode κ)) (docs : List δ) :
    WriterOp δ κ Nat :=
  if cfg.refusesBlocks && decide (1 < docs.length) then
    Op.throw .blocksWithIndexSortNeedParentField
  else do
    reserveDocs fx cfg docs.length
    let docIdUpto ← Op.get (·.pendingDocs.length)
    let seqNo ← Op.get (·.deleteQueue.nextSeqNo)
    Op.modify fun w =>
      match delete with
      | some node => w.bufferDeleteNode cfg node docIdUpto
      | none => { w with deleteQueue := w.deleteQueue.nextSequenceNumber }
    Op.modify (bufferDocuments cfg (docs.mapIdx fun ord content => ⟨content, seqNo, ord⟩))
    -- `mark_last_buffered_parent`
    Op.when (!docs.isEmpty) do
      writePendingTryChanges fx cfg
      ioCall fx
    maybeFlush fx cfg
    pure seqNo

/-- `add_document`. -/
def addDocument (doc : δ) : WriterOp δ κ Nat := do
  writePendingTryChanges fx cfg
  reserveDocs fx cfg 1
  let seqNo ← Op.get (·.deleteQueue.nextSeqNo)
  Op.modify fun w => { w with deleteQueue := w.deleteQueue.nextSequenceNumber }
  Op.modify (bufferDocuments cfg [⟨doc, seqNo, 0⟩])
  -- `mark_last_buffered_parent`
  writePendingTryChanges fx cfg
  ioCall fx
  maybeFlush fx cfg
  pure seqNo

/-- `add_documents`. -/
def addDocuments (docs : List δ) : WriterOp δ κ Nat := do
  writePendingTryChanges fx cfg
  addDocumentsWithDelete fx cfg none docs

/-- `update_documents`, and `update_document` with one document. -/
def updateDocuments (term : Term) (docs : List δ) : WriterOp δ κ Nat := do
  writePendingTryChanges fx cfg
  addDocumentsWithDelete fx cfg (some (.terms [term])) docs

/-- The updates of `soft_update_documents`: a field that is known has the right
type, and each update has the term. -/
def softUpdates (term : Term) (updates : List DocValuesUpdate) :
    Outcome WriterError (List DocValuesUpdate) :=
  updates.mapM fun u => do
    if (cfg.docValuesType u.field).isSome then verifyDocValuesUpdateField cfg u
    .ok (u.retarget term)

/-- `soft_update_documents`. -/
def softUpdateDocuments (term : Term) (docs : List δ) (softDeletes : List DocValuesUpdate) :
    WriterOp δ κ Nat := do
  writePendingTryChanges fx cfg
  if softDeletes.isEmpty then Op.throw .noSoftDeletesSupplied
  else do
    let updates ← Op.lift (softUpdates cfg term softDeletes)
    addDocumentsWithDelete fx cfg (some (.docValuesUpdates updates)) docs

/-- The tail of the deletes and of the updates. -/
def bufferDelete (node : DeleteNode κ) : WriterOp δ κ Nat := do
  let docIdUpto ← Op.get (·.pendingDocs.length)
  let seqNo ← Op.get (·.deleteQueue.nextSeqNo)
  Op.modify (bufferDeleteNode cfg node docIdUpto)
  maybeApplyDeletes fx cfg
  pure seqNo

/-- `delete_documents_by_term`. -/
def deleteDocumentsByTerm (terms : List Term) : WriterOp δ κ Nat := do
  writePendingTryChanges fx cfg
  bufferDelete fx cfg (.terms terms)

/-- The fields that `delete_all` empties. -/
def cleared (w : IndexWriter δ κ) : IndexWriter δ κ :=
  { w.discardPendingTryChanges.mapCommitted fun _ => [] with
    pendingDocs := []
    ramBytesUsed := 0
    deleteQueue := w.deleteQueue.clear
    updatesStream := w.updatesStream.clear
    flushedSegments := []
    changeCount := w.changeCount + 1 }

/-- `delete_all`. -/
def deleteAll : WriterOp δ κ Unit := do
  if (← Op.get (·.preparedCommit.isSome)) then Op.throw (.preparedCommitPending "delete_all")
  else do
    Op.modify cleared
    checkpoint fx
    -- `reset_explicit_field_numbers`
    ioCall fx

/-- `delete_documents_by_query`. -/
def deleteDocumentsByQuery (queries : List κ) : WriterOp δ κ Nat := do
  writePendingTryChanges fx cfg
  if queries.any cfg.isMatchAll then do
    let seqNo ← Op.get (·.deleteQueue.nextSeqNo)
    Op.modify fun w => { w with deleteQueue := w.deleteQueue.nextSequenceNumber }
    deleteAll fx
    pure seqNo
  else bufferDelete fx cfg (.queries queries)

/-- `update_doc_values`. -/
def updateDocValues (term : Term) (updates : List DocValuesUpdate) : WriterOp δ κ Nat := do
  writePendingTryChanges fx cfg
  if updates.isEmpty then Op.throw .noDocValuesUpdatesSupplied
  else do
    updates.forM fun u => Op.lift (verifyDocValuesUpdateField cfg u)
    bufferDelete fx cfg (.docValuesUpdates (updates.map (·.retarget term)))

end

end IndexWriter

end LuceneRust.Index
