import LuceneRust.Index.Writer.State

/-!
# `lucene_index::index_writer::try_modify`

Deletes and doc-values updates of one document of a reader.  They are kept in
memory, and each operation of the writer begins by writing them
(`writePendingTryChanges`).
-/

namespace LuceneRust.Index

open RustSem
open StateHoare (Op)

namespace IndexWriter

variable {δ κ α : Type}

/-- `Vec::swap_remove`. -/
def swapRemove (l : List α) (i : Nat) : List α :=
  match l.getLast? with
  | some last => (l.set i last).dropLast
  | none => l

/-- A program on one segment of the view. -/
def onTarget (t : Target) (x : Op WriterError (SegmentIo δ) α) : WriterOp δ κ α := fun w =>
  match w.getTarget t with
  | none => (.panic, w)
  | some s =>
    let (result, io) := x ⟨s, w.calls⟩
    (result, { w.setTarget t io.segment with calls := io.calls })

section

variable (fx : WriterFaults) (cfg : WriterConfig δ κ)

/-- The loop of `locate`, over the reader's segments from the base `base` on. -/
def locateFrom (docId : Nat) :
    Nat → List (Segment δ) → WriterOp δ κ (Option (Target × Nat × Nat))
  | base, [] =>
    Op.throw (.explicit s!"docID {docId} is out of bounds for a reader of maxDoc {base}")
  | base, s :: segments => do
    ioCall fx
    if docId < base + s.maxDoc then do
      let target ← Op.get (·.findTarget s.segmentName)
      pure (target.map (·, docId - base, s.maxDoc))
    else locateFrom docId (base + s.maxDoc) segments

/-- `locate`. -/
def locate (readerSegments : List (Segment δ)) (docId : Int) :
    WriterOp δ κ (Option (Target × Nat × Nat)) :=
  if docId < 0 then Op.throw (.explicit s!"docID must be >= 0, got {docId}")
  else locateFrom fx docId.toNat 0 readerSegments

/-- `read_live_docs`. -/
def readLiveDocs (s : Segment δ) : WriterOp δ κ (List Bool) := do
  Op.when (0 ≤ s.delGen) (ioCall fx)
  pure (s.rows.map (·.live))

/-- `write_try_deletes`. -/
def writeTryDeletes (pending : PendingTryDeletes) : WriterOp δ κ Unit :=
  if pending.deleted.isEmpty then pure ()
  else do
    match ← Op.get (·.findTarget pending.segmentName) with
    | none => pure ()
    | some target => do
      let sci ← Op.get (·.getTarget target)
      let sci ← Op.lift (.expect sci)
      let _ ← readLiveDocs fx sci
      let docs := (List.range pending.baseLive.length).filter fun d => pending.deleted.contains d
      onTarget target (SegmentIo.applyDeletes fx docs)
      let updated ← Op.get (·.getTarget target)
      let updated ← Op.lift (.expect updated)
      Op.when (updated.delCount == pending.baseLive.length) do
        Op.modify fun w =>
          let flags (committed : Bool) (len : Nat) : List Bool :=
            (List.range len).map fun i => target.committed == committed && i == target.index
          w.dropFullyDeletedSegments cfg (flags true w.segmentInfos.segments.length)
            (flags false w.flushedSegments.length)

/-- `write_try_updates`. -/
def writeTryUpdates (pending : PendingTryUpdates) : WriterOp δ κ Unit := do
  match ← Op.get (·.findTarget pending.segmentName) with
  | none => pure ()
  | some target => onTarget target (SegmentIo.writeDocValuesUpdates fx pending.updates)

/-- The loop over the buffered deletes, from the last entry on.  The entries
that were not written are kept. -/
def writeAllTryDeletes : List PendingTryDeletes → WriterOp δ κ Unit
  | [] => pure ()
  | p :: rest => do
    match ← Op.attempt (writeTryDeletes fx cfg p) with
    | .ok () => writeAllTryDeletes rest
    | .error e => do
      Op.modify fun w => { w with pendingTryDeletes := rest.reverse ++ [p] }
      Op.throw e

/-- The loop over the buffered updates, from the first entry on. -/
def writeAllTryUpdates : List PendingTryUpdates → WriterOp δ κ Unit
  | [] => pure ()
  | p :: rest => do
    match ← Op.attempt (writeTryUpdates fx p) with
    | .ok () => writeAllTryUpdates rest
    | .error e => do
      Op.modify fun w => { w with pendingTryUpdates := p :: rest }
      Op.throw e

/-- The two loops of `write_pending_try_changes`. -/
def writeTryChanges : WriterOp δ κ Unit := do
  let deletes ← Op.get (·.pendingTryDeletes)
  Op.modify fun w => { w with pendingTryDeletes := [] }
  writeAllTryDeletes fx cfg deletes.reverse
  let updates ← Op.get (·.pendingTryUpdates)
  Op.modify fun w => { w with pendingTryUpdates := [] }
  writeAllTryUpdates fx updates

/-- `write_pending_try_changes`. -/
def writePendingTryChanges : WriterOp δ κ Unit := do
  let none ← Op.get fun w => w.pendingTryDeletes.isEmpty && w.pendingTryUpdates.isEmpty
  if none then pure ()
  else do
    let result ← Op.attempt (writeTryChanges fx cfg)
    checkpoint fx
    Op.ofExcept result

/-- `discard_pending_try_changes`. -/
def discardPendingTryChanges (w : IndexWriter δ κ) : IndexWriter δ κ :=
  { w with pendingTryDeletes := [], pendingTryUpdates := [] }

/-- The position of the segment's entry, which is added if there is none. -/
def tryDeletesEntry (s : Segment δ) : WriterOp δ κ Nat := do
  match ← Op.get (·.pendingTryDeletes.findIdx? (·.segmentName == s.segmentName)) with
  | some position => pure position
  | none => do
    let baseLive ← readLiveDocs fx s
    Op.modify fun w =>
      { w with pendingTryDeletes := w.pendingTryDeletes ++ [⟨s.segmentName, baseLive, []⟩] }
    Op.get (·.pendingTryDeletes.length - 1)

/-- `try_delete_resolved`. -/
def tryDeleteResolved (readerSegments : List (Segment δ)) (docId : Int) :
    WriterOp δ κ Bool := do
  match ← locate fx readerSegments docId with
  | none => pure false
  | some (target, leafDoc, maxDoc) => do
    let sci ← Op.get (·.getTarget target)
    let sci ← Op.lift (.expect sci)
    let position ← tryDeletesEntry fx sci
    let pending ← Op.get (·.pendingTryDeletes[position]?)
    let pending ← Op.lift (.expect pending)
    if pending.deleted.contains leafDoc || !pending.baseLive[leafDoc]?.getD false then do
      Op.when pending.deleted.isEmpty do
        Op.modify fun w => { w with pendingTryDeletes := swapRemove w.pendingTryDeletes position }
      pure true
    else do
      let pending := { pending with deleted := leafDoc :: pending.deleted }
      Op.modify fun w => { w with pendingTryDeletes := w.pendingTryDeletes.set position pending }
      if maxDoc ≤ sci.delCount + pending.deleted.length then do
        -- no document is left: write now, so that the segment is dropped
        Op.modify fun w => { w with pendingTryDeletes := swapRemove w.pendingTryDeletes position }
        match ← Op.attempt (writeTryDeletes fx cfg pending) with
        | .ok () => checkpoint fx
        | .error e => do
          Op.modify fun w => { w with pendingTryDeletes := w.pendingTryDeletes ++ [pending] }
          Op.throw e
        pure true
      else pure true

/-- The sequence number of an operation that was carried out. -/
def numbered (done : Bool) : WriterOp δ κ (Option Nat) :=
  if done then do
    let seqNo ← Op.get (·.deleteQueue.nextSeqNo)
    Op.modify fun w => { w with deleteQueue := w.deleteQueue.nextSequenceNumber }
    pure (some seqNo)
  else pure none

/-- `try_delete_document`. -/
def tryDeleteDocument (readerSegments : List (Segment δ)) (docId : Int) :
    WriterOp δ κ (Option Nat) := do
  numbered (← tryDeleteResolved fx cfg readerSegments docId)

/-- `verify_doc_values_update_field`. -/
def verifyDocValuesUpdateField (u : DocValuesUpdate) : Outcome WriterError Unit :=
  match cfg.docValuesType u.field with
  | none => .err (.unknownDocValuesUpdateField u.field)
  | some type =>
    if type = (if u.isNumeric then .numeric else .binary) then
      if cfg.isSortField u.field then .err (.docValuesUpdateOnIndexSortField u.field) else .ok ()
    else .err (.wrongDocValuesUpdateType u.field type)

/-- `try_update_resolved`.  The source keeps the updates of each field apart. -/
def tryUpdateResolved (readerSegments : List (Segment δ)) (docId : Int)
    (updates : List DocValuesUpdate) : WriterOp δ κ Bool :=
  if updates.isEmpty then Op.throw .noDocValuesUpdatesSupplied
  else do
    updates.forM fun u => Op.lift (verifyDocValuesUpdateField cfg u)
    match ← locate fx readerSegments docId with
    | none => pure false
    | some (target, leafDoc, _) => do
      let sci ← Op.get (·.getTarget target)
      let sci ← Op.lift (.expect sci)
      let values := updates.map fun u => ⟨u.field, leafDoc, u.value⟩
      Op.modify fun w =>
        match w.pendingTryUpdates.findIdx? (·.segmentName == sci.segmentName) with
        | some position =>
          { w with
            pendingTryUpdates := w.pendingTryUpdates.modify position fun p =>
              { p with updates := p.updates ++ values } }
        | none =>
          { w with pendingTryUpdates := w.pendingTryUpdates ++ [⟨sci.segmentName, values⟩] }
      pure true

/-- `try_update_doc_value`. -/
def tryUpdateDocValue (readerSegments : List (Segment δ)) (docId : Int)
    (updates : List DocValuesUpdate) : WriterOp δ κ (Option Nat) := do
  numbered (← tryUpdateResolved fx cfg readerSegments docId updates)

end

end IndexWriter

end LuceneRust.Index
