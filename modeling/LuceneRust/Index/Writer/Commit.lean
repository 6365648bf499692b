import LuceneRust.Index.Writer.Merge

/-!
# Commits of an `IndexWriter`

`prepareCommit` flushes, and stashes the segment list that the commit is going
to name; `finishCommit` publishes it and installs it in the writer.
`rollback` goes back to the last commit.  The module ends with the operations
that commit on their own, and with `add_indexes`.
-/

namespace LuceneRust.Index

open RustSem
open StateHoare (Op)

namespace IndexWriter

variable {δ κ : Type} [DecidableEq κ]

section

variable (fx : WriterFaults) (cfg : WriterConfig δ κ)

/-- One turn of `same_committed_segments`. -/
def sameCommittedSegment (x y : Segment δ) : Bool :=
  x.segmentName == y.segmentName && x.delGen == y.delGen && x.delCount == y.delCount
    && x.fieldInfosGen == y.fieldInfosGen && x.docValuesGen == y.docValuesGen

/-- `same_committed_segments`. -/
def sameCommittedSegments (a b : List (Segment δ)) : Bool :=
  a.length == b.length && (a.zip b).all fun e => sameCommittedSegment e.1 e.2

/-- The commit that `prepare_commit` stashes. -/
def nextInfos (w : IndexWriter δ κ) : WriterInfos δ :=
  { w.segmentInfos with
    generation := w.segmentInfos.generation + 1
    segments := w.liveSegments }

/-- `prepare_commit_excluding`, with the merges of a full flush. -/
def prepareCommitExcluding (merges : Option (List (List String))) : WriterOp δ κ Unit := do
  writePendingTryChanges fx cfg
  if (← Op.get (·.preparedCommit.isSome)) then Op.throw .prepareCommitAlreadyCalled
  else do
    Op.modify fun w => { w with preparedNothing := false }
    ensureWriteLockValid fx
    flush fx cfg
    mergeOnFullFlush fx cfg merges
    let infos ← Op.get nextInfos
    -- `stamp_min_segment_version` and `stamp_soft_delete_counts`
    ioCall fx
    let w ← Op.get id
    if w.changeCount == w.lastCommitChangeCount
        && sameCommittedSegments infos.segments w.rollbackSegments then
      Op.modify fun w => { w with preparedNothing := true }
    else do
      -- `sync_commit_files`
      ioCall fx
      let written ← Op.attempt (ioCall fx)
      Op.modify fun w =>
        { w with segmentInfos := { w.segmentInfos with generation := infos.generation } }
      Op.ofExcept written
      Op.modify fun w =>
        { w with preparedCommit := some infos, pendingCommitChangeCount := w.changeCount }

/-- `prepare_commit`. -/
def prepareCommit (merges : Option (List (List String))) : WriterOp δ κ Unit := do
  writePendingTryChanges fx cfg
  prepareCommitExcluding fx cfg merges

/-- The state once the prepared commit is published. -/
def installed (infos : WriterInfos δ) (w : IndexWriter δ κ) : IndexWriter δ κ :=
  { w with
    segmentInfos := infos
    flushedSegments := []
    lastCommitChangeCount := w.pendingCommitChangeCount
    rollbackSegments := infos.segments }

/-- `finish_commit`, with the merges that `auto_merge` runs. -/
def finishCommit (groups : List (List String)) : WriterOp δ κ Unit := do
  writePendingTryChanges fx cfg
  match ← Op.get (·.preparedCommit) with
  | none => do
    let nothing ← Op.get (·.preparedNothing)
    Op.modify fun w => { w with preparedNothing := false }
    if nothing then pure () else Op.throw .noPreparedCommit
  | some infos => do
    ensureWriteLockValid fx
    Op.modify fun w => { w with preparedCommit := none }
    match ← Op.attempt (finishPending fx infos) with
    | .error e => do
      Op.modify fun w => { w with preparedCommit := some infos }
      Op.throw e
    | .ok () => do
      Op.modify (installed infos)
      checkpointCommitted fx
      let byCaller ← Op.get (·.mergesByCaller)
      Op.when (cfg.hasMergePolicy && !byCaller) (runMerges fx cfg groups)

/-- `commit`. -/
def commit (merges : Option (List (List String))) (groups : List (List String)) :
    WriterOp δ κ Unit := do
  writePendingTryChanges fx cfg
  prepareCommit fx cfg merges
  finishCommit fx cfg groups

/-! ## Rollback -/

/-- The state that `rollback_state` leaves. -/
def rolledBack (w : IndexWriter δ κ) : IndexWriter δ κ :=
  { w.discardPendingTryChanges.mapCommitted fun _ => w.rollbackSegments with
    pendingDocs := []
    ramBytesUsed := 0
    pendingSortMap := []
    deleteQueue := w.deleteQueue.clear
    updatesStream := w.updatesStream.clear
    flushedSegments := []
    preparedNothing := false
    preparedCommit := none }

/-- `rollback_state`. -/
def rollbackState : WriterOp δ κ Unit := do
  -- `prepare_rollback_field_numbers`
  ioCall fx
  Op.modify rolledBack

/-- `try_rollback`. -/
def tryRollback : WriterOp δ κ Unit := do
  rollbackState fx
  checkpoint fx
  -- `refresh`
  ioCall fx

/-- `rollback`. -/
def rollback : WriterOp δ κ Unit := do
  match ← Op.attempt (rollbackState fx) with
  | .error _ => pure ()
  | .ok () => do
    let _ ← Op.attempt (checkpoint fx)
    let _ ← Op.attempt (ioCall fx)

/-! ## Snapshots -/

/-- `nrt_snapshot`.  The value is the segment list of the reader. -/
def nrtSnapshot (merges : Option (List (List String))) : WriterOp δ κ (List (Segment δ)) := do
  writePendingTryChanges fx cfg
  -- `release_nrt_holds`
  ioCall fx
  flush fx cfg
  mergeOnFullFlush fx cfg merges
  writePendingTryChanges fx cfg
  ioCall fx
  let segments ← Op.get (·.liveSegments)
  -- `pin_segment_files`
  ioCall fx
  pure segments

/-! ## Operations that commit on their own -/

/-- `resolve_and_apply_term_delete`, if the caller has opened the segment. -/
def deleteTermIn (term : Term) (sources : List String) (s : Segment δ) :
    WriterOp δ κ (Segment δ) :=
  if sources.contains s.segmentName then do
    ioCall fx
    Op.lift (deletedSegment s (liveDocsWith s.rows (cfg.hasTerm term)))
  else pure s

/-- The loop of the two operations over the segments. -/
def deleteTermFrom (term : Term) (sources : List String) :
    List (Segment δ) → WriterOp δ κ (List (Segment δ))
  | [] => pure []
  | s :: segments => do
    let updated ← deleteTermIn fx cfg term sources s
    let rest ← deleteTermFrom term sources segments
    pure (updated :: rest)

/-- `update_document_with_sources`.  The document has no sequence number. -/
def updateDocumentWithSources (sources : List String) (term : Term) (doc : δ) :
    WriterOp δ κ Unit := do
  writePendingTryChanges fx cfg
  if (← Op.get (·.preparedCommit.isSome)) then
    Op.throw (.preparedCommitPending "update_document")
  else do
    let name ← newSegmentName
    let segments ← Op.get (·.segmentInfos.segments)
    let updated ← deleteTermFrom fx cfg term sources segments
    ioCall fx
    commitSegments fx (updated ++ [builtSegment cfg name [⟨doc, 0, 0⟩]])

/-- `delete_documents_with_sources`. -/
def deleteDocumentsWithSources (sources : List String) (term : Term) : WriterOp δ κ Unit := do
  writePendingTryChanges fx cfg
  if (← Op.get (·.preparedCommit.isSome)) then
    Op.throw (.preparedCommitPending "delete_documents")
  else do
    let segments ← Op.get (·.segmentInfos.segments)
    let updated ← deleteTermFrom fx cfg term sources segments
    commitSegments fx updated

/-! ## `index_writer::add_indexes` -/

/-- `copy_segment_as_is`, for each of the segments. -/
def copySegments : List (Segment δ) → WriterOp δ κ (List (Segment δ))
  | [] => pure []
  | s :: sources => do
    let name ← newSegmentName
    ioCall fx
    let rest ← copySegments sources
    pure ({ s with segmentName := name, bufferedDeletesGen := -1 } :: rest)

/-- `copy_segments_in`, for the segments of the source directories. -/
def copySegmentsIn (sources : List (Segment δ)) : WriterOp δ κ (List (Segment δ)) := do
  if (← Op.get (·.preparedCommit.isSome)) then Op.throw (.preparedCommitPending "add_indexes")
  else do
    flush fx cfg
    -- the locks, the commits and the schemas of the sources
    ioCall fx
    let live ← Op.get (·.liveSegments)
    if cfg.maxDocs < ((live ++ sources).map (·.maxDoc)).sum then
      Op.throw (.tooManyDocs cfg.maxDocs)
    else copySegments fx sources

/-- The sequence number of an operation on whole segments. -/
def nextSeqNo : WriterOp δ κ Nat := do
  let seqNo ← Op.get (·.deleteQueue.nextSeqNo)
  Op.modify fun w => { w with deleteQueue := w.deleteQueue.nextSequenceNumber }
  pure seqNo

/-- `changed`. -/
def changed (w : IndexWriter δ κ) : IndexWriter δ κ := { w with changeCount := w.changeCount + 1 }

/-- `add_indexes`. -/
def addIndexes (sources : List (Segment δ)) : WriterOp δ κ Nat := do
  writePendingTryChanges fx cfg
  let added ← copySegmentsIn fx cfg sources
  Op.modify (mapCommitted (· ++ added))
  checkpoint fx
  Op.modify changed
  nextSeqNo

/-- `withdraw_copies`. -/
def withdrawCopies (names : List String) : WriterOp δ κ Unit := do
  Op.modify (mapCommitted (·.filter fun s => !names.contains s.segmentName))
  checkpoint fx

/-- `add_indexes_merged`. -/
def addIndexesMerged (sources : List (Segment δ)) : WriterOp δ κ Nat := do
  writePendingTryChanges fx cfg
  let added ← copySegmentsIn fx cfg sources
  if added.isEmpty then nextSeqNo
  else do
    let names := added.map (·.segmentName)
    Op.modify (mapCommitted (· ++ added))
    checkpoint fx
    let byCaller ← Op.get (·.mergesByCaller)
    Op.modify fun w => { w with mergesByCaller := true }
    let result ← Op.attempt (executeMerge fx cfg names)
    Op.modify fun w => { w with mergesByCaller := byCaller }
    match result with
    | .ok true => do
      Op.modify changed
      nextSeqNo
    | .ok false => do
      withdrawCopies fx names
      nextSeqNo
    | .error e => do
      let _ ← Op.attempt (withdrawCopies fx names)
      Op.throw e

end

end IndexWriter

end LuceneRust.Index
