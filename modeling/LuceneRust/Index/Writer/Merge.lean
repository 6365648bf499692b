import LuceneRust.Index.Writer.Flush

/-!
# Merges of an `IndexWriter`

A merge is begun (`beginMerge` takes a name and a copy of its sources), runs on
those copies, and is finished: the deletes that its sources got meanwhile are
carried over, and the merged segment takes their place (`commitMerge`).

The merge policy is left open: the merges that it asks for are an argument.
-/

namespace LuceneRust.Index

open RustSem
open StateHoare (Op)

namespace IndexWriter

variable {δ κ : Type} [DecidableEq κ]

/-- `MergePlan`. -/
structure MergePlan (δ : Type) where
  names : List String
  sources : List (Segment δ)
  mergedName : String
  held : List String

/-- `MergedSegment`. -/
structure MergedSegment (δ : Type) where
  info : Segment δ
  docIdMaps : List (List Int)

/-- `MergeOutcome`. -/
inductive MergeOutcome (δ : Type) where
  | allDeleted
  | merged (merged : MergedSegment δ) (sourceLive : List (List Bool))

section

variable (fx : WriterFaults) (cfg : WriterConfig δ κ)

/-! ## Publishing -/

/-- `segment_infos::finish_pending`: the rename, and the sync after it. -/
def finishPending (infos : WriterInfos δ) : WriterOp δ κ Unit := do
  ioCall fx
  Op.modify (record (.published infos))
  ioCall fx

/-- `segment_infos::write`. -/
def writeSegmentInfos (infos : WriterInfos δ) : WriterOp δ κ Unit := do
  -- `write_pending`
  ioCall fx
  finishPending fx infos

/-- `checkpoint_committed`. -/
def checkpointCommitted : WriterOp δ κ Unit := do
  checkpoint fx
  checkpoint fx

/-- The tail of the operations that write a commit of their own. -/
def commitSegments (segments : List (Segment δ)) : WriterOp δ κ Unit := do
  let w ← Op.get id
  let infos := { w.segmentInfos with generation := w.segmentInfos.generation + 1, segments := segments }
  -- `stamp_min_segment_version`, `stamp_soft_delete_counts`, `sync_commit_files`
  ioCall fx
  let written ← Op.attempt (writeSegmentInfos fx infos)
  Op.modify fun w =>
    { w with segmentInfos := { w.segmentInfos with generation := infos.generation } }
  Op.ofExcept written
  Op.modify fun w =>
    { w with
      lastCommitChangeCount := w.changeCount
      segmentInfos := infos
      rollbackSegments := segments }
  checkpointCommitted fx

/-! ## `apply_merge` and `drop_merge` -/

/-- The loop of `apply_merge_changes`: the segments that stay, and what is left
of the merged one. -/
def replaceSources (names : List String) :
    List (Segment δ) → Option (Segment δ) → List (Segment δ) × Option (Segment δ)
  | [], merged => ([], merged)
  | s :: segments, merged =>
    if names.contains s.segmentName then
      let (out, left) := replaceSources names segments none
      (merged.toList ++ out, left)
    else
      let (out, left) := replaceSources names segments merged
      (s :: out, left)

/-- `apply_merge_changes`: the merged segment takes the place of its first
source. -/
def applyMergeChanges (names : List String) (merged : Option (Segment δ))
    (segments : List (Segment δ)) : List (Segment δ) :=
  let (out, left) := replaceSources names segments merged
  left.toList ++ out

/-- `commit_merge`. -/
def commitMerge (caller : String) (names : List String) (merged : Option (Segment δ)) :
    WriterOp δ κ Unit := do
  if (← Op.get (·.preparedCommit.isSome)) then Op.throw (.preparedCommitPending caller)
  else do
    Op.modify fun w => w.record (.mergeEntered w.updatesStream.any)
    if (← Op.get (·.mergesByCaller)) then do
      Op.modify (mapCommitted (applyMergeChanges names merged))
      checkpoint fx
    else do
      let segments ← Op.get (·.segmentInfos.segments)
      commitSegments fx (applyMergeChanges names merged segments)

/-- `apply_merge`. -/
def applyMerge (names : List String) (merged : Segment δ) : WriterOp δ κ Unit := do
  writePendingTryChanges fx cfg
  commitMerge fx "apply_merge" names (some merged)

/-- `drop_merge`. -/
def dropMerge (names : List String) : WriterOp δ κ Unit := do
  writePendingTryChanges fx cfg
  commitMerge fx "drop_merge" names none

/-! ## One merge -/

/-- A source that a merge policy names.  The source code expects it to be
there. -/
def findSource (segments : List (Segment δ)) (name : String) :
    Outcome WriterError (Segment δ) :=
  .expect (segments.find? (·.segmentName == name))

/-- The sources of a merge. -/
def findSources (segments : List (Segment δ)) : List String → Outcome WriterError (List (Segment δ))
  | [] => .ok []
  | name :: names => do
    let s ← findSource segments name
    let sources ← findSources segments names
    .ok (s :: sources)

/-- `begin_merge`. -/
def beginMerge (names : List String) : WriterOp δ κ (MergePlan δ) := do
  writePendingTryChanges fx cfg
  Op.modify fun w => w.record (.mergeEntered w.updatesStream.any)
  let mergedName ← newSegmentName
  let segments ← Op.get (·.segmentInfos.segments)
  let sources ← Op.lift (findSources segments names)
  -- `compound_file_decider`, the attributes and the `.si` files
  ioCall fx
  let held := sources.flatMap cfg.segmentFiles
  Op.modify fun w => { w with held := w.held ++ held }
  pure ⟨names, sources, mergedName, held⟩

/-- `release_files`: the counts go down, and then files are deleted. -/
def releaseFiles (files : List String) : WriterOp δ κ Unit := do
  Op.modify fun w => { w with held := w.held.diff files }
  ioCall fx

/-- `abort_merge`. -/
def abortMerge (plan : MergePlan δ) : WriterOp δ κ Unit := do
  writePendingTryChanges fx cfg
  releaseFiles fx plan.held

/-- The new ids of a source's documents, if its first live one is the `k`-th of
all the live ones.  A dead document has none. -/
def docIdMap (place : Nat → Nat) : Nat → List (Row δ) → List Int
  | _, [] => []
  | k, row :: rows =>
    if row.live then (place k : Int) :: docIdMap place (k + 1) rows
    else -1 :: docIdMap place k rows

/-- The new ids of the documents of the sources from the `k`-th live one on. -/
def docIdMaps (place : Nat → Nat) : Nat → List (Segment δ) → List (List Int)
  | _, [] => []
  | k, s :: sources =>
    docIdMap place k s.rows
      :: docIdMaps place (k + (s.rows.filter (·.live)).length) sources

/-- The live documents of the sources of a merge. -/
def liveRows (sources : List (Segment δ)) : List (Row δ) :=
  sources.flatMap fun s => s.rows.filter (·.live)

/-- What `run_merge` makes of the sources. -/
def mergeOutcome (plan : MergePlan δ) : MergeOutcome δ :=
  let rows := liveRows plan.sources
  let order := cfg.mergePermutation rows
  if rows.isEmpty then .allDeleted
  else
    .merged
      { info := { segmentName := plan.mergedName, rows := permute order rows }
        docIdMaps := docIdMaps order.idxOf 0 plan.sources }
      (plan.sources.map fun s => s.rows.map (·.live))

/-- The documents of one source that died since the merge read it, in the ids of
the merged segment. -/
def diedSince (map : List Int) (wasLive nowLive : List Bool) : List Nat :=
  (map.zipIdx.filter fun e =>
      decide (0 ≤ e.1) && wasLive[e.2]?.getD true && !nowLive[e.2]?.getD true).map (·.1.toNat)

/-- The deletes to carry over for a source that is still there. -/
def carriedFrom (snapshot current : Segment δ) (map : List Int) (wasLive : List Bool) :
    WriterOp δ κ (List Nat) :=
  if current.delGen = snapshot.delGen then pure []
  else do
    ioCall fx
    pure (diedSince map wasLive (current.rows.map (·.live)))

/-- The loop of `finish_merge_holding` over the sources.  There is no result if
the merge has to be abandoned. -/
def carriedDeletes :
    List (Segment δ) → List (List Int) → List (List Bool) → WriterOp δ κ (Option (List Nat))
  | [], _, _ => pure (some [])
  | snapshot :: sources, maps, sourceLive => do
    let current ← Op.get (·.segmentInfos.segments.find? (·.segmentName == snapshot.segmentName))
    match current.filter fun c =>
        c.fieldInfosGen == snapshot.fieldInfosGen && c.docValuesGen == snapshot.docValuesGen with
    | none => pure none
    | some current => do
      let carried ← carriedFrom fx snapshot current (maps.headD []) (sourceLive.headD [])
      let rest ← carriedDeletes sources maps.tail sourceLive.tail
      pure (rest.map (carried ++ ·))

/-- `apply_deletes_with_codec` on the merged segment, which is not in the view
yet. -/
def deleteCarried (info : Segment δ) (carried : List Nat) : WriterOp δ κ (Segment δ) :=
  if carried.isEmpty then pure info
  else do
    let updated ← Op.lift (deletedSegment info carried)
    ioCall fx
    pure updated

/-- `finish_merge_holding`. -/
def finishMergeHolding (plan : MergePlan δ) (outcome : MergeOutcome δ) : WriterOp δ κ Bool := do
  match outcome with
  | .allDeleted => do
    dropMerge fx cfg plan.names
    pure true
  | .merged merged sourceLive => do
    -- the compound file
    ioCall fx
    match ← carriedDeletes fx plan.sources merged.docIdMaps sourceLive with
    | none => do
      -- `delete_new_files`
      ioCall fx
      pure false
    | some carried => do
      let info ← deleteCarried fx merged.info carried
      applyMerge fx cfg plan.names info
      pure true

/-- `finish_merge`. -/
def finishMerge (plan : MergePlan δ) (outcome : MergeOutcome δ) : WriterOp δ κ Bool := do
  writePendingTryChanges fx cfg
  let result ← Op.attempt (finishMergeHolding fx cfg plan outcome)
  let released ← Op.attempt (releaseFiles fx plan.held)
  let published ← Op.ofExcept result
  Op.ofExcept released
  pure published

/-- `execute_merge_planned`. -/
def executeMerge (names : List String) : WriterOp δ κ Bool := do
  writePendingTryChanges fx cfg
  let plan ← beginMerge fx cfg names
  -- `run_merge`
  match ← Op.attempt (ioCall fx) with
  | .ok () => finishMerge fx cfg plan (mergeOutcome cfg plan)
  | .error e => do
    let _ ← Op.attempt (abortMerge fx cfg plan)
    Op.throw e

/-! ## The callers of merges -/

/-- The merges that a policy asks for, one after the other.  It reads the sizes
of the segments for that. -/
def runMerges (groups : List (List String)) : WriterOp δ κ Unit := do
  groups.forM fun names => do
    ioCall fx
    let _ ← executeMerge fx cfg names
  ioCall fx

/-- A run of merges with `merges_by_caller`, which is put back after it. -/
def withMergesByCaller (x : WriterOp δ κ Unit) : WriterOp δ κ Unit := do
  let byCaller ← Op.get (·.mergesByCaller)
  Op.modify fun w => { w with mergesByCaller := true }
  let result ← Op.attempt x
  Op.modify fun w => { w with mergesByCaller := byCaller }
  Op.ofExcept result

/-- `force_merge`. -/
def forceMerge (maxNumSegments : Nat) (groups : List (List String)) : WriterOp δ κ Unit := do
  writePendingTryChanges fx cfg
  if maxNumSegments = 0 then Op.throw (.invalidMaxNumSegments maxNumSegments)
  else runMerges fx cfg groups

/-- `force_merge_deletes`. -/
def forceMergeDeletes (groups : List (List String)) : WriterOp δ κ Unit := do
  writePendingTryChanges fx cfg
  runMerges fx cfg groups

/-- `maybe_merge`. -/
def maybeMerge (groups : List (List String)) : WriterOp δ κ Unit := do
  writePendingTryChanges fx cfg
  if !cfg.hasMergePolicy then pure ()
  else if (← Op.get (·.preparedCommit.isSome)) then
    Op.throw (.preparedCommitPending "maybe_merge")
  else withMergesByCaller (runMerges fx cfg groups)

/-- `fold_flushed_segments`. -/
def foldFlushedSegments (w : IndexWriter δ κ) : IndexWriter δ κ :=
  { w.mapCommitted (· ++ w.flushedSegments) with flushedSegments := [] }

/-- `merge_on_full_flush`.  There are no merges without a policy, or without a
time to wait for them. -/
def mergeOnFullFlush (merges : Option (List (List String))) : WriterOp δ κ Unit := do
  writePendingTryChanges fx cfg
  match merges with
  | none => pure ()
  | some groups => do
    Op.modify foldFlushedSegments
    -- `merge_inputs`
    ioCall fx
    withMergesByCaller (groups.forM fun names => do let _ ← executeMerge fx cfg names)

end

end IndexWriter

end LuceneRust.Index
