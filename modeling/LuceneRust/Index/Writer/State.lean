import LuceneRust.Index.SegmentDocs
import LuceneRust.Util.Base36

/-!
# The state of an `IndexWriter`

The writer holds the segments of its last commit (`segmentInfos`), the ones
that were flushed since, the documents and the deletes that are still
buffered, the packets that wait to be applied, and the commit that is prepared.

Calls on the directory, the deleter and whatever is plugged into the writer
may fail (`ioCall`).  What they do to files is left out, but for the files that
merges hold.

The trace records the segment names that were handed out, the commits that
were published, and whether a packet was pending where the source asserts that
none is.  No function reads it.
-/

namespace LuceneRust.Index

open RustSem
open StateHoare (Op)

variable {δ κ α : Type}

/-- `IndexWriter::MAX_DOCS`. -/
def maxDocsLimit : Nat := 2 ^ 31 - 1 - 128

/-- The part of a `SegmentInfos` that the writer itself reads. -/
structure WriterInfos (δ : Type) where
  counter : Nat
  generation : Nat
  segments : List (Segment δ)

/-- `DeleteNode`. -/
inductive DeleteNode (κ : Type) where
  | terms (terms : List Term)
  | queries (queries : List κ)
  | docValuesUpdates (updates : List DocValuesUpdate)

/-- The settings of a writer, and the parts of it that are left open: sizes in
memory, the order of documents in sorted segments and the files of a
segment. -/
structure WriterConfig (δ κ : Type) extends IndexingConfig δ κ where
  maxDocs : Nat
  maxDocs_le : maxDocs ≤ maxDocsLimit
  maxBufferedDocs : Option Nat
  ramBufferBytes : Option Nat
  documentRamBytes : δ → Nat
  nodeRamBytes : DeleteNode κ → Nat
  /-- `check_block` refuses more than one document: the index is sorted and
  has no parent field. -/
  refusesBlocks : Bool
  /-- The map of `sort_buffer`, from new positions to old ones. -/
  sortPermutation : List δ → Option (List Nat)
  sortPermutation_perm : ∀ {docs : List δ} {map : List Nat}, sortPermutation docs = some map →
    map.Perm (List.range docs.length)
  /-- The order in which a merge places the live documents of its sources. -/
  mergePermutation : List (Row δ) → List Nat
  mergePermutation_perm : ∀ rows : List (Row δ),
    (mergePermutation rows).Perm (List.range rows.length)
  keepFullyDeletedSegments : Bool
  hasMergePolicy : Bool
  segmentFiles : Segment δ → List String

/-- `HARD_MAX_BYTES_PER_SLOT`. -/
def hardMaxBytesPerSlot : Nat := 1945 * 1024 * 1024

/-- `PendingTryDeletes`.  The name stands for the name and the id. -/
structure PendingTryDeletes where
  segmentName : String
  baseLive : List Bool
  deleted : List Nat
  deriving Repr, DecidableEq

/-- `PendingTryUpdates`. -/
structure PendingTryUpdates where
  segmentName : String
  updates : List ValueUpdate
  deriving Repr, DecidableEq

/-- What is recorded of a run. -/
inductive WriterEvent (δ : Type) where
  /-- A segment name was handed out. -/
  | named (number : Nat)
  /-- A `segments_N` took its final name. -/
  | published (infos : WriterInfos δ)
  /-- `begin_merge` or `commit_merge` was entered. -/
  | mergeEntered (packetPending : Bool)

/-- `IndexWriter`. -/
structure IndexWriter (δ κ : Type) where
  segmentInfos : WriterInfos δ
  flushedSegments : List (Segment δ)
  rollbackSegments : List (Segment δ)
  preparedCommit : Option (WriterInfos δ)
  preparedNothing : Bool
  pendingDocs : List (Document δ)
  ramBytesUsed : Nat
  deleteQueue : DeleteQueue κ
  updatesStream : BufferedUpdatesStream κ
  pendingSortMap : List (String × List Nat)
  pendingTryDeletes : List PendingTryDeletes
  pendingTryUpdates : List PendingTryUpdates
  changeCount : Nat
  lastCommitChangeCount : Nat
  pendingCommitChangeCount : Nat
  mergesByCaller : Bool
  /-- The references that merges hold on files, one for each. -/
  held : List String
  calls : Nat
  trace : List (WriterEvent δ)

/-- A program over the state of a writer. -/
abbrev WriterOp (δ κ α : Type) := Op WriterError (IndexWriter δ κ) α

namespace IndexWriter

/-- A writer on the segments of a commit, or on an empty directory. -/
def new (counter generation : Nat) (segments : List (Segment δ)) : IndexWriter δ κ where
  segmentInfos := ⟨counter, generation, segments⟩
  flushedSegments := []
  rollbackSegments := segments
  preparedCommit := none
  preparedNothing := false
  pendingDocs := []
  ramBytesUsed := 0
  deleteQueue := .new
  updatesStream := .new
  pendingSortMap := []
  pendingTryDeletes := []
  pendingTryUpdates := []
  changeCount := 0
  lastCommitChangeCount := 0
  pendingCommitChangeCount := 0
  mergesByCaller := false
  held := []
  calls := 0
  trace := []

/-- The segments of `live_infos`. -/
def liveSegments (w : IndexWriter δ κ) : List (Segment δ) :=
  w.segmentInfos.segments ++ w.flushedSegments

/-- A change of the committed segments. -/
def mapCommitted (f : List (Segment δ) → List (Segment δ)) (w : IndexWriter δ κ) :
    IndexWriter δ κ :=
  { w with segmentInfos := { w.segmentInfos with segments := f w.segmentInfos.segments } }

/-- One more event. -/
def record (e : WriterEvent δ) (w : IndexWriter δ κ) : IndexWriter δ κ :=
  { w with trace := w.trace ++ [e] }

section

variable (fx : WriterFaults)

/-- A call that may fail. -/
def ioCall : WriterOp δ κ Unit := fun w =>
  (if fx.fails w.calls then .err .io else .ok (), { w with calls := w.calls + 1 })

/-- `IndexFileDeleter::checkpoint`. -/
def checkpoint : WriterOp δ κ Unit := ioCall fx

/-- `ensure_write_lock_valid`. -/
def ensureWriteLockValid : WriterOp δ κ Unit := ioCall fx

end

/-- The name of a segment. -/
def segmentNameOf (number : Nat) : String := "_" ++ Util.toBase36 number

/-- `new_segment_name`.  The addition is checked for overflow. -/
def newSegmentName : WriterOp δ κ String := do
  let counter ← Op.get (·.segmentInfos.counter)
  Op.lift (.guardOk (counter + 1 < 2 ^ 63))
  Op.modify fun w =>
    { w with segmentInfos := { w.segmentInfos with counter := counter + 1 } }.record (.named counter)
  pure (segmentNameOf counter)

/-- `advance_segment_infos_counter`. -/
def advanceSegmentInfosCounter (newCounter : Nat) (w : IndexWriter δ κ) : IndexWriter δ κ :=
  if w.segmentInfos.counter < newCounter then
    { w with segmentInfos := { w.segmentInfos with counter := newCounter } }
  else w

/-! ## Segments of the view -/

/-- Where a segment is in the writer: in `segmentInfos` or among the flushed
ones. -/
structure Target where
  committed : Bool
  index : Nat
  deriving Repr, DecidableEq

/-- The entry of the segment with this name. -/
def findTarget (w : IndexWriter δ κ) (name : String) : Option Target :=
  match w.segmentInfos.segments.findIdx? (·.segmentName == name) with
  | some index => some ⟨true, index⟩
  | none => (w.flushedSegments.findIdx? (·.segmentName == name)).map (⟨false, ·⟩)

/-- `target_mut`, to read. -/
def getTarget (w : IndexWriter δ κ) (t : Target) : Option (Segment δ) :=
  if t.committed then w.segmentInfos.segments[t.index]? else w.flushedSegments[t.index]?

/-- `target_mut`, to write. -/
def setTarget (t : Target) (s : Segment δ) (w : IndexWriter δ κ) : IndexWriter δ κ :=
  if t.committed then w.mapCommitted (·.set t.index s)
  else { w with flushedSegments := w.flushedSegments.set t.index s }

/-- `retain`, with a flag for each segment that goes.  There may be fewer flags
than segments. -/
def dropFlagged : List (Segment δ) → List Bool → List (Segment δ)
  | s :: segments, flag :: flags =>
    if flag then dropFlagged segments flags else s :: dropFlagged segments flags
  | segments, _ => segments

/-- `drop_fully_deleted_segments`. -/
def dropFullyDeletedSegments (cfg : WriterConfig δ κ) (committed flushed : List Bool)
    (w : IndexWriter δ κ) : IndexWriter δ κ :=
  if cfg.keepFullyDeletedSegments then w
  else
    { w.mapCommitted (dropFlagged · committed) with
      flushedSegments := dropFlagged w.flushedSegments flushed }

end IndexWriter

end LuceneRust.Index
