import LuceneRust.Index.Writer.Commit

/-!
# Runs of an `IndexWriter`

A run is a list of calls on one writer, each of which may fail.  `Along` says
that a condition on the state and the call holds at each step.
-/

namespace LuceneRust.Index

open RustSem

/-- A call on a writer.  From `beginMerge` on they are those of a concurrent
writer, whose merges run beside other calls and whose buffers flush on their
own: a buffer reserves a name, begins its segment with a ticket, and publishes
or abandons it. -/
inductive WriterCall (δ κ : Type) where
  | addDocument (doc : δ)
  | addDocuments (docs : List δ)
  | updateDocuments (term : Term) (docs : List δ)
  | softUpdateDocuments (term : Term) (docs : List δ) (softDeletes : List DocValuesUpdate)
  | deleteDocumentsByTerm (terms : List Term)
  | deleteDocumentsByQuery (queries : List κ)
  | updateDocValues (term : Term) (updates : List DocValuesUpdate)
  | tryDeleteDocument (reader : List (Segment δ)) (docId : Int)
  | tryUpdateDocValue (reader : List (Segment δ)) (docId : Int) (updates : List DocValuesUpdate)
  | flush
  | nrtSnapshot (merges : Option (List (List String)))
  | prepareCommit (merges : Option (List (List String)))
  | finishCommit (groups : List (List String))
  | commit (merges : Option (List (List String))) (groups : List (List String))
  | rollback
  | tryRollback
  | deleteAll
  | forceMerge (maxNumSegments : Nat) (groups : List (List String))
  | forceMergeDeletes (groups : List (List String))
  | maybeMerge (groups : List (List String))
  | applyMerge (names : List String) (merged : Segment δ)
  | dropMerge (names : List String)
  | updateDocumentWithSources (sources : List String) (term : Term) (doc : δ)
  | deleteDocumentsWithSources (sources : List String) (term : Term)
  | addIndexes (sources : List (Segment δ))
  | addIndexesMerged (sources : List (Segment δ))
  | advanceSegmentInfosCounter (newCounter : Nat)
  | setLiveCommitData
  | setMergesByCaller (byCaller : Bool)
  | beginMerge (names : List String)
  | finishMerge (plan : IndexWriter.MergePlan δ) (outcome : IndexWriter.MergeOutcome δ)
  | abortMerge (plan : IndexWriter.MergePlan δ)
  | bufferGlobalDelete (node : DeleteNode κ)
  | reserveSegment
  | beginSegment (reserved : Option String)
  | abandonSegment (ticket : IndexWriter.SegmentTicket κ)
  | publishSegmentWith (ticket : IndexWriter.SegmentTicket κ) (sci : Segment δ)
      (privatePacket : Option (FrozenBufferedUpdates κ)) (sortMap : Option (List Nat))
      (freezeGlobal : Bool)
  | dropFullyDeletedFlushed (name : String)
  | beginDeletesTicket
  | publishDeletesTicket (packet : Option (FrozenBufferedUpdates κ))
  | applyPendingPackets

open StateHoare (Op)
open IndexWriter

variable {δ κ α : Type} [DecidableEq κ]

/-- A program without a sequence number. -/
def IndexWriter.unnumbered (x : WriterOp δ κ α) : WriterOp δ κ (Option Nat) := do
  let _ ← x
  pure none

/-- A program whose value is a sequence number. -/
def IndexWriter.withNumber (x : WriterOp δ κ Nat) : WriterOp δ κ (Option Nat) := do
  let n ← x
  pure (some n)

section

variable (fx : WriterFaults) (cfg : WriterConfig δ κ)

/-- The call, and the sequence number that it returns. -/
def WriterCall.run : WriterCall δ κ → WriterOp δ κ (Option Nat)
  | addDocument doc => withNumber (IndexWriter.addDocument fx cfg doc)
  | addDocuments docs => withNumber (IndexWriter.addDocuments fx cfg docs)
  | updateDocuments term docs => withNumber (IndexWriter.updateDocuments fx cfg term docs)
  | softUpdateDocuments term docs softDeletes =>
    withNumber (IndexWriter.softUpdateDocuments fx cfg term docs softDeletes)
  | deleteDocumentsByTerm terms => withNumber (IndexWriter.deleteDocumentsByTerm fx cfg terms)
  | deleteDocumentsByQuery queries =>
    withNumber (IndexWriter.deleteDocumentsByQuery fx cfg queries)
  | updateDocValues term updates => withNumber (IndexWriter.updateDocValues fx cfg term updates)
  | tryDeleteDocument reader docId => IndexWriter.tryDeleteDocument fx cfg reader docId
  | tryUpdateDocValue reader docId updates =>
    IndexWriter.tryUpdateDocValue fx cfg reader docId updates
  | flush => unnumbered (IndexWriter.flush fx cfg)
  | nrtSnapshot merges => unnumbered (IndexWriter.nrtSnapshot fx cfg merges)
  | prepareCommit merges => unnumbered (IndexWriter.prepareCommit fx cfg merges)
  | finishCommit groups => unnumbered (IndexWriter.finishCommit fx cfg groups)
  | commit merges groups => unnumbered (IndexWriter.commit fx cfg merges groups)
  | rollback => unnumbered (IndexWriter.rollback fx)
  | tryRollback => unnumbered (IndexWriter.tryRollback fx)
  | deleteAll => unnumbered (IndexWriter.deleteAll fx)
  | forceMerge maxNumSegments groups =>
    unnumbered (IndexWriter.forceMerge fx cfg maxNumSegments groups)
  | forceMergeDeletes groups => unnumbered (IndexWriter.forceMergeDeletes fx cfg groups)
  | maybeMerge groups => unnumbered (IndexWriter.maybeMerge fx cfg groups)
  | applyMerge names merged => unnumbered (IndexWriter.applyMerge fx cfg names merged)
  | dropMerge names => unnumbered (IndexWriter.dropMerge fx cfg names)
  | updateDocumentWithSources sources term doc =>
    unnumbered (IndexWriter.updateDocumentWithSources fx cfg sources term doc)
  | deleteDocumentsWithSources sources term =>
    unnumbered (IndexWriter.deleteDocumentsWithSources fx cfg sources term)
  | addIndexes sources => withNumber (IndexWriter.addIndexes fx cfg sources)
  | addIndexesMerged sources => withNumber (IndexWriter.addIndexesMerged fx cfg sources)
  | advanceSegmentInfosCounter newCounter =>
    unnumbered (Op.modify (IndexWriter.advanceSegmentInfosCounter newCounter))
  | setLiveCommitData => unnumbered (Op.modify changed)
  | setMergesByCaller byCaller =>
    unnumbered (Op.modify fun w => { w with mergesByCaller := byCaller })
  | beginMerge names => unnumbered (IndexWriter.beginMerge fx cfg names)
  | finishMerge plan outcome => unnumbered (IndexWriter.finishMerge fx cfg plan outcome)
  | abortMerge plan => unnumbered (IndexWriter.abortMerge fx cfg plan)
  | bufferGlobalDelete node => unnumbered (Op.modify (IndexWriter.bufferGlobalDelete node))
  | reserveSegment => unnumbered IndexWriter.reserveSegment
  | beginSegment reserved => unnumbered (IndexWriter.beginSegment reserved)
  | abandonSegment ticket => unnumbered (Op.modify (IndexWriter.abandonSegment ticket))
  | publishSegmentWith ticket sci privatePacket sortMap freezeGlobal =>
    unnumbered
      (IndexWriter.publishSegmentWith fx cfg ticket sci privatePacket sortMap freezeGlobal)
  | dropFullyDeletedFlushed name => unnumbered (IndexWriter.dropFullyDeletedFlushed fx cfg name)
  | beginDeletesTicket => unnumbered IndexWriter.beginDeletesTicket
  | publishDeletesTicket packet => unnumbered (IndexWriter.publishDeletesTicket fx cfg packet)
  | applyPendingPackets => unnumbered (IndexWriter.applyPendingPackets fx cfg)

/-- How a call ended. -/
def succeeded : Outcome WriterError α → Bool
  | .ok _ => true
  | .err _ => false
  | .panic => false

/-- A run, with how each of its calls ended. -/
def runCalls : List (WriterCall δ κ) → IndexWriter δ κ →
    List (Outcome WriterError (Option Nat)) × IndexWriter δ κ
  | [], w => ([], w)
  | call :: calls, w =>
    let (result, w) := call.run fx cfg w
    let (results, w) := runCalls calls w
    (result :: results, w)

/-- Each step of the run meets the condition. -/
def Along (P : IndexWriter δ κ → WriterCall δ κ → Prop) :
    List (WriterCall δ κ) → IndexWriter δ κ → Prop
  | [], _ => True
  | call :: calls, w => P w call ∧ Along P calls (call.run fx cfg w).2

end

variable {fx : WriterFaults} {cfg : WriterConfig δ κ}

/-- An invariant of the steps holds at the end of the run. -/
theorem Along.invariant {P : IndexWriter δ κ → WriterCall δ κ → Prop} {I : IndexWriter δ κ → Prop}
    (hstep : ∀ w call, P w call → I w → I (call.run fx cfg w).2) {calls : List (WriterCall δ κ)}
    {w : IndexWriter δ κ} (hrun : Along fx cfg P calls w) (hw : I w) :
    I (runCalls fx cfg calls w).2 := by
  induction calls generalizing w with
  | nil => exact hw
  | cons call calls ih => exact ih hrun.2 (hstep w call hrun.1 hw)

instance decidableAlong {P : IndexWriter δ κ → WriterCall δ κ → Prop}
    [h : ∀ w call, Decidable (P w call)] :
    ∀ (calls : List (WriterCall δ κ)) (w : IndexWriter δ κ), Decidable (Along fx cfg P calls w)
  | [], _ => isTrue trivial
  | call :: calls, w =>
    @instDecidableAnd _ _ (h w call) (decidableAlong calls (call.run fx cfg w).2)

/-! ## A small writer -/

/-- No call fails. -/
def noIoFaults : WriterFaults := ⟨fun _ => false⟩

/-- The call with this number fails. -/
def faultAt (n : Nat) : WriterFaults := ⟨fun k => k == n⟩

/-- A writer whose documents are the bytes of their one term.  Nothing is sorted,
and nothing is flushed on its own. -/
def plainConfig : WriterConfig (List U8) Term where
  hasTerm t d := t.bytes == d
  matchesQuery q d := q.bytes == d
  isMatchAll _ := false
  matches_of_isMatchAll _ h := by cases h
  original _ _ := .none
  docValuesType f := if f == "rank" then some .numeric else none
  isSortField _ := false
  maxDocs := maxDocsLimit
  maxDocs_le := le_rfl
  maxBufferedDocs := none
  ramBufferBytes := none
  documentRamBytes d := d.length
  nodeRamBytes _ := 1
  refusesBlocks := false
  sortPermutation _ := none
  sortPermutation_perm h := by cases h
  mergePermutation rows := List.range rows.length
  mergePermutation_perm _ := .refl _
  keepFullyDeletedSegments := false
  hasMergePolicy := false
  segmentFiles s := [s.segmentName ++ ".si"]

end LuceneRust.Index
