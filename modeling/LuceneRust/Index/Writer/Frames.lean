import LuceneRust.Index.Writer.Calls

/-!
# What the parts of a writer's operations leave alone

* `EditInvariant` says what an invariant has to keep so that the changes of
  single documents keep it.  They change segments, and nothing else of the
  writer (`writePendingTryChanges_only`).
* `CommitInvariant` and `MergeInvariant` say what an invariant has to keep so
  that merges keep it (`finishMerge_keeps`, `runMerges_keeps`).
* `AddInvariant` does this for the operations that may flush
  (`addDocument_ends`, `bufferDelete_ends`).
-/

namespace LuceneRust.Index.IndexWriter

open RustSem
open StateHoare

variable {δ κ α : Type}

/-- Between `w` and `w'` only segments were changed, and the changes of single
documents that wait. -/
def SegmentsOnly (w w' : IndexWriter δ κ) : Prop :=
  w' =
    { w with
      segmentInfos := { w.segmentInfos with segments := w'.segmentInfos.segments }
      flushedSegments := w'.flushedSegments
      pendingTryDeletes := w'.pendingTryDeletes
      pendingTryUpdates := w'.pendingTryUpdates
      calls := w'.calls }

namespace SegmentsOnly

variable {u v w : IndexWriter δ κ}

theorem refl (w : IndexWriter δ κ) : SegmentsOnly w w := rfl

theorem trans (h : SegmentsOnly u v) (h' : SegmentsOnly v w) : SegmentsOnly u w := by
  unfold SegmentsOnly at h h' ⊢
  generalize w.segmentInfos.segments = segments, w.flushedSegments = flushed,
    w.pendingTryDeletes = deletes, w.pendingTryUpdates = updates, w.calls = calls at h' ⊢
  rw [h', h]

end SegmentsOnly

/-- An invariant of the changes that single documents make: a change of the
segment of a target, a drop of segments, and a change of what waits. -/
structure EditInvariant (fx : WriterFaults) (cfg : WriterConfig δ κ) (I : IndexWriter δ κ → Prop) :
    Prop where
  pending : ∀ w deletes updates calls, I w →
    I { w with pendingTryDeletes := deletes, pendingTryUpdates := updates, calls := calls }
  applyDeletes : ∀ t docs, Keeps I (onTarget t (SegmentIo.applyDeletes fx docs))
  writeUpdates : ∀ t updates, Keeps I (onTarget t (SegmentIo.writeDocValuesUpdates fx updates))
  dropFullyDeleted : ∀ w committed flushed, I w →
    I (w.dropFullyDeletedSegments cfg committed flushed)

namespace EditInvariant

variable {fx : WriterFaults} {cfg : WriterConfig δ κ} {I : IndexWriter δ κ → Prop}
  (h : EditInvariant fx cfg I)

include h

theorem ioCall_keeps : Keeps I (ioCall fx : WriterOp δ κ Unit) :=
  fun w hw => h.pending w w.pendingTryDeletes w.pendingTryUpdates (w.calls + 1) hw

theorem setDeletes_keeps (f : IndexWriter δ κ → List PendingTryDeletes) :
    Keeps I (Op.modify fun w => { w with pendingTryDeletes := f w } : WriterOp δ κ Unit) :=
  keeps_modify fun w hw => h.pending w (f w) w.pendingTryUpdates w.calls hw

theorem setUpdates_keeps (f : IndexWriter δ κ → List PendingTryUpdates) :
    Keeps I (Op.modify fun w => { w with pendingTryUpdates := f w } : WriterOp δ κ Unit) :=
  keeps_modify fun w hw => h.pending w w.pendingTryDeletes (f w) w.calls hw

theorem readLiveDocs_keeps (s : Segment δ) :
    Keeps I (readLiveDocs fx s : WriterOp δ κ (List Bool)) :=
  keeps_bind (keeps_when fun _ => h.ioCall_keeps) fun _ => keeps_pure

theorem writeTryDeletes_keeps (p : PendingTryDeletes) : Keeps I (writeTryDeletes fx cfg p) := by
  refine keeps_ite (fun _ => keeps_pure) fun _ => ?_
  refine keeps_bind keeps_get fun target => ?_
  cases target with
  | none => exact keeps_pure
  | some target =>
    refine keeps_bind keeps_get fun _ => keeps_bind keeps_lift fun _ => ?_
    refine keeps_bind (h.readLiveDocs_keeps _) fun _ => ?_
    refine keeps_bind (h.applyDeletes _ _) fun _ => ?_
    refine keeps_bind keeps_get fun _ => keeps_bind keeps_lift fun _ => ?_
    exact keeps_when fun _ => keeps_modify fun w hw => h.dropFullyDeleted w _ _ hw

theorem writeTryUpdates_keeps (p : PendingTryUpdates) :
    Keeps I (writeTryUpdates fx p : WriterOp δ κ Unit) := by
  refine keeps_bind keeps_get fun target => ?_
  cases target with
  | none => exact keeps_pure
  | some target => exact h.writeUpdates _ _

attribute [local simp] writeAllTryDeletes writeAllTryUpdates

theorem writeAllTryDeletes_keeps (ps : List PendingTryDeletes) :
    Keeps I (writeAllTryDeletes fx cfg ps) := by
  induction ps with
  | nil => exact keeps_pure
  | cons p ps ih =>
    refine keeps_bind (keeps_attempt (h.writeTryDeletes_keeps p)) fun result => ?_
    cases result with
    | ok u => exact ih
    | error e => exact keeps_bind (h.setDeletes_keeps _) fun _ => keeps_throw

theorem writeAllTryUpdates_keeps (ps : List PendingTryUpdates) :
    Keeps I (writeAllTryUpdates fx ps : WriterOp δ κ Unit) := by
  induction ps with
  | nil => exact keeps_pure
  | cons p ps ih =>
    refine keeps_bind (keeps_attempt (h.writeTryUpdates_keeps p)) fun result => ?_
    cases result with
    | ok u => exact ih
    | error e => exact keeps_bind (h.setUpdates_keeps _) fun _ => keeps_throw

theorem writePending_keeps : Keeps I (writePendingTryChanges fx cfg) := by
  have hchanges : Keeps I (writeTryChanges fx cfg) := by
    refine keeps_bind keeps_get fun _ => keeps_bind (h.setDeletes_keeps _) fun _ => ?_
    refine keeps_bind (h.writeAllTryDeletes_keeps _) fun _ => keeps_bind keeps_get fun _ => ?_
    exact keeps_bind (h.setUpdates_keeps _) fun _ => h.writeAllTryUpdates_keeps _
  refine keeps_bind keeps_get fun _ => keeps_ite (fun _ => keeps_pure) fun _ => ?_
  exact keeps_bind (keeps_attempt hchanges) fun _ =>
    keeps_bind h.ioCall_keeps fun _ => keeps_ofExcept

theorem locateFrom_keeps (docId : Nat) (segments : List (Segment δ)) (base : Nat) :
    Keeps I (locateFrom fx docId base segments : WriterOp δ κ (Option (Target × Nat × Nat))) := by
  induction segments generalizing base with
  | nil => exact keeps_throw
  | cons s segments ih =>
    refine keeps_bind h.ioCall_keeps fun _ => keeps_ite (fun _ => ?_) fun _ => ih _
    exact keeps_bind keeps_get fun _ => keeps_pure

theorem locate_keeps (reader : List (Segment δ)) (docId : Int) :
    Keeps I (locate fx reader docId : WriterOp δ κ (Option (Target × Nat × Nat))) :=
  keeps_ite (fun _ => keeps_throw) fun _ => h.locateFrom_keeps _ _ _

theorem tryDeletesEntry_keeps (s : Segment δ) :
    Keeps I (tryDeletesEntry fx s : WriterOp δ κ Nat) := by
  refine keeps_bind keeps_get fun position => ?_
  cases position with
  | some position => exact keeps_pure
  | none =>
    refine keeps_bind (h.readLiveDocs_keeps s) fun _ => ?_
    exact keeps_bind (h.setDeletes_keeps _) fun _ => keeps_get

theorem tryDeleteResolved_keeps (reader : List (Segment δ)) (docId : Int) :
    Keeps I (tryDeleteResolved fx cfg reader docId) := by
  refine keeps_bind (h.locate_keeps _ _) fun located => ?_
  cases located with
  | none => exact keeps_pure
  | some located =>
    refine keeps_bind keeps_get fun _ => keeps_bind keeps_lift fun _ => ?_
    refine keeps_bind (h.tryDeletesEntry_keeps _) fun _ => ?_
    refine keeps_bind keeps_get fun _ => keeps_bind keeps_lift fun _ => ?_
    refine keeps_ite (fun _ => ?_) fun _ => ?_
    · exact keeps_bind (keeps_when fun _ => h.setDeletes_keeps _) fun _ => keeps_pure
    · refine keeps_bind (h.setDeletes_keeps _) fun _ => ?_
      refine keeps_ite (fun _ => ?_) fun _ => keeps_pure
      refine keeps_bind (h.setDeletes_keeps _) fun _ => ?_
      refine keeps_bind (keeps_attempt (h.writeTryDeletes_keeps _)) fun result => ?_
      cases result with
      | ok u => exact keeps_bind h.ioCall_keeps fun _ => keeps_pure
      | error e => exact keeps_bind (h.setDeletes_keeps _) fun _ => keeps_throw

theorem tryUpdateResolved_keeps (reader : List (Segment δ)) (docId : Int)
    (updates : List DocValuesUpdate) : Keeps I (tryUpdateResolved fx cfg reader docId updates) := by
  refine keeps_ite (fun _ => keeps_throw) fun _ => ?_
  refine keeps_bind (keeps_forM fun _ _ => keeps_lift) fun _ => ?_
  refine keeps_bind (h.locate_keeps _ _) fun located => ?_
  cases located with
  | none => exact keeps_pure
  | some located =>
    refine keeps_bind keeps_get fun _ => keeps_bind keeps_lift fun _ => ?_
    refine keeps_bind (keeps_modify fun w hw => ?_) fun _ => keeps_pure
    split
    · exact h.pending w w.pendingTryDeletes _ w.calls hw
    · exact h.pending w w.pendingTryDeletes _ w.calls hw

end EditInvariant

/-- A program that only changes segments keeps what does not depend on them. -/
theorem keeps_of_only {I : IndexWriter δ κ → Prop} {x : WriterOp δ κ α}
    (h : ∀ w₀, Keeps (SegmentsOnly w₀) x) (hI : ∀ w w', SegmentsOnly w w' → I w → I w') :
    Keeps I x :=
  fun w hw => hI w _ (h w w (SegmentsOnly.refl w)) hw

section

variable {fx : WriterFaults} {cfg : WriterConfig δ κ} {w₀ : IndexWriter δ κ}

theorem onTarget_only (t : Target) (x : Op WriterError (SegmentIo δ) α) :
    Keeps (SegmentsOnly w₀) (onTarget t x : WriterOp δ κ α) := by
  intro w hw
  rw [onTarget]
  split
  · exact hw
  · refine (hw.trans ?_).trans rfl
    rw [setTarget]
    split <;> rfl

theorem dropFullyDeletedSegments_only (w : IndexWriter δ κ) (committed flushed : List Bool) :
    SegmentsOnly w (w.dropFullyDeletedSegments cfg committed flushed) := by
  rw [dropFullyDeletedSegments]
  split <;> rfl

theorem only_editInvariant : EditInvariant fx cfg (SegmentsOnly w₀) where
  pending _ _ _ _ hw := hw.trans rfl
  applyDeletes _ _ := onTarget_only _ _
  writeUpdates _ _ := onTarget_only _ _
  dropFullyDeleted w _ _ hw := hw.trans (dropFullyDeletedSegments_only w _ _)

theorem writePendingTryChanges_only : Keeps (SegmentsOnly w₀) (writePendingTryChanges fx cfg) :=
  only_editInvariant.writePending_keeps

theorem tryDeleteResolved_only (reader : List (Segment δ)) (docId : Int) :
    Keeps (SegmentsOnly w₀) (tryDeleteResolved fx cfg reader docId) :=
  only_editInvariant.tryDeleteResolved_keeps _ _

theorem tryUpdateResolved_only (reader : List (Segment δ)) (docId : Int)
    (updates : List DocValuesUpdate) :
    Keeps (SegmentsOnly w₀) (tryUpdateResolved fx cfg reader docId updates) :=
  only_editInvariant.tryUpdateResolved_keeps _ _ _

end

/-- The two states agree on the trace, the counter, the prepared commit and the
packets that wait. -/
structure SameCore (w w' : IndexWriter δ κ) : Prop where
  trace : w'.trace = w.trace
  counter : w'.segmentInfos.counter = w.segmentInfos.counter
  preparedCommit : w'.preparedCommit = w.preparedCommit
  updatesStream : w'.updatesStream = w.updatesStream

theorem SegmentsOnly.core {w w' : IndexWriter δ κ} (h : SegmentsOnly w w') : SameCore w w' :=
  ⟨congrArg (·.trace) h, congrArg (·.segmentInfos.counter) h, congrArg (·.preparedCommit) h,
    congrArg (·.updatesStream) h⟩

/-- A program that is refused while a commit is prepared. -/
theorem keeps_unlessPrepared {I : IndexWriter δ κ → Prop} {x : WriterOp δ κ α} {e : WriterError}
    (hI : ∀ w, I w → w.preparedCommit = none → I (x w).2) :
    Keeps I (do if (← Op.get (·.preparedCommit.isSome)) then Op.throw e else x) := by
  refine keeps_get_bind fun w hw => ?_
  cases hp : w.preparedCommit with
  | none => exact hI w hw hp
  | some infos => exact hw

/-- The same, where the program ends with less. -/
theorem ends_unlessPrepared {I J : IndexWriter δ κ → Prop} {Q : IndexWriter δ κ → α → Prop}
    {x : WriterOp δ κ α} {e : WriterError}
    (hx : Ends (fun w => I w ∧ w.preparedCommit = none) x Q J) (hJ : ∀ w, I w → J w) :
    Ends I (do if (← Op.get (·.preparedCommit.isSome)) then Op.throw e else x) Q J := by
  refine ends_get_bind fun w hw => ?_
  cases hp : w.preparedCommit with
  | none => exact ends_conseq hx (fun w' hw' => hw' ▸ ⟨hw, hp⟩) (fun _ _ h => h) fun _ h => h
  | some infos => exact ends_throw fun w' hw' => hw' ▸ hJ w hw

variable [DecidableEq κ] {fx : WriterFaults} {cfg : WriterConfig δ κ}
  {I J : IndexWriter δ κ → Prop}

theorem unnumbered_keeps {x : WriterOp δ κ α} (hx : Keeps I x) : Keeps I (unnumbered x) :=
  keeps_bind hx fun _ => keeps_pure

theorem withNumber_keeps {x : WriterOp δ κ Nat} (hx : Keeps I x) : Keeps I (withNumber x) :=
  keeps_bind hx fun _ => keeps_pure

theorem nextSeqNo_keeps (hcore : ∀ w w', SameCore w w' → I w → I w') :
    Keeps I (nextSeqNo : WriterOp δ κ Nat) := by
  refine keeps_bind keeps_get fun _ => keeps_bind (keeps_modify fun w hw => ?_) fun _ => keeps_pure
  exact hcore w _ ⟨rfl, rfl, rfl, rfl⟩ hw

theorem numbered_keeps (hcore : ∀ w w', SameCore w w' → I w → I w') (done : Bool) :
    Keeps I (numbered done : WriterOp δ κ (Option Nat)) := by
  refine keeps_ite (fun _ => keeps_bind keeps_get fun _ => ?_) fun _ => keeps_pure
  refine keeps_bind (keeps_modify fun w hw => ?_) fun _ => keeps_pure
  exact hcore w _ ⟨rfl, rfl, rfl, rfl⟩ hw

theorem deleteTermFrom_keeps (hcore : ∀ w w', SameCore w w' → I w → I w') (term : Term)
    (sources : List String) (segments : List (Segment δ)) :
    Keeps I (deleteTermFrom fx cfg term sources segments) := by
  induction segments with
  | nil => exact keeps_pure
  | cons s segments ih =>
    refine keeps_bind (keeps_ite (fun _ => ?_) fun _ => keeps_pure) fun _ => ?_
    · refine keeps_bind (fun w hw => ?_) fun _ => keeps_lift
      exact hcore w _ ⟨rfl, rfl, rfl, rfl⟩ hw
    · exact keeps_bind ih fun _ => keeps_pure

omit [DecidableEq κ] in
theorem withMergesByCaller_keeps (hcore : ∀ w w', SameCore w w' → I w → I w')
    {x : WriterOp δ κ Unit} (hx : Keeps I x) : Keeps I (withMergesByCaller x) := by
  refine keeps_bind keeps_get fun _ => keeps_bind (keeps_modify fun w hw => ?_) fun _ => ?_
  · exact hcore w _ ⟨rfl, rfl, rfl, rfl⟩ hw
  refine keeps_bind (keeps_attempt hx) fun _ => keeps_bind (keeps_modify fun w hw => ?_) fun _ => ?_
  · exact hcore w _ ⟨rfl, rfl, rfl, rfl⟩ hw
  · exact keeps_ofExcept

/-! ## Merges -/

/-- An invariant that depends on the core, and that a commit of a merge
keeps. -/
structure CommitInvariant (fx : WriterFaults) (I : IndexWriter δ κ → Prop) : Prop where
  core : ∀ w w', SameCore w w' → I w → I w'
  entered : ∀ w, I w → I (w.record (.mergeEntered w.updatesStream.any))
  commitSegments : ∀ segments w, I w → w.preparedCommit = none → I (commitSegments fx segments w).2

/-- An invariant that a new name keeps, too. -/
structure MergeInvariant (fx : WriterFaults) (I : IndexWriter δ κ → Prop) : Prop
    extends CommitInvariant fx I where
  newSegmentName : Keeps I newSegmentName

namespace CommitInvariant

variable (h : CommitInvariant fx I)

include h

theorem ioCall_keeps : Keeps I (ioCall fx : WriterOp δ κ Unit) :=
  fun w hw => h.core w _ ⟨rfl, rfl, rfl, rfl⟩ hw

theorem modify_keeps {g : IndexWriter δ κ → IndexWriter δ κ} (hg : ∀ w, SameCore w (g w)) :
    Keeps I (Op.modify g : WriterOp δ κ Unit) :=
  keeps_modify fun w hw => h.core w _ (hg w) hw

theorem writePending_keeps : Keeps I (writePendingTryChanges fx cfg) :=
  keeps_of_only (fun _ => writePendingTryChanges_only) fun w w' h' hw => h.core w w' h'.core hw

theorem commitMerge_keeps (caller : String) (names : List String) (merged : Option (Segment δ)) :
    Keeps I (commitMerge fx caller names merged : WriterOp δ κ Unit) := by
  refine keeps_unlessPrepared fun w hw hp => ?_
  refine Ends.state (P := fun w => I w ∧ w.preparedCommit = none) ?_ ⟨hw, hp⟩
  refine ends_bind (Q := fun w _ => I w ∧ w.preparedCommit = none)
    (ends_modify fun w hw => ⟨h.entered w hw.1, hw.2⟩) fun _ => ?_
  refine ends_get_bind fun w hw => ends_ite (fun _ => ?_) fun _ => ?_
  · refine ends_conseq (Keeps.ends (I := I) ?_) (fun w' hw' => hw' ▸ hw.1) (fun _ _ h => h)
      fun _ h => h
    exact keeps_bind (h.modify_keeps fun _ => ⟨rfl, rfl, rfl, rfl⟩) fun _ =>
      h.ioCall_keeps
  · refine ends_conseq (ends_get_bind (P := fun t => t = w) ?_) (fun w' hw' => hw')
      (fun _ _ h => h) fun _ h => h
    rintro w' rfl
    exact ends_of_state (h.commitSegments _ w' hw.1 hw.2)

theorem applyMerge_keeps (names : List String) (merged : Segment δ) :
    Keeps I (applyMerge fx cfg names merged) :=
  keeps_bind h.writePending_keeps fun _ => h.commitMerge_keeps _ _ _

theorem dropMerge_keeps (names : List String) : Keeps I (dropMerge fx cfg names) :=
  keeps_bind h.writePending_keeps fun _ => h.commitMerge_keeps _ _ _

theorem releaseFiles_keeps (files : List String) :
    Keeps I (releaseFiles fx files : WriterOp δ κ Unit) :=
  keeps_bind (h.modify_keeps fun _ => ⟨rfl, rfl, rfl, rfl⟩) fun _ => h.ioCall_keeps

theorem abortMerge_keeps (plan : MergePlan δ) : Keeps I (abortMerge fx cfg plan) :=
  keeps_bind h.writePending_keeps fun _ => h.releaseFiles_keeps _

theorem carriedDeletes_keeps (sources : List (Segment δ)) (maps : List (List Int))
    (sourceLive : List (List Bool)) :
    Keeps I (carriedDeletes fx sources maps sourceLive : WriterOp δ κ (Option (List Nat))) := by
  induction sources generalizing maps sourceLive with
  | nil => exact keeps_pure
  | cons snapshot sources ih =>
    refine keeps_bind keeps_get fun current => ?_
    split
    · exact keeps_pure
    · refine keeps_bind (keeps_ite (fun _ => keeps_pure) fun _ => ?_) fun _ =>
        keeps_bind (ih _ _) fun _ => keeps_pure
      exact keeps_bind h.ioCall_keeps fun _ => keeps_pure

theorem finishMergeHolding_keeps (plan : MergePlan δ) (outcome : MergeOutcome δ) :
    Keeps I (finishMergeHolding fx cfg plan outcome) := by
  cases outcome with
  | allDeleted => exact keeps_bind (h.dropMerge_keeps _) fun _ => keeps_pure
  | merged merged sourceLive =>
    refine keeps_bind h.ioCall_keeps fun _ => keeps_bind (h.carriedDeletes_keeps _ _ _) fun r => ?_
    cases r with
    | none => exact keeps_bind h.ioCall_keeps fun _ => keeps_pure
    | some carried =>
      refine keeps_bind (keeps_ite (fun _ => keeps_pure) fun _ => ?_) fun _ =>
        keeps_bind (h.applyMerge_keeps _ _) fun _ => keeps_pure
      exact keeps_bind keeps_lift fun _ => keeps_bind h.ioCall_keeps fun _ => keeps_pure

theorem finishMerge_keeps (plan : MergePlan δ) (outcome : MergeOutcome δ) :
    Keeps I (finishMerge fx cfg plan outcome) := by
  refine keeps_bind h.writePending_keeps fun _ => ?_
  refine keeps_bind (keeps_attempt (h.finishMergeHolding_keeps _ _)) fun _ => ?_
  refine keeps_bind (keeps_attempt (h.releaseFiles_keeps _)) fun _ => ?_
  exact keeps_bind keeps_ofExcept fun _ => keeps_bind keeps_ofExcept fun _ => keeps_pure

end CommitInvariant

namespace MergeInvariant

variable (h : MergeInvariant fx I)

include h

theorem beginMerge_keeps (names : List String) : Keeps I (beginMerge fx cfg names) := by
  refine keeps_bind h.writePending_keeps fun _ => keeps_bind (keeps_modify h.entered) fun _ => ?_
  refine keeps_bind h.newSegmentName fun _ => keeps_bind keeps_get fun _ => ?_
  refine keeps_bind keeps_lift fun _ => keeps_bind h.ioCall_keeps fun _ => ?_
  refine keeps_bind (h.modify_keeps fun _ => ⟨rfl, rfl, rfl, rfl⟩) fun _ => ?_
  exact keeps_pure

theorem executeMerge_keeps (names : List String) : Keeps I (executeMerge fx cfg names) := by
  refine keeps_bind h.writePending_keeps fun _ => keeps_bind (h.beginMerge_keeps _) fun plan => ?_
  refine keeps_bind (keeps_attempt h.ioCall_keeps) fun result => ?_
  cases result with
  | ok u => exact h.finishMerge_keeps _ _
  | error e => exact keeps_bind (keeps_attempt (h.abortMerge_keeps _)) fun _ => keeps_throw

theorem runMerges_keeps (groups : List (List String)) : Keeps I (runMerges fx cfg groups) := by
  refine keeps_bind (keeps_forM fun names _ => ?_) fun _ => h.ioCall_keeps
  exact keeps_bind h.ioCall_keeps fun _ => keeps_bind (h.executeMerge_keeps _) fun _ => keeps_pure

theorem mergeOnFullFlush_keeps (merges : Option (List (List String))) :
    Keeps I (mergeOnFullFlush fx cfg merges) := by
  refine keeps_bind h.writePending_keeps fun _ => ?_
  cases merges with
  | none => exact keeps_pure
  | some groups =>
    refine keeps_bind (h.modify_keeps fun _ => ⟨rfl, rfl, rfl, rfl⟩) fun _ => ?_
    refine keeps_bind h.ioCall_keeps fun _ => withMergesByCaller_keeps h.core ?_
    refine keeps_forM fun _ _ => ?_
    exact keeps_bind (h.executeMerge_keeps _) fun _ => keeps_pure

theorem copySegments_keeps (sources : List (Segment δ)) :
    Keeps I (copySegments fx sources : WriterOp δ κ (List (Segment δ))) := by
  induction sources with
  | nil => exact keeps_pure
  | cons s sources ih =>
    refine keeps_bind h.newSegmentName fun _ => keeps_bind h.ioCall_keeps fun _ => ?_
    exact keeps_bind ih fun _ => keeps_pure

theorem withdrawCopies_keeps (names : List String) :
    Keeps I (withdrawCopies fx names : WriterOp δ κ Unit) :=
  keeps_bind (h.modify_keeps fun _ => ⟨rfl, rfl, rfl, rfl⟩) fun _ => h.ioCall_keeps

end MergeInvariant

/-! ## Adds and deletes -/

/-- An invariant `I` of the operations that may flush.  A flush that fails ends
with `J`. -/
structure AddInvariant (fx : WriterFaults) (cfg : WriterConfig δ κ) (I J : IndexWriter δ κ → Prop) :
    Prop where
  weaken : ∀ w, I w → J w
  ioCall : Keeps I (ioCall fx)
  writePending : Keeps I (writePendingTryChanges fx cfg)
  buffers : ∀ w docs bytes queue, I w →
    I { w with pendingDocs := docs, ramBytesUsed := bytes, deleteQueue := queue }
  maybeFlush : Ends I (maybeFlush fx cfg) (fun w _ => I w) J
  maybeApplyDeletes : Ends I (maybeApplyDeletes fx cfg) (fun w _ => I w) J

namespace AddInvariant

variable (h : AddInvariant fx cfg I J)

include h

/-- An invariant in front of an operation that may flush. -/
theorem ends_of_keeps {x : WriterOp δ κ α} (hx : Keeps I x) : Ends I x (fun w _ => I w) J :=
  ends_conseq hx.ends (fun _ hw => hw) (fun _ _ hw => hw) h.weaken

theorem bufferDocuments_ends (docs : List (Document δ)) :
    Ends I (Op.modify (bufferDocuments cfg docs) : WriterOp δ κ Unit) (fun w _ => I w) J :=
  ends_modify fun w hw => h.buffers w _ _ w.deleteQueue hw

theorem setQueue_ends (f : IndexWriter δ κ → DeleteQueue κ) :
    Ends I (Op.modify fun w => { w with deleteQueue := f w } : WriterOp δ κ Unit)
      (fun w _ => I w) J :=
  ends_modify fun w hw => h.buffers w w.pendingDocs w.ramBytesUsed (f w) hw

theorem reserveDocs_keeps (n : Nat) : Keeps I (reserveDocs fx cfg n) := by
  refine keeps_bind h.writePending fun _ => keeps_bind h.writePending fun _ => ?_
  refine keeps_bind h.ioCall fun _ => keeps_bind keeps_get fun w => ?_
  exact keeps_ite (fun _ => keeps_throw) fun _ => keeps_pure

theorem addDocumentsWithDelete_ends (delete : Option (DeleteNode κ)) (docs : List δ) :
    Ends I (addDocumentsWithDelete fx cfg delete docs) (fun w _ => I w) J := by
  refine ends_ite (fun _ => h.ends_of_keeps keeps_throw) fun _ => ?_
  refine ends_bind (h.ends_of_keeps (h.reserveDocs_keeps _)) fun _ => ?_
  refine ends_bind (h.ends_of_keeps keeps_get) fun _ => ends_bind (h.ends_of_keeps keeps_get) fun _ => ?_
  refine ends_bind (h.ends_of_keeps (keeps_modify fun w hw => ?_)) fun _ => ?_
  · cases delete with
    | none => exact h.buffers w w.pendingDocs w.ramBytesUsed _ hw
    | some node => exact h.buffers w w.pendingDocs w.ramBytesUsed _ hw
  refine ends_bind (h.bufferDocuments_ends _) fun _ => ?_
  refine ends_bind (h.ends_of_keeps (keeps_when fun _ => ?_)) fun _ => ?_
  · exact keeps_bind h.writePending fun _ => h.ioCall
  · exact ends_bind h.maybeFlush fun _ => ends_pure fun _ hw => hw

theorem addDocument_ends (doc : δ) : Ends I (addDocument fx cfg doc) (fun w _ => I w) J := by
  refine ends_bind (h.ends_of_keeps h.writePending) fun _ => ?_
  refine ends_bind (h.ends_of_keeps (h.reserveDocs_keeps _)) fun _ => ?_
  refine ends_bind (h.ends_of_keeps keeps_get) fun _ => ?_
  refine ends_bind (h.setQueue_ends _) fun _ => ?_
  refine ends_bind (h.bufferDocuments_ends _) fun _ => ?_
  refine ends_bind (h.ends_of_keeps h.writePending) fun _ => ?_
  refine ends_bind (h.ends_of_keeps h.ioCall) fun _ => ?_
  exact ends_bind h.maybeFlush fun _ => ends_pure fun _ hw => hw

theorem bufferDelete_ends (node : DeleteNode κ) :
    Ends I (bufferDelete fx cfg node) (fun w _ => I w) J := by
  refine ends_bind (h.ends_of_keeps keeps_get) fun _ => ends_bind (h.ends_of_keeps keeps_get) fun _ => ?_
  refine ends_bind (h.ends_of_keeps (keeps_modify fun w hw => ?_)) fun _ => ?_
  · exact h.buffers w w.pendingDocs w.ramBytesUsed _ hw
  exact ends_bind h.maybeApplyDeletes fun _ => ends_pure fun _ hw => hw

theorem softUpdateDocuments_ends (term : Term) (docs : List δ)
    (softDeletes : List DocValuesUpdate) :
    Ends I (softUpdateDocuments fx cfg term docs softDeletes) (fun w _ => I w) J := by
  refine ends_bind (h.ends_of_keeps h.writePending) fun _ => ?_
  refine ends_ite (fun _ => h.ends_of_keeps keeps_throw) fun _ => ?_
  refine ends_bind (h.ends_of_keeps keeps_lift) fun _ => ?_
  exact h.addDocumentsWithDelete_ends _ _

theorem updateDocValues_ends (term : Term) (updates : List DocValuesUpdate) :
    Ends I (updateDocValues fx cfg term updates) (fun w _ => I w) J := by
  refine ends_bind (h.ends_of_keeps h.writePending) fun _ => ?_
  refine ends_ite (fun _ => h.ends_of_keeps keeps_throw) fun _ => ?_
  refine ends_bind (h.ends_of_keeps (keeps_forM fun _ _ => keeps_lift)) fun _ => ?_
  exact h.bufferDelete_ends _

end AddInvariant

end LuceneRust.Index.IndexWriter
