import LuceneRust.Index.Writer.Frames

/-!
# The names of segments

A name is handed out by counting up, and the counter is a part of the
`SegmentInfos`, which `finishCommit` puts back to what it was when the commit
was prepared.

* `Named` is the invariant: all the names that were handed out are below the
  counter, and below the one of the prepared commit.
* `run_below`: every call keeps it, but for one that takes a name while a commit
  is prepared: a merge that is begun, or a concurrent writer's buffer.
-/

namespace LuceneRust.Index

namespace IndexWriter

open RustSem
open StateHoare

variable {δ κ α : Type}

/-- The numbers of the names that were handed out. -/
def handedOut (trace : List (WriterEvent δ)) : List Nat :=
  trace.filterMap fun
    | .named n => some n
    | _ => none

/-- Two events of a run in their order: numbers go up, and the counter of a
commit is above all the numbers in front of it. -/
def Ascends : WriterEvent δ → WriterEvent δ → Prop
  | .named m, .named n => m < n
  | .named m, .published infos => m < infos.counter
  | _, _ => True

/-- The names that were handed out, against the counters. -/
structure Named (prepared : Option (WriterInfos δ)) (w : IndexWriter δ κ) : Prop where
  preparedCommit : w.preparedCommit = prepared
  ascends : w.trace.Pairwise Ascends
  small : ∀ n ∈ handedOut w.trace, n < 2 ^ 63
  counter : ∀ n ∈ handedOut w.trace, n < w.segmentInfos.counter
  prepared : ∀ infos, prepared = some infos → ∀ n ∈ handedOut w.trace, n < infos.counter

variable {p : Option (WriterInfos δ)} {w w' : IndexWriter δ κ}

theorem mem_handedOut {trace : List (WriterEvent δ)} {n : Nat} :
    n ∈ handedOut trace ↔ .named n ∈ trace := by
  rw [handedOut, List.mem_filterMap]
  constructor
  · rintro ⟨e, he, hn⟩
    cases e with
    | named m =>
      obtain rfl : m = n := Option.some_inj.1 hn
      exact he
    | published infos => cases hn
    | mergeEntered b => cases hn
  · intro he
    exact ⟨_, he, rfl⟩

theorem handedOut_append (t t' : List (WriterEvent δ)) :
    handedOut (t ++ t') = handedOut t ++ handedOut t' := List.filterMap_append

namespace Named

theorem of_eq (hw : Named p w) (ht : w'.trace = w.trace)
    (hc : w.segmentInfos.counter ≤ w'.segmentInfos.counter)
    (hp : w'.preparedCommit = w.preparedCommit) : Named p w' where
  preparedCommit := hp.trans hw.preparedCommit
  ascends := ht ▸ hw.ascends
  small := ht ▸ hw.small
  counter n hn := (hw.counter n (ht ▸ hn)).trans_le hc
  prepared infos h n hn := hw.prepared infos h n (ht ▸ hn)

theorem of_only (h : SegmentsOnly w w') (hw : Named p w) : Named p w' :=
  hw.of_eq (congrArg (·.trace) h) (congrArg (·.segmentInfos.counter) h).ge
    (congrArg (·.preparedCommit) h)

theorem of_core (h : SameCore w w') (hw : Named p w) : Named p w' :=
  hw.of_eq h.trace h.counter.ge h.preparedCommit

theorem mapCommitted (hw : Named p w) (f : List (Segment δ) → List (Segment δ)) :
    Named p (w.mapCommitted f) := hw.of_eq rfl le_rfl rfl

theorem pushPacket (hw : Named p w) (packet : Option (FrozenBufferedUpdates κ)) :
    Named p (w.pushPacket packet) := by
  cases packet with
  | none => exact hw
  | some packet => exact hw.of_eq rfl le_rfl rfl

/-- An event that is no name, and not a commit with a counter that is too
low. -/
theorem record (hw : Named p w) {e : WriterEvent δ} (hnamed : handedOut [e] = [])
    (hpub : ∀ infos, e = .published infos → ∀ n ∈ handedOut w.trace, n < infos.counter) :
    Named p (w.record e) := by
  have hout : handedOut (w.record e).trace = handedOut w.trace := by
    rw [IndexWriter.record, handedOut_append, hnamed, List.append_nil]
  refine ⟨hw.preparedCommit, ?_, hout ▸ hw.small, hout ▸ hw.counter, hout ▸ hw.prepared⟩
  rw [IndexWriter.record, List.pairwise_append]
  refine ⟨hw.ascends, List.pairwise_singleton _ _, fun a ha b hb => ?_⟩
  obtain rfl := List.mem_singleton.1 hb
  cases b with
  | named n => cases hnamed
  | mergeEntered b => cases a <;> trivial
  | published infos =>
    cases a with
    | named n => exact hpub infos rfl n (mem_handedOut.2 ha)
    | published infos' => trivial
    | mergeEntered b => trivial

/-- The next name. -/
theorem newName (hw : Named none w) (hlt : w.segmentInfos.counter + 1 < 2 ^ 63) :
    Named none
      (IndexWriter.record (.named w.segmentInfos.counter)
        { w with
          segmentInfos := { w.segmentInfos with counter := w.segmentInfos.counter + 1 } }) where
  preparedCommit := hw.preparedCommit
  ascends := by
    rw [IndexWriter.record, List.pairwise_append]
    refine ⟨hw.ascends, List.pairwise_singleton _ _, fun a ha b hb => ?_⟩
    obtain rfl := List.mem_singleton.1 hb
    cases a with
    | named n => exact hw.counter n (mem_handedOut.2 ha)
    | published infos => trivial
    | mergeEntered b => trivial
  small n hn := by
    rw [IndexWriter.record, handedOut_append, List.mem_append] at hn
    rcases hn with hn | hn
    · exact hw.small n hn
    · obtain rfl : n = w.segmentInfos.counter := List.mem_singleton.1 hn
      omega
  counter n hn := by
    rw [IndexWriter.record, handedOut_append, List.mem_append] at hn
    change n < w.segmentInfos.counter + 1
    rcases hn with hn | hn
    · exact (hw.counter n hn).trans (Nat.lt_succ_self _)
    · obtain rfl : n = w.segmentInfos.counter := List.mem_singleton.1 hn
      exact Nat.lt_succ_self _
  prepared _ h := by cases h

end Named

variable {fx : WriterFaults} {cfg : WriterConfig δ κ}

theorem ioCall_named : Keeps (Named p) (ioCall fx : WriterOp δ κ Unit) :=
  fun _ hw => hw.of_eq rfl le_rfl rfl

theorem newSegmentName_named : Keeps (Named none) (newSegmentName : WriterOp δ κ String) := by
  refine keeps_get_bind fun w hw => ?_
  by_cases hlt : w.segmentInfos.counter + 1 < 2 ^ 63
  · rw [guardOk_pos hlt]
    exact hw.newName hlt
  · rw [Outcome.guardOk, if_neg hlt]
    exact hw

theorem writePending_named : Keeps (Named p) (writePendingTryChanges fx cfg) :=
  keeps_of_only (fun _ => writePendingTryChanges_only) fun _ _ h hw => hw.of_only h

/-- The invariant, where nothing is prepared. -/
theorem named_of_none {x : WriterOp δ κ α} (hx : Keeps (Named none) x) (w : IndexWriter δ κ)
    (hw : Named p w) (hp : w.preparedCommit = none) : Named p (x w).2 := by
  obtain rfl : p = none := hw.preparedCommit.symm.trans hp
  exact hx w hw

/-! ## Flushes -/

variable [DecidableEq κ]

theorem applyStreamPackets_named : Keeps (Named p) (applyStreamPackets fx cfg) := by
  refine keeps_bind keeps_get fun w₀ => keeps_ite (fun _ => keeps_pure) fun _ => ?_
  refine keeps_bind (keeps_modify fun w hw => hw.of_eq rfl le_rfl rfl) fun _ => ?_
  refine keeps_bind (keeps_attempt keeps_lift) fun result => ?_
  cases result with
  | ok flags =>
    exact keeps_modify fun w hw => hw.of_only (dropFullyDeletedSegments_only w _ _)
  | error e =>
    exact keeps_bind (keeps_modify fun w hw => hw.of_eq rfl le_rfl rfl) fun _ => keeps_throw

theorem applyAll_named : Keeps (Named p) (applyAllDeletesAndUpdates fx cfg) := by
  refine keeps_bind (keeps_modify fun w hw => ?_) fun _ => applyStreamPackets_named
  have hfrozen : Named p w.freezeGlobalBuffer := hw.of_eq rfl le_rfl rfl
  exact hfrozen.pushPacket _

theorem applyDeletesNow_named : Keeps (Named p) (applyDeletesNow fx cfg) :=
  keeps_bind ioCall_named fun _ => keeps_bind applyAll_named fun _ => ioCall_named

omit [DecidableEq κ] in
theorem beginDeletesTicket_named :
    Keeps (Named p) (beginDeletesTicket : WriterOp δ κ (Option (FrozenBufferedUpdates κ))) :=
  keeps_bind keeps_get fun _ =>
    keeps_bind (keeps_modify fun _ hw => hw.of_eq rfl le_rfl rfl) fun _ => keeps_pure

theorem applyPendingPackets_named : Keeps (Named p) (applyPendingPackets fx cfg) :=
  keeps_bind writePending_named fun _ => keeps_bind applyStreamPackets_named fun _ => ioCall_named

theorem publishDeletesTicket_named (packet : Option (FrozenBufferedUpdates κ)) :
    Keeps (Named p) (publishDeletesTicket fx cfg packet) :=
  keeps_bind writePending_named fun _ =>
    keeps_bind (keeps_modify fun _ hw => hw.pushPacket _) fun _ => applyPendingPackets_named

theorem publishSegmentWith_named (ticket : SegmentTicket κ) (sci : Segment δ)
    (packet : Option (FrozenBufferedUpdates κ)) (sortMap : Option (List Nat))
    (freezeGlobal : Bool) :
    Keeps (Named p) (publishSegmentWith fx cfg ticket sci packet sortMap freezeGlobal) := by
  refine keeps_bind writePending_named fun _ => ?_
  refine keeps_bind (keeps_modify fun w hw => hw.pushPacket _) fun _ => ?_
  refine keeps_bind (keeps_modify fun w hw => ?_) fun _ => ?_
  · cases sortMap with
    | none => exact hw
    | some map => exact hw.of_eq rfl le_rfl rfl
  refine keeps_bind (keeps_modify fun w hw => hw.of_eq rfl le_rfl rfl) fun _ => ?_
  refine keeps_bind ioCall_named fun _ => keeps_bind ?_ fun _ => ?_
  · exact keeps_ite (fun _ => applyAll_named) fun _ => applyStreamPackets_named
  · exact keeps_bind (keeps_modify fun w hw => hw.of_eq rfl le_rfl rfl) fun _ => ioCall_named

theorem dropFullyDeletedFlushed_named (name : String) :
    Keeps (Named p) (dropFullyDeletedFlushed fx cfg name) :=
  keeps_bind writePending_named fun _ =>
    keeps_bind (keeps_modify fun w hw => hw.of_only (dropFullyDeletedSegments_only w _ _))
      fun _ => ioCall_named

theorem flushDeletes_named : Keeps (Named p) (flushDeletes fx cfg) :=
  keeps_bind applyAll_named fun _ =>
    keeps_bind (keeps_modify fun _ hw => hw.of_eq rfl le_rfl rfl) fun _ => ioCall_named

theorem sortPendingBuffer_named : Keeps (Named p) (sortPendingBuffer fx cfg) := by
  refine keeps_bind ioCall_named fun _ => keeps_bind keeps_get fun docs => ?_
  cases cfg.sortPermutation (docs.map (·.content)) with
  | none => exact keeps_pure
  | some map =>
    exact keeps_bind (keeps_modify fun _ hw => hw.of_eq rfl le_rfl rfl) fun _ => keeps_pure

theorem flushDocuments_named : Keeps (Named none) (flushDocuments fx cfg) := by
  refine keeps_bind sortPendingBuffer_named fun sortMap => ?_
  refine keeps_bind ?_ fun ticket => ?_
  · exact keeps_bind beginDeletesTicket_named fun _ =>
      keeps_bind newSegmentName_named fun _ => keeps_pure
  refine keeps_bind (keeps_attempt ioCall_named) fun result => ?_
  cases result with
  | error e =>
    refine keeps_bind (keeps_modify fun w hw => ?_) fun _ => ?_
    · refine Named.pushPacket ?_ _
      cases sortMap with
      | none => exact hw
      | some map => exact hw.of_eq rfl le_rfl rfl
    · exact keeps_bind (keeps_attempt ioCall_named) fun _ => keeps_throw
  | ok u =>
    refine keeps_bind keeps_get fun _ => keeps_bind keeps_get fun _ => ?_
    refine keeps_bind (keeps_modify fun _ hw => hw.of_eq rfl le_rfl rfl) fun _ => ?_
    exact keeps_bind writePending_named fun _ => publishSegmentWith_named _ _ _ _ _

theorem flush_named : Keeps (Named p) (flush fx cfg) := by
  refine keeps_bind writePending_named fun _ => keeps_unlessPrepared (named_of_none ?_)
  refine keeps_bind ioCall_named fun _ => keeps_bind ioCall_named fun _ => ?_
  refine keeps_bind keeps_get fun empty => ?_
  exact keeps_ite (fun _ => flushDeletes_named) fun _ => flushDocuments_named

theorem maybeFlush_named : Keeps (Named p) (maybeFlush fx cfg) := by
  refine keeps_bind keeps_get fun w => keeps_ite (fun _ => keeps_pure) fun _ => ?_
  refine keeps_ite (fun _ => flush_named) fun _ => ?_
  refine keeps_ite (fun _ => applyDeletesNow_named) fun _ => ?_
  refine keeps_ite (fun _ => flush_named) fun _ => ?_
  exact keeps_ite (fun _ => flush_named) fun _ => keeps_pure

theorem maybeApplyDeletes_named : Keeps (Named p) (maybeApplyDeletes fx cfg) := by
  refine keeps_bind keeps_get fun w => keeps_ite (fun _ => keeps_pure) fun _ => ?_
  exact keeps_when fun _ => applyDeletesNow_named

/-! ## Adds and deletes -/

theorem named_addInvariant : AddInvariant fx cfg (Named p) (Named p) where
  ioCall := ioCall_named
  writePending := writePending_named
  buffers _ _ _ _ hw := hw.of_eq rfl le_rfl rfl
  weaken _ hw := hw
  maybeFlush := maybeFlush_named.ends
  maybeApplyDeletes := maybeApplyDeletes_named.ends

theorem deleteAll_named : Keeps (Named p) (deleteAll fx : WriterOp δ κ Unit) := by
  refine keeps_unlessPrepared (named_of_none ?_)
  refine keeps_bind (keeps_modify fun w hw => hw.of_eq rfl le_rfl rfl) fun _ => ?_
  exact keeps_bind ioCall_named fun _ => ioCall_named

theorem deleteDocumentsByQuery_named (queries : List κ) :
    Keeps (Named p) (deleteDocumentsByQuery fx cfg queries) := by
  refine keeps_bind writePending_named fun _ => keeps_ite (fun _ => ?_) fun _ => ?_
  · refine keeps_bind keeps_get fun _ => ?_
    refine keeps_bind (keeps_modify fun w hw => hw.of_eq rfl le_rfl rfl) fun _ => ?_
    exact keeps_bind deleteAll_named fun _ => keeps_pure
  · exact (named_addInvariant.bufferDelete_ends _).keeps

/-! ## Merges -/

/-- The counter of the commit, and the names that were handed out in front of
it. -/
theorem commitSegments_named (segments : List (Segment δ)) :
    Keeps (Named none) (commitSegments fx segments : WriterOp δ κ Unit) := by
  intro w₀ hw₀
  -- the counter does not move while the commit is written
  have hrun : Keeps (fun w : IndexWriter δ κ => Named none w
      ∧ w.segmentInfos.counter = w₀.segmentInfos.counter)
      (commitSegments fx segments : WriterOp δ κ Unit) := by
    have hio : Keeps (fun w : IndexWriter δ κ => Named none w
        ∧ w.segmentInfos.counter = w₀.segmentInfos.counter)
        (ioCall fx : WriterOp δ κ Unit) := fun w hw => ⟨ioCall_named w hw.1, hw.2⟩
    refine keeps_get_bind fun w₁ hw₁ => ?_
    have hcounter : w₁.segmentInfos.counter = w₀.segmentInfos.counter := hw₁.2
    revert w₁
    intro w₁ hw₁ hcounter
    refine (keeps_bind hio fun _ => keeps_bind (keeps_attempt ?_) fun written => ?_) w₁ hw₁
    · refine keeps_bind hio fun _ => keeps_bind hio fun _ => ?_
      refine keeps_bind (keeps_modify fun w hw => ⟨?_, hw.2⟩) fun _ => hio
      refine hw.1.record rfl fun infos h n hn => ?_
      cases h
      change n < w₁.segmentInfos.counter
      rw [hcounter, ← hw.2]
      exact hw.1.counter n hn
    · refine keeps_bind (keeps_modify fun w hw => ⟨hw.1.of_eq rfl le_rfl rfl, hw.2⟩) fun _ => ?_
      refine keeps_bind keeps_ofExcept fun _ => ?_
      refine keeps_bind (keeps_modify fun w hw => ⟨hw.1.of_eq rfl ?_ rfl, hcounter⟩) fun _ =>
        keeps_bind hio fun _ => hio
      exact (hw.2.trans hcounter.symm).le
  exact (hrun w₀ ⟨hw₀, rfl⟩).1

theorem named_commitInvariant : CommitInvariant fx (Named p : IndexWriter δ κ → Prop) where
  core _ _ := Named.of_core
  entered _ hw := hw.record rfl fun _ h => by cases h
  commitSegments segments w hw hp := named_of_none (commitSegments_named segments) w hw hp

theorem named_mergeInvariant : MergeInvariant fx (Named none : IndexWriter δ κ → Prop) where
  toCommitInvariant := named_commitInvariant
  newSegmentName := newSegmentName_named

/-! ## Commits -/

/-- The invariant, whatever is prepared. -/
def NamesBelow (w : IndexWriter δ κ) : Prop := Named w.preparedCommit w

omit [DecidableEq κ] in
theorem Named.below (hw : Named p w) : NamesBelow w := by
  obtain rfl := hw.preparedCommit
  exact hw

omit [DecidableEq κ] in
/-- A program that keeps the invariant with what is prepared. -/
theorem keeps_below {x : WriterOp δ κ α} (hx : ∀ p, Keeps (Named p) x) : Keeps NamesBelow x :=
  fun w hw => (hx w.preparedCommit w hw).below

theorem prepareCommit_below (merges : Option (List (List String))) :
    Keeps NamesBelow (prepareCommit fx cfg merges) := by
  refine keeps_bind (keeps_below fun _ => writePending_named) fun _ => ?_
  refine keeps_bind (keeps_below fun _ => writePending_named) fun _ => ?_
  refine keeps_unlessPrepared fun w hw hp => ?_
  have hnone : Named none w := hp ▸ hw
  refine Ends.state (P := Named none) (R := NamesBelow) ?_ hnone
  have hbelow : ∀ w : IndexWriter δ κ, Named none w → NamesBelow w := fun _ h => h.below
  refine keeps_ends_bind (keeps_modify fun w hw => hw.of_eq rfl le_rfl rfl) hbelow fun _ => ?_
  refine keeps_ends_bind ioCall_named hbelow fun _ => ?_
  refine keeps_ends_bind flush_named hbelow fun _ => ?_
  refine keeps_ends_bind (named_mergeInvariant.mergeOnFullFlush_keeps merges) hbelow fun _ => ?_
  refine ends_get_bind fun w hw => ?_
  -- no name is handed out between the copy of the counter and the end
  generalize hinfos : nextInfos w = infos
  have hcounter : ∀ n ∈ handedOut w.trace, n < infos.counter := hinfos ▸ hw.counter
  refine ends_conseq (P := fun w' => Named none w' ∧ ∀ n ∈ handedOut w'.trace, n < infos.counter)
    ?_ (fun w' hw' => hw' ▸ ⟨hw, hcounter⟩) (fun _ _ h => h) fun _ h => h
  have hbelow' : ∀ w : IndexWriter δ κ,
      (Named none w ∧ ∀ n ∈ handedOut w.trace, n < infos.counter) → NamesBelow w :=
    fun _ h => h.1.below
  have hio : Keeps (fun w' => Named none w' ∧ ∀ n ∈ handedOut w'.trace, n < infos.counter)
      (ioCall fx : WriterOp δ κ Unit) := fun w' hw' => ⟨ioCall_named w' hw'.1, hw'.2⟩
  refine keeps_ends_bind hio hbelow' fun _ => keeps_ends_bind keeps_get hbelow' fun w' => ?_
  refine ends_ite (fun _ => ends_modify fun w hw => ?_) fun _ => ?_
  · have hnothing : Named none { w with preparedNothing := true } := hw.1.of_eq rfl le_rfl rfl
    exact hnothing.below
  refine keeps_ends_bind hio hbelow' fun _ => ?_
  refine keeps_ends_bind (keeps_attempt hio) hbelow' fun written => ?_
  refine keeps_ends_bind (keeps_modify fun w hw => ⟨hw.1.of_eq rfl le_rfl rfl, hw.2⟩) hbelow'
    fun _ => ?_
  refine keeps_ends_bind keeps_ofExcept hbelow' fun _ => ends_modify fun w hw => ?_
  exact ⟨rfl, hw.1.ascends, hw.1.small, hw.1.counter, fun infos' h => by cases h; exact hw.2⟩

theorem finishCommit_below (groups : List (List String)) :
    Keeps NamesBelow (finishCommit fx cfg groups) := by
  refine keeps_bind (keeps_below fun _ => writePending_named) fun _ => ?_
  refine keeps_get_bind fun w hw => ?_
  cases hp : w.preparedCommit with
  | none =>
    have hkeep : Keeps (Named none) (do
        let nothing ← Op.get (·.preparedNothing)
        Op.modify fun w => { w with preparedNothing := false }
        if nothing then pure () else Op.throw .noPreparedCommit : WriterOp δ κ Unit) := by
      refine keeps_bind keeps_get fun nothing => ?_
      refine keeps_bind (keeps_modify fun w hw => hw.of_eq rfl le_rfl rfl) fun _ => ?_
      exact keeps_ite (fun _ => keeps_pure) fun _ => keeps_throw
    exact (hkeep w (hp ▸ hw)).below
  | some infos =>
    have hsome : Named (some infos) w := hp ▸ hw
    refine Ends.state (P := Named (some infos)) (R := NamesBelow) ?_ hsome
    refine keeps_ends_bind ioCall_named (fun _ h => h.below) fun _ => ?_
    let J : IndexWriter δ κ → Prop := fun w =>
      Named none w ∧ ∀ n ∈ handedOut w.trace, n < infos.counter
    have hio : Keeps J (ioCall fx : WriterOp δ κ Unit) := fun w hw =>
      ⟨ioCall_named w hw.1, hw.2⟩
    have hpending : Keeps J (finishPending fx infos : WriterOp δ κ Unit) := by
      refine keeps_bind hio fun _ => keeps_bind (keeps_modify fun w hw => ⟨?_, ?_⟩) fun _ => hio
      · exact hw.1.record rfl fun infos' h => by cases h; exact hw.2
      · rw [record, handedOut_append, List.forall_mem_append]
        exact ⟨hw.2, fun n hn => by cases hn⟩
    refine ends_bind (Q := fun w _ => J w) (ends_modify fun w hw => ?_) fun _ => ?_
    · exact ⟨⟨rfl, hw.ascends, hw.small, hw.counter, fun _ h => by cases h⟩, hw.prepared _ rfl⟩
    refine keeps_ends_bind (keeps_attempt hpending) (fun _ h => h.1.below) fun result => ?_
    cases result with
    | error e =>
      refine ends_bind (Q := fun w _ => NamesBelow w) (ends_modify fun w hw => ?_) fun _ =>
        keeps_throw.ends
      exact ⟨rfl, hw.1.ascends, hw.1.small, hw.1.counter, fun _ h => by cases h; exact hw.2⟩
    | ok u =>
      refine ends_bind (Q := fun w _ => Named none w) (ends_modify fun w hw => ?_) fun _ => ?_
      · exact ⟨hw.1.preparedCommit, hw.1.ascends, hw.1.small, hw.2, fun _ h => by cases h⟩
      have hbelow : ∀ w : IndexWriter δ κ, Named none w → NamesBelow w := fun _ h => h.below
      refine keeps_ends_bind (keeps_bind ioCall_named fun _ => ioCall_named) hbelow fun _ => ?_
      refine keeps_ends_bind keeps_get hbelow fun _ => ?_
      refine ends_conseq (Keeps.ends ?_) (fun _ h => h) (fun w _ h => hbelow w h) hbelow
      exact keeps_when fun _ => named_mergeInvariant.runMerges_keeps groups

theorem commit_below (merges : Option (List (List String))) (groups : List (List String)) :
    Keeps NamesBelow (commit fx cfg merges groups) :=
  keeps_bind (keeps_below fun _ => writePending_named) fun _ =>
    keeps_bind (prepareCommit_below _) fun _ => finishCommit_below _

omit [DecidableEq κ] in
theorem rollbackState_below : Keeps NamesBelow (rollbackState fx : WriterOp δ κ Unit) := by
  refine keeps_bind (keeps_below fun _ => ioCall_named) fun _ => keeps_modify fun w hw => ?_
  exact ⟨rfl, hw.ascends, hw.small, hw.counter, fun _ h => by cases h⟩

omit [DecidableEq κ] in
theorem tryRollback_below : Keeps NamesBelow (tryRollback fx : WriterOp δ κ Unit) :=
  keeps_bind rollbackState_below fun _ =>
    keeps_bind (keeps_below fun _ => ioCall_named) fun _ => keeps_below fun _ => ioCall_named

omit [DecidableEq κ] in
theorem rollback_below : Keeps NamesBelow (rollback fx : WriterOp δ κ Unit) := by
  refine keeps_bind (keeps_attempt rollbackState_below) fun result => ?_
  cases result with
  | error e => exact keeps_pure
  | ok u =>
    refine keeps_bind (keeps_attempt (keeps_below fun _ => ioCall_named)) fun _ => ?_
    exact keeps_bind (keeps_attempt (keeps_below fun _ => ioCall_named)) fun _ => keeps_pure

/-! ## Other calls -/

/-- A flush does not get through while a commit is prepared. -/
theorem flush_named_none : Ends (Named p) (flush fx cfg) (fun w _ => Named none w) (Named p) := by
  cases p with
  | none => exact flush_named.ends
  | some infos =>
    refine ends_bind writePending_named.ends fun _ => ends_get_bind fun w hw => ?_
    rw [hw.preparedCommit]
    exact ends_throw fun w' hw' => hw' ▸ hw

theorem nrtSnapshot_below (merges : Option (List (List String))) :
    Keeps NamesBelow (nrtSnapshot fx cfg merges) := by
  intro w hw
  have hbelow : ∀ w : IndexWriter δ κ, Named none w → NamesBelow w := fun _ h => h.below
  refine Ends.state (P := Named w.preparedCommit) (R := NamesBelow) ?_ hw
  refine keeps_ends_bind writePending_named (fun _ h => h.below) fun _ => ?_
  refine keeps_ends_bind ioCall_named (fun _ h => h.below) fun _ => ?_
  refine ends_bind (ends_conseq flush_named_none (fun _ h => h) (fun _ _ h => h)
    fun _ h => h.below) fun _ => ?_
  refine ends_conseq (Keeps.ends ?_) (fun _ h => h) (fun w _ h => hbelow w h) hbelow
  refine keeps_bind (named_mergeInvariant.mergeOnFullFlush_keeps merges) fun _ => ?_
  refine keeps_bind writePending_named fun _ => ?_
  refine keeps_bind ioCall_named fun _ => keeps_bind keeps_get fun _ => ?_
  exact keeps_bind ioCall_named fun _ => keeps_pure

theorem updateDocumentWithSources_named (sources : List String) (term : Term) (doc : δ) :
    Keeps (Named p) (updateDocumentWithSources fx cfg sources term doc) := by
  refine keeps_bind writePending_named fun _ => keeps_unlessPrepared (named_of_none ?_)
  refine keeps_bind newSegmentName_named fun _ => keeps_bind keeps_get fun _ => ?_
  refine keeps_bind (deleteTermFrom_keeps (fun _ _ => Named.of_core) _ _ _) fun _ => ?_
  refine keeps_bind ioCall_named fun _ => ?_
  exact commitSegments_named _

theorem deleteDocumentsWithSources_named (sources : List String) (term : Term) :
    Keeps (Named p) (deleteDocumentsWithSources fx cfg sources term) := by
  refine keeps_bind writePending_named fun _ => keeps_unlessPrepared (named_of_none ?_)
  refine keeps_bind keeps_get fun _ => ?_
  refine keeps_bind (deleteTermFrom_keeps (fun _ _ => Named.of_core) _ _ _) fun _ => ?_
  exact commitSegments_named _

/-- No segment is copied while a commit is prepared. -/
theorem copySegmentsIn_named (sources : List (Segment δ)) :
    Ends (Named p) (copySegmentsIn fx cfg sources) (fun w _ => Named none w) (Named p) := by
  refine ends_get_bind fun w hw => ?_
  cases p with
  | some infos =>
    rw [hw.preparedCommit]
    exact ends_throw fun w' hw' => hw' ▸ hw
  | none =>
    rw [hw.preparedCommit]
    refine ends_conseq (Keeps.ends (I := Named none) ?_) (fun w' hw' => hw' ▸ hw)
      (fun _ _ h => h) fun _ h => h
    refine keeps_bind flush_named fun _ => keeps_bind ioCall_named fun _ => ?_
    refine keeps_bind keeps_get fun _ => keeps_ite (fun _ => keeps_throw) fun _ => ?_
    exact named_mergeInvariant.copySegments_keeps _

theorem addIndexes_below (sources : List (Segment δ)) :
    Keeps NamesBelow (addIndexes fx cfg sources) := by
  intro w hw
  refine Ends.state (P := Named w.preparedCommit) (R := NamesBelow) ?_ hw
  refine keeps_ends_bind writePending_named (fun _ h => h.below) fun _ => ?_
  refine ends_bind (ends_conseq (copySegmentsIn_named sources) (fun _ h => h) (fun _ _ h => h)
    fun _ h => h.below) fun added => ?_
  refine ends_conseq (Keeps.ends (I := Named none) ?_) (fun _ h => h) (fun _ _ h => h.below)
    fun _ h => h.below
  refine keeps_bind (keeps_modify fun w hw => hw.mapCommitted _) fun _ => ?_
  refine keeps_bind ioCall_named fun _ => ?_
  refine keeps_bind (keeps_modify fun w hw => hw.of_eq rfl le_rfl rfl) fun _ => ?_
  exact nextSeqNo_keeps fun _ _ => Named.of_core

theorem addIndexesMerged_below (sources : List (Segment δ)) :
    Keeps NamesBelow (addIndexesMerged fx cfg sources) := by
  intro w hw
  refine Ends.state (P := Named w.preparedCommit) (R := NamesBelow) ?_ hw
  refine keeps_ends_bind writePending_named (fun _ h => h.below) fun _ => ?_
  refine ends_bind (ends_conseq (copySegmentsIn_named sources) (fun _ h => h) (fun _ _ h => h)
    fun _ h => h.below) fun added => ?_
  refine ends_conseq (Keeps.ends (I := Named none) ?_) (fun _ h => h) (fun _ _ h => h.below)
    fun _ h => h.below
  refine keeps_ite (fun _ => nextSeqNo_keeps fun _ _ => Named.of_core) fun _ => ?_
  refine keeps_bind (keeps_modify fun w hw => hw.mapCommitted _) fun _ => ?_
  refine keeps_bind ioCall_named fun _ => keeps_bind keeps_get fun _ => ?_
  refine keeps_bind (keeps_modify fun w hw => hw.of_eq rfl le_rfl rfl) fun _ => ?_
  refine keeps_bind (keeps_attempt (named_mergeInvariant.executeMerge_keeps _)) fun result => ?_
  refine keeps_bind (keeps_modify fun w hw => hw.of_eq rfl le_rfl rfl) fun _ => ?_
  rcases result with e | - | -
  · refine keeps_bind (keeps_attempt (named_mergeInvariant.withdrawCopies_keeps _)) fun _ => ?_
    exact keeps_throw
  · refine keeps_bind (named_mergeInvariant.withdrawCopies_keeps _) fun _ => ?_
    exact nextSeqNo_keeps fun _ _ => Named.of_core
  · refine keeps_bind (keeps_modify fun w hw => hw.of_eq rfl le_rfl rfl) fun _ => ?_
    exact nextSeqNo_keeps fun _ _ => Named.of_core

end IndexWriter

/-! ## Runs -/

open RustSem
open StateHoare
open IndexWriter

variable {δ κ : Type} [DecidableEq κ] {fx : WriterFaults} {cfg : WriterConfig δ κ}

/-- The call takes a name also while a commit is prepared: it goes as far as
`begin_merge`, or a buffer gets a name for its segment. -/
def WriterCall.takesName : WriterCall δ κ → Bool
  | forceMerge maxNumSegments groups => maxNumSegments != 0 && !groups.isEmpty
  | forceMergeDeletes groups => !groups.isEmpty
  | beginMerge _ => true
  | reserveSegment => true
  | beginSegment reserved => reserved.isNone
  | _ => false

/-- Names stay below the counters, if none is taken while a commit is
prepared. -/
theorem WriterCall.run_below (call : WriterCall δ κ) (w : IndexWriter δ κ)
    (hcall : w.preparedCommit.isSome = true → call.takesName = false) (hw : NamesBelow w) :
    NamesBelow (call.run fx cfg w).2 := by
  -- the calls that take names
  have hmerges : ∀ x : WriterOp δ κ Unit, call.run fx cfg = unnumbered x →
      Keeps (Named none) x → (call.takesName = false → ∀ p, Keeps (Named p) x) →
      NamesBelow (call.run fx cfg w).2 := by
    intro x hx hnone hsome
    rw [hx]
    cases hp : w.preparedCommit with
    | none => exact (unnumbered_keeps hnone w (hp ▸ hw)).below
    | some infos =>
      have htakes := hcall (by rw [hp]; rfl)
      exact (unnumbered_keeps (hsome htakes w.preparedCommit) w hw).below
  have hnone : call.takesName = true → w.preparedCommit = none := by
    intro htakes
    cases hp : w.preparedCommit with
    | none => rfl
    | some infos => exact absurd (hcall (by rw [hp]; rfl)) (by rw [htakes]; exact Bool.noConfusion)
  cases call with
  | addDocument doc =>
    exact keeps_below (fun _ => withNumber_keeps (named_addInvariant.addDocument_ends _).keeps) w hw
  | addDocuments docs =>
    exact keeps_below (fun _ => withNumber_keeps (keeps_bind writePending_named fun _ =>
      (named_addInvariant.addDocumentsWithDelete_ends _ _).keeps)) w hw
  | updateDocuments term docs =>
    exact keeps_below (fun _ => withNumber_keeps (keeps_bind writePending_named fun _ =>
      (named_addInvariant.addDocumentsWithDelete_ends _ _).keeps)) w hw
  | softUpdateDocuments term docs softDeletes =>
    exact keeps_below (fun _ => withNumber_keeps
      (named_addInvariant.softUpdateDocuments_ends _ _ _).keeps) w hw
  | deleteDocumentsByTerm terms =>
    exact keeps_below (fun _ => withNumber_keeps (keeps_bind writePending_named fun _ =>
      (named_addInvariant.bufferDelete_ends _).keeps)) w hw
  | deleteDocumentsByQuery queries =>
    exact keeps_below (fun _ => withNumber_keeps (deleteDocumentsByQuery_named _)) w hw
  | updateDocValues term updates =>
    exact keeps_below (fun _ => withNumber_keeps
      (named_addInvariant.updateDocValues_ends _ _).keeps) w hw
  | tryDeleteDocument reader docId =>
    refine keeps_below (fun p => keeps_bind ?_ fun _ => numbered_keeps (fun _ _ => Named.of_core) _) w hw
    exact keeps_of_only (fun _ => tryDeleteResolved_only _ _) fun _ _ h hw => hw.of_only h
  | tryUpdateDocValue reader docId updates =>
    refine keeps_below (fun p => keeps_bind ?_ fun _ => numbered_keeps (fun _ _ => Named.of_core) _) w hw
    exact keeps_of_only (fun _ => tryUpdateResolved_only _ _ _) fun _ _ h hw => hw.of_only h
  | flush => exact keeps_below (fun _ => unnumbered_keeps flush_named) w hw
  | nrtSnapshot merges => exact unnumbered_keeps (nrtSnapshot_below _) w hw
  | prepareCommit merges => exact unnumbered_keeps (prepareCommit_below _) w hw
  | finishCommit groups => exact unnumbered_keeps (finishCommit_below _) w hw
  | commit merges groups => exact unnumbered_keeps (commit_below _ _) w hw
  | rollback => exact unnumbered_keeps rollback_below w hw
  | tryRollback => exact unnumbered_keeps tryRollback_below w hw
  | deleteAll => exact keeps_below (fun _ => unnumbered_keeps deleteAll_named) w hw
  | forceMerge maxNumSegments groups =>
    refine hmerges (IndexWriter.forceMerge fx cfg maxNumSegments groups) rfl ?_ fun htakes p => ?_
    · refine keeps_bind writePending_named fun _ => keeps_ite (fun _ => keeps_throw) fun _ => ?_
      exact named_mergeInvariant.runMerges_keeps _
    · refine keeps_bind writePending_named fun _ => keeps_ite (fun _ => keeps_throw) fun hmax => ?_
      have hnil : groups = [] := by simpa [WriterCall.takesName, hmax] using htakes
      rw [hnil]
      exact keeps_bind keeps_pure fun _ => ioCall_named
  | forceMergeDeletes groups =>
    refine hmerges (IndexWriter.forceMergeDeletes fx cfg groups) rfl ?_ fun htakes p => ?_
    · exact keeps_bind writePending_named fun _ => named_mergeInvariant.runMerges_keeps _
    · have hnil : groups = [] := by simpa [WriterCall.takesName] using htakes
      rw [hnil]
      exact keeps_bind writePending_named fun _ => keeps_bind keeps_pure fun _ => ioCall_named
  | maybeMerge groups =>
    refine keeps_below (fun _ => unnumbered_keeps (keeps_bind writePending_named fun _ => ?_)) w hw
    refine keeps_ite (fun _ => keeps_pure) fun _ => keeps_unlessPrepared (named_of_none ?_)
    exact withMergesByCaller_keeps (fun _ _ => Named.of_core) (named_mergeInvariant.runMerges_keeps _)
  | applyMerge names merged =>
    exact keeps_below (fun _ => unnumbered_keeps (named_commitInvariant.applyMerge_keeps _ _)) w hw
  | dropMerge names =>
    exact keeps_below (fun _ => unnumbered_keeps (named_commitInvariant.dropMerge_keeps _)) w hw
  | updateDocumentWithSources sources term doc =>
    exact keeps_below (fun _ => unnumbered_keeps (updateDocumentWithSources_named _ _ _)) w hw
  | deleteDocumentsWithSources sources term =>
    exact keeps_below (fun _ => unnumbered_keeps (deleteDocumentsWithSources_named _ _)) w hw
  | addIndexes sources => exact withNumber_keeps (addIndexes_below _) w hw
  | addIndexesMerged sources => exact withNumber_keeps (addIndexesMerged_below _) w hw
  | advanceSegmentInfosCounter newCounter =>
    refine unnumbered_keeps (keeps_modify fun w hw => ?_) w hw
    rw [IndexWriter.advanceSegmentInfosCounter]
    split
    · rename_i hlt
      exact Named.of_eq hw rfl hlt.le rfl
    · exact hw
  | setLiveCommitData =>
    refine keeps_below (fun _ => unnumbered_keeps ?_) w hw
    exact keeps_modify fun _ hw => hw.of_eq rfl le_rfl rfl
  | setMergesByCaller byCaller =>
    refine keeps_below (fun _ => unnumbered_keeps ?_) w hw
    exact keeps_modify fun _ hw => hw.of_eq rfl le_rfl rfl
  | beginMerge names =>
    exact (unnumbered_keeps (named_mergeInvariant.beginMerge_keeps names) w (hnone rfl ▸ hw)).below
  | finishMerge plan outcome =>
    exact keeps_below (fun _ => unnumbered_keeps (named_commitInvariant.finishMerge_keeps _ _)) w hw
  | abortMerge plan =>
    exact keeps_below (fun _ => unnumbered_keeps (named_commitInvariant.abortMerge_keeps _)) w hw
  | bufferGlobalDelete node =>
    refine keeps_below (fun _ => unnumbered_keeps ?_) w hw
    exact keeps_modify fun _ hw => hw.of_eq rfl le_rfl rfl
  | reserveSegment =>
    exact (unnumbered_keeps newSegmentName_named w (hnone rfl ▸ hw)).below
  | beginSegment reserved =>
    cases reserved with
    | none =>
      refine (unnumbered_keeps (I := Named none) ?_ w (hnone rfl ▸ hw)).below
      exact keeps_bind beginDeletesTicket_named fun _ =>
        keeps_bind newSegmentName_named fun _ => keeps_pure
    | some name =>
      refine keeps_below (fun _ => unnumbered_keeps ?_) w hw
      exact keeps_bind beginDeletesTicket_named fun _ => keeps_pure
  | abandonSegment ticket =>
    exact keeps_below (fun _ => unnumbered_keeps (keeps_modify fun _ hw => hw.pushPacket _)) w hw
  | publishSegmentWith ticket sci packet sortMap freezeGlobal =>
    exact keeps_below (fun _ => unnumbered_keeps (publishSegmentWith_named _ _ _ _ _)) w hw
  | dropFullyDeletedFlushed name =>
    exact keeps_below (fun _ => unnumbered_keeps (dropFullyDeletedFlushed_named _)) w hw
  | beginDeletesTicket =>
    exact keeps_below (fun _ => unnumbered_keeps beginDeletesTicket_named) w hw
  | publishDeletesTicket packet =>
    exact keeps_below (fun _ => unnumbered_keeps (publishDeletesTicket_named _)) w hw
  | applyPendingPackets =>
    exact keeps_below (fun _ => unnumbered_keeps applyPendingPackets_named) w hw

/-- A name is taken only while no commit is prepared. -/
def namesOutsidePrepare (w : IndexWriter δ κ) (call : WriterCall δ κ) : Prop :=
  w.preparedCommit.isSome = true → call.takesName = false

omit [DecidableEq κ] in
theorem namesBelow_new (counter generation : Nat) (segments : List (Segment δ)) :
    NamesBelow (.new counter generation segments : IndexWriter δ κ) where
  preparedCommit := rfl
  ascends := .nil
  small _ h := by cases h
  counter _ h := by cases h
  prepared _ h := by cases h

instance (w : IndexWriter δ κ) (call : WriterCall δ κ) :
    Decidable (namesOutsidePrepare w call) := inferInstanceAs (Decidable (_ → _))

end LuceneRust.Index
