import LuceneRust.Index.Writer.Frames

/-!
# Merges and the packets that are pending

A packet is pushed to the stream by an operation that then applies it.  Where
that fails the packet stays, and a merge may meet it.

* `Quiet` is the invariant: no merge has met a packet, and none is pending, if
  no call has left one behind or a commit is prepared.
* `flush_quiet`: a flush that succeeds has applied all packets.
* `WriterCall.run_quiet`: a call that succeeds leaves no packet behind, unless a
  concurrent writer pushes a packet by it.
-/

namespace LuceneRust.Index

namespace IndexWriter

open RustSem
open StateHoare

variable {δ κ α : Type}

/-- No packet was pending where a merge was entered.  None is pending now if `b`
holds, or if a commit is prepared.  The latter is off if `late` holds, where a
concurrent writer has pushed one. -/
structure Quiet (late : Bool) (p : Option (WriterInfos δ)) (b : Bool) (w : IndexWriter δ κ) :
    Prop where
  preparedCommit : w.preparedCommit = p
  entered : ∀ pending, .mergeEntered pending ∈ w.trace → pending = false
  empty : b = true ∨ late = false ∧ p.isSome = true → w.updatesStream.updates = []

/-- For each merge that was entered, whether a packet was pending. -/
def packetsMet (trace : List (WriterEvent δ)) : List Bool :=
  trace.filterMap fun
    | .mergeEntered pending => some pending
    | _ => none

theorem mem_packetsMet {trace : List (WriterEvent δ)} {pending : Bool} :
    pending ∈ packetsMet trace ↔ .mergeEntered pending ∈ trace := by
  rw [packetsMet, List.mem_filterMap]
  constructor
  · rintro ⟨e, he, hpending⟩
    cases e with
    | named n => cases hpending
    | published infos => cases hpending
    | mergeEntered pending' =>
      obtain rfl : pending' = pending := Option.some_inj.1 hpending
      exact he
  · intro he
    exact ⟨_, he, rfl⟩

variable {l : Bool} {p : Option (WriterInfos δ)} {b : Bool} {w w' : IndexWriter δ κ}

namespace Quiet

theorem of_core (h : SameCore w w') (hw : Quiet l p b w) : Quiet l p b w' where
  preparedCommit := h.preparedCommit.trans hw.preparedCommit
  entered := h.trace ▸ hw.entered
  empty := h.updatesStream ▸ hw.empty

theorem of_only (h : SegmentsOnly w w') (hw : Quiet l p b w) : Quiet l p b w' := hw.of_core h.core

theorem weaken (hw : Quiet l p b w) : Quiet l p false w :=
  ⟨hw.preparedCommit, hw.entered, fun h => hw.empty (.inr (by simpa using h))⟩

theorem of_true (hw : Quiet l p true w) : Quiet l p b w :=
  ⟨hw.preparedCommit, hw.entered, fun _ => hw.empty (.inl rfl)⟩

/-- Nothing is pending while a commit is prepared. -/
theorem of_prepared {infos : WriterInfos δ} (hw : Quiet false (some infos) b w) :
    Quiet false (some infos) true w :=
  ⟨hw.preparedCommit, hw.entered, fun _ => hw.empty (.inr ⟨rfl, rfl⟩)⟩

/-- It does not matter who pushes while nothing is prepared. -/
theorem of_none {l' : Bool} (hw : Quiet l none b w) : Quiet l' none b w :=
  ⟨hw.preparedCommit, hw.entered, fun h => hw.empty (.inl (by simpa using h))⟩

theorem late (hw : Quiet l p b w) : Quiet true p false w :=
  ⟨hw.preparedCommit, hw.entered, fun h => by simp at h⟩

theorem record (hw : Quiet l p b w) {e : WriterEvent δ}
    (he : ∀ pending, e = .mergeEntered pending → pending = false) : Quiet l p b (w.record e) where
  preparedCommit := hw.preparedCommit
  entered pending h := by
    rcases List.mem_append.1 h with h | h
    · exact hw.entered pending h
    · exact he pending (List.mem_singleton.1 h).symm
  empty := hw.empty

theorem pushPacket (hw : Quiet l p b w) (packet : Option (FrozenBufferedUpdates κ)) :
    Quiet true p false (w.pushPacket packet) := by
  cases packet with
  | none => exact hw.late
  | some packet => exact ⟨hw.preparedCommit, hw.entered, fun h => by simp at h⟩

end Quiet

variable {fx : WriterFaults} {cfg : WriterConfig δ κ}

theorem ioCall_quiet : Keeps (Quiet l p b) (ioCall fx : WriterOp δ κ Unit) :=
  fun _ hw => ⟨hw.preparedCommit, hw.entered, hw.empty⟩

theorem writePending_quiet : Keeps (Quiet l p b) (writePendingTryChanges fx cfg) :=
  keeps_of_only (fun _ => writePendingTryChanges_only) fun _ _ h hw => hw.of_only h

theorem newSegmentName_quiet : Keeps (Quiet l p b) (newSegmentName : WriterOp δ κ String) := by
  refine keeps_bind keeps_get fun counter => keeps_bind keeps_lift fun _ => ?_
  refine keeps_bind (keeps_modify fun w hw => ?_) fun _ => keeps_pure
  refine Quiet.record ?_ fun _ h => by cases h
  exact ⟨hw.preparedCommit, hw.entered, hw.empty⟩

/-- The invariant, where a failure may leave a packet. -/
theorem quiet_ends {x : WriterOp δ κ α} (hx : Keeps (Quiet l p b) x) :
    Ends (Quiet l p b) x (fun w _ => Quiet l p b w) (Quiet l p false) :=
  ends_conseq hx.ends (fun _ hw => hw) (fun _ _ hw => hw) fun _ hw => hw.weaken

variable [DecidableEq κ]

theorem commitSegments_quiet (segments : List (Segment δ)) :
    Keeps (Quiet l p b) (commitSegments fx segments : WriterOp δ κ Unit) := by
  refine keeps_bind keeps_get fun w => keeps_bind ioCall_quiet fun _ => ?_
  refine keeps_bind (keeps_attempt ?_) fun written => ?_
  · refine keeps_bind ioCall_quiet fun _ => keeps_bind ioCall_quiet fun _ => ?_
    refine keeps_bind (keeps_modify fun w hw => ?_) fun _ => ioCall_quiet
    exact hw.record fun _ h => by cases h
  refine keeps_bind (keeps_modify fun w hw => ⟨hw.preparedCommit, hw.entered, hw.empty⟩) fun _ => ?_
  refine keeps_bind keeps_ofExcept fun _ => ?_
  refine keeps_bind (keeps_modify fun w hw => ⟨hw.preparedCommit, hw.entered, hw.empty⟩) fun _ => ?_
  exact keeps_bind ioCall_quiet fun _ => ioCall_quiet

theorem quiet_mergeInvariant :
    MergeInvariant fx (Quiet l p true : IndexWriter δ κ → Prop) where
  core _ _ := Quiet.of_core
  entered w hw := by
    refine hw.record fun pending h => ?_
    cases h
    rw [BufferedUpdatesStream.any, hw.empty (.inl rfl)]
    rfl
  commitSegments segments w hw _ := commitSegments_quiet segments w hw
  newSegmentName := newSegmentName_quiet

/-! ## Flushes -/

theorem applyStreamPackets_quiet :
    Ends (Quiet l p b) (applyStreamPackets fx cfg) (fun w _ => Quiet l p true w)
      (Quiet l p false) := by
  refine ends_get_bind fun w hw => ends_ite (fun hnone => ?_) fun hany => ?_
  · refine ends_pure fun w' hw' => ⟨hw' ▸ hw.preparedCommit, hw' ▸ hw.entered, fun _ => ?_⟩
    rw [hw']
    simpa [BufferedUpdatesStream.any] using hnone
  dsimp only
  refine ends_bind (Q := fun w _ => Quiet l p true w) (ends_modify fun w' hw' => ?_) fun _ => ?_
  · rw [hw']
    exact ⟨hw.preparedCommit, hw.entered, fun _ => rfl⟩
  refine ends_bind (quiet_ends (keeps_attempt keeps_lift)) fun result => ?_
  cases result with
  | ok flags =>
    exact ends_modify fun w hw => hw.of_only (dropFullyDeletedSegments_only w _ _)
  | error e =>
    refine ends_bind (Q := fun w _ => Quiet l p false w) (ends_modify fun w' hw' => ?_) fun _ => ?_
    · refine ⟨hw'.preparedCommit, hw'.entered, fun h => ?_⟩
      -- the packets were pending before
      have hempty : w.updatesStream.updates = [] := hw.empty (.inr (by simpa using h))
      exact absurd (show (!w.updatesStream.any) = true by
        rw [BufferedUpdatesStream.any, hempty]; rfl) hany
    · exact ends_throw fun _ hw => hw

theorem applyAll_quiet :
    Ends (Quiet true p b) (applyAllDeletesAndUpdates fx cfg) (fun w _ => Quiet true p true w)
      (Quiet true p false) := by
  refine ends_bind (Q := fun w _ => Quiet true p false w) (ends_modify fun w hw => ?_) fun _ =>
    applyStreamPackets_quiet
  have hfrozen : Quiet true p b w.freezeGlobalBuffer := ⟨hw.preparedCommit, hw.entered, hw.empty⟩
  exact hfrozen.pushPacket _

omit [DecidableEq κ] in
/-- A program that pushes packets, where nothing is prepared. -/
theorem quiet_of_none {x : WriterOp δ κ α}
    (hx : Ends (Quiet true none b) x (fun w _ => Quiet true none true w) (Quiet true none false)) :
    Ends (Quiet l none b) x (fun w _ => Quiet l none true w) (Quiet l none false) :=
  ends_conseq hx (fun _ h => h.of_none) (fun _ _ h => h.of_none) fun _ h => h.of_none

theorem applyDeletesNow_quiet :
    Ends (Quiet l none b) (applyDeletesNow fx cfg) (fun w _ => Quiet l none true w)
      (Quiet l none false) :=
  ends_bind (quiet_ends ioCall_quiet) fun _ => ends_bind (quiet_of_none applyAll_quiet) fun _ =>
    quiet_ends ioCall_quiet

theorem applyPendingPackets_quiet :
    Ends (Quiet l p b) (applyPendingPackets fx cfg) (fun w _ => Quiet l p true w)
      (Quiet l p false) :=
  ends_bind (quiet_ends writePending_quiet) fun _ => ends_bind applyStreamPackets_quiet fun _ =>
    quiet_ends ioCall_quiet

theorem publishSegmentWith_quiet (ticket : SegmentTicket κ) (sci : Segment δ)
    (packet : Option (FrozenBufferedUpdates κ)) (sortMap : Option (List Nat))
    (freezeGlobal : Bool) :
    Ends (Quiet true p b) (publishSegmentWith fx cfg ticket sci packet sortMap freezeGlobal)
      (fun w _ => Quiet true p true w) (Quiet true p false) := by
  refine ends_bind (quiet_ends writePending_quiet) fun _ => ?_
  refine ends_bind (Q := fun w _ => Quiet true p false w)
    (ends_modify fun w hw => hw.pushPacket _) fun _ => ?_
  refine ends_bind (quiet_ends (keeps_modify fun w hw => ?_)) fun _ => ?_
  · cases sortMap with
    | none => exact hw
    | some map => exact ⟨hw.preparedCommit, hw.entered, hw.empty⟩
  refine ends_bind (quiet_ends (keeps_modify fun w hw => ?_)) fun _ => ?_
  · exact ⟨hw.preparedCommit, hw.entered, fun h => by simp at h⟩
  refine ends_bind (quiet_ends ioCall_quiet) fun _ => ?_
  refine ends_bind (Q := fun w _ => Quiet true p true w) ?_ fun _ => ?_
  · exact ends_ite (fun _ => applyAll_quiet) fun _ => applyStreamPackets_quiet
  refine ends_bind (quiet_ends (keeps_modify fun w hw => ?_)) fun _ => quiet_ends ioCall_quiet
  exact ⟨hw.preparedCommit, hw.entered, hw.empty⟩

theorem flushDeletes_quiet :
    Ends (Quiet l none b) (flushDeletes fx cfg) (fun w _ => Quiet l none true w) (Quiet l none false) := by
  refine ends_bind (quiet_of_none applyAll_quiet) fun _ => ?_
  refine ends_bind (quiet_ends (keeps_modify fun w hw => ?_)) fun _ => quiet_ends ioCall_quiet
  exact ⟨hw.preparedCommit, hw.entered, hw.empty⟩

theorem sortPendingBuffer_quiet : Keeps (Quiet l p b) (sortPendingBuffer fx cfg) := by
  refine keeps_bind ioCall_quiet fun _ => keeps_bind keeps_get fun docs => ?_
  cases cfg.sortPermutation (docs.map (·.content)) with
  | none => exact keeps_pure
  | some map =>
    refine keeps_bind (keeps_modify fun w hw => ?_) fun _ => keeps_pure
    exact ⟨hw.preparedCommit, hw.entered, hw.empty⟩

omit [DecidableEq κ] in
theorem beginDeletesTicket_quiet :
    Keeps (Quiet l p b) (beginDeletesTicket : WriterOp δ κ (Option (FrozenBufferedUpdates κ))) := by
  refine keeps_bind keeps_get fun _ => keeps_bind (keeps_modify fun w hw => ?_) fun _ => keeps_pure
  exact ⟨hw.preparedCommit, hw.entered, hw.empty⟩

omit [DecidableEq κ] in
theorem beginSegment_quiet (reserved : Option String) :
    Keeps (Quiet l p b) (beginSegment reserved : WriterOp δ κ (SegmentTicket κ)) := by
  refine keeps_bind beginDeletesTicket_quiet fun _ => ?_
  cases reserved with
  | none => exact keeps_bind newSegmentName_quiet fun _ => keeps_pure
  | some name => exact keeps_pure

theorem flushDocuments_quiet :
    Ends (Quiet l none b) (flushDocuments fx cfg) (fun w _ => Quiet l none true w)
      (Quiet l none false) := by
  refine ends_bind (quiet_ends sortPendingBuffer_quiet) fun sortMap => ?_
  refine ends_bind (quiet_ends (beginSegment_quiet none)) fun ticket => ?_
  refine ends_bind (quiet_ends (keeps_attempt ioCall_quiet)) fun result => ?_
  cases result with
  | error e =>
    -- `abandon_segment` leaves the packet
    refine ends_bind (Q := fun w _ => Quiet l none false w) (ends_modify fun w hw => ?_) fun _ => ?_
    · refine (Quiet.pushPacket (l := l) (b := b) ?_ _).of_none
      cases sortMap with
      | none => exact hw
      | some map => exact ⟨hw.preparedCommit, hw.entered, hw.empty⟩
    refine ends_bind (quiet_ends (keeps_attempt ioCall_quiet)) fun _ => ?_
    exact ends_throw fun _ hw => hw
  | ok u =>
    refine ends_bind (quiet_ends keeps_get) fun _ => ends_bind (quiet_ends keeps_get) fun _ => ?_
    refine ends_bind (quiet_ends (keeps_modify fun w hw => ?_)) fun _ => ?_
    · exact ⟨hw.preparedCommit, hw.entered, hw.empty⟩
    · exact ends_bind (quiet_ends writePending_quiet) fun _ =>
        quiet_of_none (publishSegmentWith_quiet _ _ _ _ _)

/-- A program that does not run while a commit is prepared. -/
theorem quiet_unlessPrepared {x : WriterOp δ κ α} {e : WriterError} {R : IndexWriter δ κ → Prop}
    (hx : Ends (Quiet l none b) x (fun w _ => R w) (Quiet l none false)) :
    Ends (Quiet l p b) (do if (← Op.get (·.preparedCommit.isSome)) then Op.throw e else x)
      (fun w _ => R w) (Quiet l p false) := by
  refine ends_unlessPrepared ?_ fun w hw => hw.weaken
  cases p with
  | none => exact ends_conseq hx (fun w hw => hw.1) (fun _ _ h => h) fun _ h => h
  | some infos =>
    intro w hw
    exact absurd (hw.1.preparedCommit.symm.trans hw.2) (Option.some_ne_none _)

/-- All packets are applied by a flush that succeeds. -/
theorem flush_quiet :
    Ends (Quiet l p b) (flush fx cfg) (fun w _ => Quiet l none true w) (Quiet l p false) := by
  refine ends_bind (quiet_ends writePending_quiet) fun _ => quiet_unlessPrepared ?_
  refine ends_bind (quiet_ends ioCall_quiet) fun _ => ?_
  refine ends_bind (quiet_ends ioCall_quiet) fun _ => ends_bind (quiet_ends keeps_get) fun _ => ?_
  exact ends_ite (fun _ => flushDeletes_quiet) fun _ => flushDocuments_quiet

theorem quiet_addInvariant : AddInvariant fx cfg (Quiet l p b) (Quiet l p false) where
  ioCall := ioCall_quiet
  writePending := writePending_quiet
  buffers _ _ _ _ hw := ⟨hw.preparedCommit, hw.entered, hw.empty⟩
  weaken _ hw := hw.weaken
  maybeFlush := by
    refine ends_get_bind fun w hw => ?_
    refine ends_conseq (P := Quiet l p b) (Q := fun w _ => Quiet l p b w) ?_ (fun w' hw' => hw' ▸ hw)
      (fun _ _ h => h) fun _ h => h
    refine ends_ite (fun _ => quiet_ends keeps_pure) fun hp => ?_
    obtain rfl : p = none := by simpa [hw.preparedCommit] using hp
    have hflush : Ends (Quiet l none b) (flush fx cfg) (fun w _ => Quiet l none b w)
        (Quiet l none false) :=
      ends_conseq flush_quiet (fun _ h => h) (fun _ _ h => h.of_true) fun _ h => h
    refine ends_ite (fun _ => hflush) fun _ => ends_ite (fun _ => ?_) fun _ => ?_
    · exact ends_conseq applyDeletesNow_quiet (fun _ h => h) (fun _ _ h => h.of_true) fun _ h => h
    · refine ends_ite (fun _ => hflush) fun _ => ends_ite (fun _ => hflush) fun _ => ?_
      exact quiet_ends keeps_pure
  maybeApplyDeletes := by
    refine ends_get_bind fun w hw => ?_
    refine ends_conseq (P := Quiet l p b) (Q := fun w _ => Quiet l p b w) ?_ (fun w' hw' => hw' ▸ hw)
      (fun _ _ h => h) fun _ h => h
    refine ends_ite (fun _ => quiet_ends keeps_pure) fun hp => ?_
    obtain rfl : p = none := by simpa [hw.preparedCommit] using hp
    refine ends_when (fun _ => ?_) fun _ _ hw => hw
    exact ends_conseq applyDeletesNow_quiet (fun _ h => h) (fun _ _ h => h.of_true) fun _ h => h

theorem deleteAll_quiet : Ends (Quiet l p b) (deleteAll fx : WriterOp δ κ Unit)
    (fun w _ => Quiet l none true w) (Quiet l p false) := by
  refine quiet_unlessPrepared ?_
  refine ends_bind (Q := fun w _ => Quiet l none true w) (ends_modify fun w hw => ?_) fun _ => ?_
  · exact ⟨hw.preparedCommit, hw.entered, fun _ => rfl⟩
  · exact ends_bind (quiet_ends ioCall_quiet) fun _ => quiet_ends ioCall_quiet

theorem deleteDocumentsByQuery_quiet (queries : List κ) :
    Ends (Quiet l p b) (deleteDocumentsByQuery fx cfg queries) (fun w _ => Quiet l p b w)
      (Quiet l p false) := by
  refine ends_bind (quiet_ends writePending_quiet) fun _ => ends_ite (fun _ => ?_) fun _ => ?_
  · refine ends_bind (quiet_ends keeps_get) fun _ => ?_
    refine ends_bind (quiet_ends (keeps_modify fun w hw => ?_)) fun _ => ?_
    · exact ⟨hw.preparedCommit, hw.entered, hw.empty⟩
    refine ends_bind (Q := fun w _ => Quiet l p b w) ?_ fun _ => quiet_ends keeps_pure
    cases p with
    | none => exact ends_conseq deleteAll_quiet (fun _ h => h) (fun _ _ h => h.of_true) fun _ h => h
    | some infos =>
      refine ends_get_bind fun w hw => ?_
      rw [hw.preparedCommit]
      exact ends_throw fun w' hw' => hw' ▸ hw.weaken
  · exact quiet_addInvariant.bufferDelete_ends _

/-! ## Commits -/

/-- The invariant, whatever is prepared. -/
def QuietNow (l b : Bool) (w : IndexWriter δ κ) : Prop := Quiet l w.preparedCommit b w

omit [DecidableEq κ] in
theorem Quiet.now (hw : Quiet l p b w) : QuietNow l b w := by
  obtain rfl := hw.preparedCommit
  exact hw

omit [DecidableEq κ] in
/-- A program that keeps the invariant with what is prepared. -/
theorem quietNow_ends {x : WriterOp δ κ α}
    (hx : ∀ p, Ends (Quiet l p b) x (fun w _ => Quiet l p b w) (Quiet l p false)) :
    Ends (QuietNow l b) x (fun w _ => QuietNow l b w) (QuietNow l false) := by
  intro w hw
  exact ends_conseq (hx w.preparedCommit) (fun _ h => h) (fun _ _ h => h.now) (fun _ h => h.now) w hw

omit [DecidableEq κ] in
theorem quietNow_keeps {x : WriterOp δ κ α} (hx : ∀ p, Keeps (Quiet l p b) x) :
    Ends (QuietNow l b) x (fun w _ => QuietNow l b w) (QuietNow l false) :=
  quietNow_ends fun p => quiet_ends (hx p)

omit [DecidableEq κ] in
/-- A part of an operation that changes what is prepared. -/
theorem ends_now {x : WriterOp δ κ α} (hx : Keeps (Quiet l p b) x) :
    Ends (Quiet l p b) x (fun w _ => Quiet l p b w) (QuietNow l false) :=
  ends_conseq (quiet_ends hx) (fun _ h => h) (fun _ _ h => h) fun _ h => h.now

/-- The end of an operation that has flushed. -/
theorem flush_quiet_bind {f : Unit → WriterOp δ κ α} {R : IndexWriter δ κ → α → Prop}
    (hf : ∀ u, Ends (Quiet l none true) (f u) R (QuietNow l false)) :
    Ends (Quiet l p b) (flush fx cfg >>= f) R (QuietNow l false) :=
  ends_bind (ends_conseq flush_quiet (fun _ h => h) (fun _ _ h => h) fun _ h => h.now) hf

theorem prepareCommit_quiet (merges : Option (List (List String))) :
    Ends (QuietNow l b) (prepareCommit fx cfg merges) (fun w _ => QuietNow l true w)
      (QuietNow l false) := by
  refine ends_bind (quietNow_keeps fun _ => writePending_quiet) fun _ => ?_
  refine ends_bind (quietNow_keeps fun _ => writePending_quiet) fun _ => ?_
  refine ends_unlessPrepared ?_ fun w hw => hw.weaken
  intro w hw
  refine ends_conseq (P := Quiet l none b) (Q := fun w _ => QuietNow l true w) (E := QuietNow l false)
    ?_ (fun _ h => h) (fun _ _ h => h) (fun _ h => h) w (hw.2 ▸ hw.1)
  refine ends_bind (Q := fun w _ => Quiet l none b w) (ends_modify fun w hw => ?_) fun _ => ?_
  · exact ⟨hw.preparedCommit, hw.entered, hw.empty⟩
  refine ends_bind (ends_now ioCall_quiet) fun _ => flush_quiet_bind fun _ => ?_
  refine ends_bind (ends_now (quiet_mergeInvariant.mergeOnFullFlush_keeps merges)) fun _ => ?_
  refine ends_bind (ends_now keeps_get) fun infos => ends_bind (ends_now ioCall_quiet) fun _ => ?_
  refine ends_bind (ends_now keeps_get) fun w => ends_ite (fun _ => ends_modify fun w hw => ?_) fun _ => ?_
  · exact ⟨rfl, hw.entered, fun _ => hw.empty (.inl rfl)⟩
  refine ends_bind (ends_now ioCall_quiet) fun _ => ?_
  refine ends_bind (ends_now (keeps_attempt ioCall_quiet)) fun written => ?_
  refine ends_bind (ends_now (keeps_modify fun w hw => ?_)) fun _ => ?_
  · exact ⟨hw.preparedCommit, hw.entered, hw.empty⟩
  refine ends_bind (ends_now keeps_ofExcept) fun _ => ends_modify fun w hw => ?_
  exact ⟨rfl, hw.entered, fun _ => hw.empty (.inl rfl)⟩

theorem finishPending_quiet (infos : WriterInfos δ) :
    Keeps (Quiet l p b) (finishPending fx infos : WriterOp δ κ Unit) := by
  refine keeps_bind ioCall_quiet fun _ => keeps_bind (keeps_modify fun w hw => ?_) fun _ =>
    ioCall_quiet
  exact hw.record fun _ h => by cases h

theorem runMerges_quiet {groups : List (List String)} (h : b = true ∨ groups = []) :
    ∀ p : Option (WriterInfos δ), Keeps (Quiet l p b) (runMerges fx cfg groups) := by
  intro p
  rcases h with rfl | rfl
  · exact quiet_mergeInvariant.runMerges_keeps groups
  · exact keeps_bind keeps_pure fun _ => ioCall_quiet

/-- The merges of a commit meet no packet: none is pending while the commit is
prepared, if no concurrent writer has pushed one. -/
theorem finishCommit_quiet {groups : List (List String)}
    (hgroups : b = true ∨ l = false ∨ groups = []) :
    Ends (QuietNow l b) (finishCommit fx cfg groups) (fun w _ => QuietNow l b w)
      (QuietNow l false) := by
  refine ends_bind (quietNow_keeps fun _ => writePending_quiet) fun _ => ?_
  refine ends_get_bind fun w hw => ?_
  cases hp : w.preparedCommit with
  | none =>
    refine ends_conseq (P := QuietNow l b) (Q := fun w _ => QuietNow l b w) ?_ (fun w' hw' => hw' ▸ hw)
      (fun _ _ h => h) fun _ h => h
    refine quietNow_keeps fun p => keeps_bind keeps_get fun nothing => ?_
    refine keeps_bind (keeps_modify fun w hw => ⟨hw.preparedCommit, hw.entered, hw.empty⟩) fun _ => ?_
    exact keeps_ite (fun _ => keeps_pure) fun _ => keeps_throw
  | some infos =>
    have hsome : Quiet l (some infos) b w := hp ▸ hw
    obtain ⟨c, hwc, hcb, hc, hlate⟩ : ∃ c, Quiet l (some infos) c w ∧ (c = true ∨ c = b) ∧
        (c = true ∨ groups = []) ∧ (c = true ∨ l = true) := by
      cases l with
      | false => exact ⟨true, hsome.of_prepared, .inl rfl, .inl rfl, .inl rfl⟩
      | true => exact ⟨b, hsome, .inr rfl, hgroups.imp_right (·.resolve_left nofun), .inr rfl⟩
    have hend : ∀ w : IndexWriter δ κ, Quiet l none c w → QuietNow l b w := by
      rcases hcb with rfl | rfl
      · exact fun _ h => h.of_true.now
      · exact fun _ h => h.now
    refine ends_conseq (P := Quiet l (some infos) c) (Q := fun w _ => Quiet l none c w)
      (E := QuietNow l false) ?_ (fun w' hw' => hw' ▸ hwc) (fun w _ h => hend w h) fun _ h => h
    refine ends_bind (ends_now ioCall_quiet) fun _ => ?_
    refine ends_bind (Q := fun w _ => Quiet l none c w) (ends_modify fun w hw => ?_) fun _ => ?_
    · exact ⟨rfl, hw.entered, fun h => hw.empty (.inl (by simpa using h))⟩
    refine ends_bind (ends_now (keeps_attempt (finishPending_quiet infos))) fun result => ?_
    cases result with
    | error e =>
      refine ends_bind (Q := fun w _ => QuietNow l false w) (ends_modify fun w hw => ?_) fun _ =>
        ends_throw fun _ h => h
      refine ⟨rfl, hw.entered, fun h => hw.empty (.inl (hlate.resolve_right ?_))⟩
      rw [(h.resolve_left nofun).1]
      exact nofun
    | ok u =>
      refine ends_bind (ends_now (keeps_modify fun w hw => ?_)) fun _ => ?_
      · exact ⟨hw.preparedCommit, hw.entered, hw.empty⟩
      refine ends_bind (ends_now (keeps_bind ioCall_quiet fun _ => ioCall_quiet)) fun _ => ?_
      refine ends_bind (ends_now keeps_get) fun _ => ends_now (keeps_when fun _ => ?_)
      exact runMerges_quiet hc _

theorem commit_quiet (merges : Option (List (List String))) (groups : List (List String)) :
    Ends (QuietNow l b) (commit fx cfg merges groups) (fun w _ => QuietNow l true w)
      (QuietNow l false) :=
  ends_bind (quietNow_keeps fun _ => writePending_quiet) fun _ =>
    ends_bind (prepareCommit_quiet merges) fun _ => finishCommit_quiet (.inl rfl)

omit [DecidableEq κ] in
theorem rollbackState_quiet :
    Keeps (QuietNow l b) (rollbackState fx : WriterOp δ κ Unit) := by
  refine keeps_bind (fun w hw => ?_) fun _ => keeps_modify fun w hw => ?_
  · exact ioCall_quiet w hw
  · exact ⟨rfl, hw.entered, fun _ => rfl⟩

/-! ## Other calls -/

theorem nrtSnapshot_quiet (merges : Option (List (List String))) :
    Ends (Quiet l p b) (nrtSnapshot fx cfg merges) (fun w _ => Quiet l none true w)
      (QuietNow l false) := by
  refine ends_bind (ends_now writePending_quiet) fun _ => ends_bind (ends_now ioCall_quiet) fun _ => ?_
  refine flush_quiet_bind fun _ => ends_now ?_
  refine keeps_bind (quiet_mergeInvariant.mergeOnFullFlush_keeps merges) fun _ => ?_
  refine keeps_bind writePending_quiet fun _ => keeps_bind ioCall_quiet fun _ => ?_
  exact keeps_bind keeps_get fun _ => keeps_bind ioCall_quiet fun _ => keeps_pure

theorem updateDocumentWithSources_quiet (sources : List String) (term : Term) (doc : δ) :
    Keeps (Quiet l p b) (updateDocumentWithSources fx cfg sources term doc) := by
  refine keeps_bind writePending_quiet fun _ => keeps_unlessPrepared fun w hw _ => ?_
  refine (keeps_bind newSegmentName_quiet fun _ => keeps_bind keeps_get fun _ => ?_) w hw
  refine keeps_bind (deleteTermFrom_keeps (fun _ _ => Quiet.of_core) _ _ _) fun _ => ?_
  refine keeps_bind ioCall_quiet fun _ => ?_
  exact commitSegments_quiet _

theorem deleteDocumentsWithSources_quiet (sources : List String) (term : Term) :
    Keeps (Quiet l p b) (deleteDocumentsWithSources fx cfg sources term) := by
  refine keeps_bind writePending_quiet fun _ => keeps_unlessPrepared fun w hw _ => ?_
  refine (keeps_bind keeps_get fun _ => keeps_bind ?_ fun _ => commitSegments_quiet _) w hw
  exact deleteTermFrom_keeps (fun _ _ => Quiet.of_core) _ _ _

/-- No segment is copied while a commit is prepared, or in front of a flush. -/
theorem copySegmentsIn_quiet (sources : List (Segment δ)) :
    Ends (Quiet l p b) (copySegmentsIn fx cfg sources) (fun w _ => Quiet l none true w)
      (Quiet l p false) := by
  refine quiet_unlessPrepared (ends_bind flush_quiet fun _ => quiet_ends ?_)
  refine keeps_bind ioCall_quiet fun _ => keeps_bind keeps_get fun _ => ?_
  exact keeps_ite (fun _ => keeps_throw) fun _ => quiet_mergeInvariant.copySegments_keeps _

theorem addIndexes_quiet (sources : List (Segment δ)) :
    Ends (Quiet l p b) (addIndexes fx cfg sources) (fun w _ => Quiet l none true w)
      (QuietNow l false) := by
  refine ends_bind (ends_now writePending_quiet) fun _ => ?_
  refine ends_bind (ends_conseq (copySegmentsIn_quiet sources) (fun _ h => h) (fun _ _ h => h)
    fun _ h => h.now) fun added => ends_now ?_
  refine keeps_bind (keeps_modify fun w hw => ⟨hw.preparedCommit, hw.entered, hw.empty⟩) fun _ => ?_
  refine keeps_bind ioCall_quiet fun _ => ?_
  refine keeps_bind (keeps_modify fun w hw => ⟨hw.preparedCommit, hw.entered, hw.empty⟩) fun _ => ?_
  exact nextSeqNo_keeps fun _ _ => Quiet.of_core

theorem addIndexesMerged_quiet (sources : List (Segment δ)) :
    Ends (Quiet l p b) (addIndexesMerged fx cfg sources) (fun w _ => Quiet l none true w)
      (QuietNow l false) := by
  refine ends_bind (ends_now writePending_quiet) fun _ => ?_
  refine ends_bind (ends_conseq (copySegmentsIn_quiet sources) (fun _ h => h) (fun _ _ h => h)
    fun _ h => h.now) fun added => ends_now ?_
  have hnext : Keeps (Quiet l none true) (nextSeqNo : WriterOp δ κ Nat) :=
    nextSeqNo_keeps fun _ _ => Quiet.of_core
  refine keeps_ite (fun _ => hnext) fun _ => ?_
  refine keeps_bind (keeps_modify fun w hw => ⟨hw.preparedCommit, hw.entered, hw.empty⟩) fun _ => ?_
  refine keeps_bind ioCall_quiet fun _ => keeps_bind keeps_get fun _ => ?_
  refine keeps_bind (keeps_modify fun w hw => ⟨hw.preparedCommit, hw.entered, hw.empty⟩) fun _ => ?_
  refine keeps_bind (keeps_attempt (quiet_mergeInvariant.executeMerge_keeps _)) fun result => ?_
  refine keeps_bind (keeps_modify fun w hw => ⟨hw.preparedCommit, hw.entered, hw.empty⟩) fun _ => ?_
  rcases result with e | - | -
  · refine keeps_bind (keeps_attempt (quiet_mergeInvariant.withdrawCopies_keeps _)) fun _ => ?_
    exact keeps_throw
  · exact keeps_bind (quiet_mergeInvariant.withdrawCopies_keeps _) fun _ => hnext
  · refine keeps_bind (keeps_modify fun w hw => ?_) fun _ => hnext
    exact ⟨hw.preparedCommit, hw.entered, hw.empty⟩

end IndexWriter

/-! ## Runs -/

open RustSem
open StateHoare
open IndexWriter

variable {δ κ : Type} [DecidableEq κ] {fx : WriterFaults} {cfg : WriterConfig δ κ} {l b : Bool}

/-- The call may enter `begin_merge` or `commit_merge`, without a flush in front
of it.  A commit was flushed when it was prepared, but packets may have come
since, which `late` says. -/
def WriterCall.asksForMerge (late : Bool) : WriterCall δ κ → Bool
  | finishCommit groups => late && !groups.isEmpty
  | forceMerge maxNumSegments groups => maxNumSegments != 0 && !groups.isEmpty
  | forceMergeDeletes groups => !groups.isEmpty
  | maybeMerge groups => !groups.isEmpty
  | applyMerge .. => true
  | dropMerge _ => true
  | beginMerge _ => true
  | finishMerge .. => true
  | _ => false

/-- The call is one by which a concurrent writer pushes a packet. -/
def WriterCall.pushesPacket : WriterCall δ κ → Bool
  | abandonSegment _ => true
  | publishSegmentWith .. => true
  | publishDeletesTicket _ => true
  | _ => false

variable (fx cfg) in
/-- A call that succeeds leaves no packet behind. -/
theorem WriterCall.run_quiet (call : WriterCall δ κ)
    (hcall : b = true ∨ call.asksForMerge l = false) (hpush : call.pushesPacket = false) :
    Ends (QuietNow l b) (call.run fx cfg) (fun w _ => QuietNow l b w) (QuietNow l false) := by
  have hnumber : ∀ x : WriterOp δ κ Nat,
      Ends (QuietNow l b) x (fun w _ => QuietNow l b w) (QuietNow l false) →
        Ends (QuietNow l b) (withNumber x) (fun w _ => QuietNow l b w) (QuietNow l false) :=
    fun x hx => ends_bind hx fun _ => ends_pure fun _ h => h
  have hunnumbered : ∀ {α : Type} (x : WriterOp δ κ α),
      Ends (QuietNow l b) x (fun w _ => QuietNow l b w) (QuietNow l false) →
        Ends (QuietNow l b) (unnumbered x) (fun w _ => QuietNow l b w) (QuietNow l false) :=
    fun x hx => ends_bind hx fun _ => ends_pure fun _ h => h
  -- the merges that a call asks for
  have hmerge : ∀ {α : Type} (x : WriterOp δ κ α), call.asksForMerge l = true →
      (∀ p, Keeps (Quiet l p true) x) →
        Ends (QuietNow l b) x (fun w _ => QuietNow l b w) (QuietNow l false) := by
    intro α x hasks hx
    obtain rfl : b = true := hcall.resolve_right fun h => by rw [hasks] at h; cases h
    exact quietNow_keeps hx
  cases call with
  | addDocument doc =>
    exact hnumber _ (quietNow_ends fun _ => quiet_addInvariant.addDocument_ends _)
  | addDocuments docs =>
    refine hnumber _ (quietNow_ends fun _ => ends_bind (quiet_ends writePending_quiet) fun _ => ?_)
    exact quiet_addInvariant.addDocumentsWithDelete_ends _ _
  | updateDocuments term docs =>
    refine hnumber _ (quietNow_ends fun _ => ends_bind (quiet_ends writePending_quiet) fun _ => ?_)
    exact quiet_addInvariant.addDocumentsWithDelete_ends _ _
  | softUpdateDocuments term docs softDeletes =>
    exact hnumber _ (quietNow_ends fun _ => quiet_addInvariant.softUpdateDocuments_ends _ _ _)
  | deleteDocumentsByTerm terms =>
    refine hnumber _ (quietNow_ends fun _ => ends_bind (quiet_ends writePending_quiet) fun _ => ?_)
    exact quiet_addInvariant.bufferDelete_ends _
  | deleteDocumentsByQuery queries =>
    exact hnumber _ (quietNow_ends fun _ => deleteDocumentsByQuery_quiet _)
  | updateDocValues term updates =>
    exact hnumber _ (quietNow_ends fun _ => quiet_addInvariant.updateDocValues_ends _ _)
  | tryDeleteDocument reader docId =>
    refine quietNow_keeps fun p => keeps_bind ?_ fun _ => numbered_keeps (fun _ _ => Quiet.of_core) _
    exact keeps_of_only (fun _ => tryDeleteResolved_only _ _) fun _ _ h hw => hw.of_only h
  | tryUpdateDocValue reader docId updates =>
    refine quietNow_keeps fun p => keeps_bind ?_ fun _ => numbered_keeps (fun _ _ => Quiet.of_core) _
    exact keeps_of_only (fun _ => tryUpdateResolved_only _ _ _) fun _ _ h hw => hw.of_only h
  | flush =>
    refine hunnumbered _ fun w hw => ?_
    exact ends_conseq flush_quiet (fun _ h => h) (fun _ _ h => h.now.of_true) (fun _ h => h.now) w hw
  | nrtSnapshot merges =>
    refine hunnumbered _ fun w hw => ?_
    exact ends_conseq (nrtSnapshot_quiet merges) (fun _ h => h) (fun _ _ h => h.now.of_true)
      (fun _ h => h) w hw
  | prepareCommit merges =>
    exact hunnumbered _ (ends_conseq (prepareCommit_quiet merges) (fun _ h => h)
      (fun _ _ h => h.of_true) fun _ h => h)
  | finishCommit groups =>
    refine hunnumbered _ (finishCommit_quiet (hcall.imp_right fun h => ?_))
    cases l with
    | false => exact .inl rfl
    | true => exact .inr (by simpa [WriterCall.asksForMerge] using h)
  | commit merges groups =>
    exact hunnumbered _ (ends_conseq (commit_quiet merges groups) (fun _ h => h)
      (fun _ _ h => h.of_true) fun _ h => h)
  | rollback =>
    refine hunnumbered _ (ends_conseq (Keeps.ends ?_) (fun _ h => h) (fun _ _ h => h)
      fun _ h => h.weaken)
    refine keeps_bind (keeps_attempt rollbackState_quiet) fun result => ?_
    cases result with
    | error e => exact keeps_pure
    | ok u =>
      have hio : Keeps (QuietNow l b) (ioCall fx : WriterOp δ κ Unit) := fun w hw => ioCall_quiet w hw
      exact keeps_bind (keeps_attempt hio) fun _ => keeps_bind (keeps_attempt hio) fun _ => keeps_pure
  | tryRollback =>
    have hio : Keeps (QuietNow l b) (ioCall fx : WriterOp δ κ Unit) := fun w hw => ioCall_quiet w hw
    refine hunnumbered _ (ends_conseq (Keeps.ends ?_) (fun _ h => h) (fun _ _ h => h)
      fun _ h => h.weaken)
    exact keeps_bind rollbackState_quiet fun _ => keeps_bind hio fun _ => hio
  | deleteAll =>
    refine hunnumbered _ fun w hw => ?_
    exact ends_conseq deleteAll_quiet (fun _ h => h) (fun _ _ h => h.now.of_true) (fun _ h => h.now)
      w hw
  | forceMerge maxNumSegments groups =>
    refine hunnumbered _ (quietNow_keeps fun p => keeps_bind writePending_quiet fun _ => ?_)
    refine keeps_ite (fun _ => keeps_throw) fun hmax => runMerges_quiet (hcall.imp_right ?_) p
    intro h
    simpa [WriterCall.asksForMerge, hmax] using h
  | forceMergeDeletes groups =>
    refine hunnumbered _ (quietNow_keeps fun p => keeps_bind writePending_quiet fun _ => ?_)
    refine runMerges_quiet (hcall.imp_right fun h => ?_) p
    simpa [WriterCall.asksForMerge] using h
  | maybeMerge groups =>
    refine hunnumbered _ (quietNow_keeps fun p => keeps_bind writePending_quiet fun _ => ?_)
    refine keeps_ite (fun _ => keeps_pure) fun _ => keeps_unlessPrepared fun w hw _ => ?_
    refine withMergesByCaller_keeps (fun _ _ => Quiet.of_core) (runMerges_quiet ?_ p) w hw
    refine hcall.imp_right fun h => ?_
    simpa [WriterCall.asksForMerge] using h
  | applyMerge names merged =>
    exact hunnumbered _ (hmerge _ rfl fun _ =>
      quiet_mergeInvariant.toCommitInvariant.applyMerge_keeps _ _)
  | dropMerge names =>
    exact hunnumbered _ (hmerge _ rfl fun _ =>
      quiet_mergeInvariant.toCommitInvariant.dropMerge_keeps _)
  | updateDocumentWithSources sources term doc =>
    exact hunnumbered _ (quietNow_keeps fun _ => updateDocumentWithSources_quiet _ _ _)
  | deleteDocumentsWithSources sources term =>
    exact hunnumbered _ (quietNow_keeps fun _ => deleteDocumentsWithSources_quiet _ _)
  | addIndexes sources =>
    refine hnumber _ fun w hw => ?_
    exact ends_conseq (addIndexes_quiet sources) (fun _ h => h) (fun _ _ h => h.now.of_true)
      (fun _ h => h) w hw
  | addIndexesMerged sources =>
    refine hnumber _ fun w hw => ?_
    exact ends_conseq (addIndexesMerged_quiet sources) (fun _ h => h) (fun _ _ h => h.now.of_true)
      (fun _ h => h) w hw
  | advanceSegmentInfosCounter newCounter =>
    refine hunnumbered _ (quietNow_keeps fun p => keeps_modify fun w hw => ?_)
    rw [IndexWriter.advanceSegmentInfosCounter]
    split
    · exact ⟨hw.preparedCommit, hw.entered, hw.empty⟩
    · exact hw
  | setLiveCommitData =>
    refine hunnumbered _ (quietNow_keeps fun p => keeps_modify fun w hw => ?_)
    exact ⟨hw.preparedCommit, hw.entered, hw.empty⟩
  | setMergesByCaller byCaller =>
    refine hunnumbered _ (quietNow_keeps fun p => keeps_modify fun w hw => ?_)
    exact ⟨hw.preparedCommit, hw.entered, hw.empty⟩
  | beginMerge names =>
    exact hunnumbered _ (hmerge _ rfl fun _ => quiet_mergeInvariant.beginMerge_keeps _)
  | finishMerge plan outcome =>
    exact hunnumbered _ (hmerge _ rfl fun _ =>
      quiet_mergeInvariant.toCommitInvariant.finishMerge_keeps _ _)
  | abortMerge plan =>
    refine hunnumbered _ (quietNow_keeps fun p => keeps_bind writePending_quiet fun _ => ?_)
    refine keeps_bind (keeps_modify fun w hw => ?_) fun _ => ioCall_quiet
    exact ⟨hw.preparedCommit, hw.entered, hw.empty⟩
  | bufferGlobalDelete node =>
    refine hunnumbered _ (quietNow_keeps fun p => keeps_modify fun w hw => ?_)
    exact ⟨hw.preparedCommit, hw.entered, hw.empty⟩
  | reserveSegment => exact hunnumbered _ (quietNow_keeps fun p => newSegmentName_quiet)
  | beginSegment reserved => exact hunnumbered _ (quietNow_keeps fun p => beginSegment_quiet _)
  | abandonSegment ticket => cases hpush
  | publishSegmentWith ticket sci packet sortMap freezeGlobal => cases hpush
  | dropFullyDeletedFlushed name =>
    refine hunnumbered _ (quietNow_keeps fun p => keeps_bind writePending_quiet fun _ => ?_)
    refine keeps_bind (keeps_modify fun w hw => ?_) fun _ => ioCall_quiet
    exact hw.of_only (dropFullyDeletedSegments_only w _ _)
  | beginDeletesTicket => exact hunnumbered _ (quietNow_keeps fun p => beginDeletesTicket_quiet)
  | publishDeletesTicket packet => cases hpush
  | applyPendingPackets =>
    refine hunnumbered _ fun w hw => ?_
    exact ends_conseq applyPendingPackets_quiet (fun _ h => h) (fun _ _ h => h.of_true.now)
      (fun _ h => h.now) w hw

/-- A call that pushes a packet meets no merge. -/
theorem WriterCall.run_pushesPacket {call : WriterCall δ κ} (hpush : call.pushesPacket = true)
    {w : IndexWriter δ κ} (hw : QuietNow l b w) : QuietNow true false (call.run fx cfg w).2 := by
  have hkeeps : ∀ p, Keeps (Quiet true p false) (call.run fx cfg) := by
    intro p
    have hpending : Keeps (Quiet true p false) (IndexWriter.applyPendingPackets fx cfg) :=
      Ends.keeps (ends_conseq applyPendingPackets_quiet (fun _ h => h) (fun _ _ h => h.weaken)
        fun _ h => h)
    cases call with
    | abandonSegment ticket =>
      exact unnumbered_keeps (keeps_modify fun w hw => hw.pushPacket _)
    | publishSegmentWith ticket sci packet sortMap freezeGlobal =>
      exact unnumbered_keeps (Ends.keeps (ends_conseq (publishSegmentWith_quiet _ _ _ _ _)
        (fun _ h => h) (fun _ _ h => h.weaken) fun _ h => h))
    | publishDeletesTicket packet =>
      exact unnumbered_keeps (keeps_bind writePending_quiet fun _ =>
        keeps_bind (keeps_modify fun w hw => hw.pushPacket _) fun _ => hpending)
    | _ => cases hpush
  exact (hkeeps w.preparedCommit w hw.late).now

/-- Whether packets wait that a call has left behind: one that failed, or one by
which a concurrent writer pushed them.  `late` is for the latter alone. -/
structure LeftBehind where
  left : Bool
  late : Bool

/-- What is left behind after one more call. -/
def LeftBehind.next (fx : WriterFaults) (cfg : WriterConfig δ κ) (b : LeftBehind)
    (call : WriterCall δ κ) (w : IndexWriter δ κ) : LeftBehind :=
  let (result, w') := call.run fx cfg w
  ⟨(b.left || !succeeded result || call.pushesPacket) && w'.updatesStream.any,
    (b.late || call.pushesPacket) && w'.updatesStream.any⟩

/-- No merge is asked for while packets wait that a call has left behind. -/
def mergesAwaitPackets (fx : WriterFaults) (cfg : WriterConfig δ κ) :
    LeftBehind → List (WriterCall δ κ) → IndexWriter δ κ → Prop
  | _, [], _ => True
  | b, call :: calls, w =>
    (b.left = true → call.asksForMerge b.late = false) ∧
      mergesAwaitPackets fx cfg (b.next fx cfg call w) calls (call.run fx cfg w).2

instance decidableMergesAwaitPackets (fx : WriterFaults) (cfg : WriterConfig δ κ) :
    ∀ (b : LeftBehind) (calls : List (WriterCall δ κ)) (w : IndexWriter δ κ),
      Decidable (mergesAwaitPackets fx cfg b calls w)
  | _, [], _ => isTrue trivial
  | b, call :: calls, w =>
    @instDecidableAnd _ _ inferInstance
      (decidableMergesAwaitPackets fx cfg (b.next fx cfg call w) calls (call.run fx cfg w).2)

theorem quietNow_step {b : LeftBehind} {call : WriterCall δ κ} {w : IndexWriter δ κ}
    (hcall : b.left = true → call.asksForMerge b.late = false)
    (hw : QuietNow b.late (!b.left) w) :
    QuietNow (b.next fx cfg call w).late (!(b.next fx cfg call w).left) (call.run fx cfg w).2 := by
  obtain ⟨left, late⟩ := b
  -- what holds if packets are pending
  have hrun : ∀ r, call.run fx cfg w = r → QuietNow (late || call.pushesPacket)
      (!(left || !succeeded r.1 || call.pushesPacket)) r.2 := by
    rintro ⟨result, w'⟩ hr
    cases hpush : call.pushesPacket with
    | true =>
      have h : QuietNow true false (call.run fx cfg w).2 :=
        WriterCall.run_pushesPacket hpush hw
      rw [hr] at h
      simpa using h
    | false =>
      have hasks : (!left) = true ∨ call.asksForMerge late = false := by
        cases left with
        | false => exact .inl rfl
        | true => exact .inr (hcall rfl)
      have h := call.run_quiet fx cfg hasks hpush w hw
      rw [hr] at h
      rw [Bool.or_false, Bool.or_false]
      rcases result with n | e | -
      · simpa [succeeded] using h
      · simpa [succeeded] using h
      · simpa [succeeded] using h
  have hw' := hrun _ rfl
  rw [LeftBehind.next]
  dsimp only
  cases hany : (call.run fx cfg w).2.updatesStream.any with
  | true => simpa using hw'
  | false =>
    refine ⟨rfl, hw'.entered, fun _ => ?_⟩
    simpa [BufferedUpdatesStream.any] using hany

theorem quietNow_run {calls : List (WriterCall δ κ)} {b : LeftBehind} {w : IndexWriter δ κ}
    (hcalls : mergesAwaitPackets fx cfg b calls w) (hw : QuietNow b.late (!b.left) w) :
    ∀ pending, .mergeEntered pending ∈ (runCalls fx cfg calls w).2.trace → pending = false := by
  induction calls generalizing b w with
  | nil => exact hw.entered
  | cons call calls ih => exact ih hcalls.2 (quietNow_step hcalls.1 hw)

/-- A merge that is asked for once the packet of a failed flush is applied. -/
def mergeAfterRetry : List (WriterCall (List U8) Term) :=
  [.addDocument [1], .commit none [], .addDocument [2], .commit none [],
    .deleteDocumentsByTerm [⟨"id", [1]⟩], .addDocument [3], .flush, .flush,
    .forceMerge 1 [["_1"]]]

end LuceneRust.Index
