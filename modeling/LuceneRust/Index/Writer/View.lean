import LuceneRust.Index.Writer.Frames
import LuceneRust.Index.SegmentDocsSpec
import Mathlib.Data.List.Forall2

/-!
# The segments of a writer's view

* `Remains` compares two lists of segments: the later one has what is left of
  the earlier one.
* `ViewInv` is the invariant: the segments of the writer are well-formed, and
  they have names of their own.
* `WriterCall.run_view`: every call keeps it, but for a merge that is handed in
  from outside.
-/

namespace LuceneRust.Index

open RustSem
open StateHoare

variable {δ κ α : Type}

/-! ## Lists of segments -/

/-- The list `l'` is what is left of `l`: segments evolve, and some are
dropped. -/
def Remains (l l' : List (Segment δ)) : Prop :=
  List.SublistForall₂ (fun s' s => Segment.Evolves s s') l' l

namespace Remains

variable {l l' m k k' : List (Segment δ)}

theorem refl (hl : ∀ s ∈ l, s.WellFormed) : Remains l l := by
  induction l with
  | nil => exact .nil
  | cons s l ih =>
    rw [List.forall_mem_cons] at hl
    exact .cons (.refl hl.1) (ih hl.2)

theorem trans (h : Remains l m) (h' : Remains m k) : Remains l k := by
  have : IsTrans (Segment δ) fun s' s => Segment.Evolves s s' := ⟨fun _ _ _ h h' => h'.trans h⟩
  exact List.SublistForall₂.is_trans.trans _ _ _ h' h

theorem mem (h : Remains l l') {s' : Segment δ} (hs' : s' ∈ l') : ∃ s ∈ l, s.Evolves s' := by
  induction h with
  | nil => cases hs'
  | cons hevolves _ ih =>
    rcases List.mem_cons.1 hs' with rfl | hs'
    · exact ⟨_, List.mem_cons_self, hevolves⟩
    · obtain ⟨s, hs, h⟩ := ih hs'
      exact ⟨s, List.mem_cons_of_mem _ hs, h⟩
  | cons_right _ ih =>
    obtain ⟨s, hs, h⟩ := ih hs'
    exact ⟨s, List.mem_cons_of_mem _ hs, h⟩

theorem wellFormed (h : Remains l l') : ∀ s ∈ l', s.WellFormed := fun s hs => by
  obtain ⟨_, _, hevolves⟩ := h.mem hs
  exact hevolves.wellFormed

theorem names (h : Remains l l') :
    (l'.map (·.segmentName)).Sublist (l.map (·.segmentName)) := by
  induction h with
  | nil => exact List.nil_sublist _
  | cons hevolves _ ih =>
    rw [List.map_cons, List.map_cons, hevolves.segmentName]
    exact ih.cons_cons _
  | cons_right _ ih => exact ih.cons _

theorem append (h : Remains l l') (h' : Remains k k') : Remains (l ++ k) (l' ++ k') := by
  induction h with
  | nil =>
    rename_i l
    induction l with
    | nil => exact h'
    | cons s l ih => exact .cons_right ih
  | cons hevolves _ ih => exact .cons hevolves ih
  | cons_right _ ih => exact .cons_right ih

theorem of_sublist (hl : ∀ s ∈ l, s.WellFormed) (h : l'.Sublist l) : Remains l l' := by
  induction h with
  | slnil => exact .nil
  | cons s _ ih => exact .cons_right (ih fun s hs => hl s (List.mem_cons_of_mem _ hs))
  | cons_cons s _ ih =>
    rw [List.forall_mem_cons] at hl
    exact .cons (.refl hl.1) (ih hl.2)

theorem set (hl : ∀ s ∈ l, s.WellFormed) {i : Nat} {s s' : Segment δ} (hs : l[i]? = some s)
    (hevolves : s.Evolves s') : Remains l (l.set i s') := by
  induction l generalizing i with
  | nil => cases hs
  | cons t l ih =>
    rw [List.forall_mem_cons] at hl
    cases i with
    | zero =>
      obtain rfl : t = s := by simpa using hs
      exact .cons hevolves (refl hl.2)
    | succ i =>
      rw [List.set_cons_succ]
      exact .cons (.refl hl.1) (ih hl.2 (by simpa using hs))

end Remains

/-- Segments with names of their own that have been handed out. -/
structure ViewOk (counter : Nat) (l : List (Segment δ)) : Prop where
  wellFormed : ∀ s ∈ l, s.WellFormed
  names : (l.map (·.segmentName)).Nodup
  numbered : ∀ s ∈ l, ∃ n, n < counter ∧ n < 2 ^ 63 ∧ s.segmentName = IndexWriter.segmentNameOf n

namespace ViewOk

variable {counter counter' : Nat} {l l' : List (Segment δ)}

theorem nil : ViewOk counter ([] : List (Segment δ)) :=
  ⟨(fun _ h => by cases h), .nil, fun _ h => by cases h⟩

theorem mono (h : ViewOk counter l) (hle : counter ≤ counter') : ViewOk counter' l :=
  ⟨h.wellFormed, h.names, fun s hs =>
    let ⟨n, hn, hsmall, hname⟩ := h.numbered s hs
    ⟨n, hn.trans_le hle, hsmall, hname⟩⟩

theorem remains (h : ViewOk counter l) (hl : Remains l l') : ViewOk counter l' := by
  refine ⟨hl.wellFormed, h.names.sublist hl.names, fun s' hs' => ?_⟩
  obtain ⟨s, hs, hevolves⟩ := hl.mem hs'
  rw [hevolves.segmentName]
  exact h.numbered s hs

theorem perm (h : ViewOk counter l) (hl : l.Perm l') : ViewOk counter l' :=
  ⟨fun s hs => h.wellFormed s (hl.mem_iff.2 hs), (hl.map _).nodup_iff.1 h.names,
    fun s hs => h.numbered s (hl.mem_iff.2 hs)⟩

theorem sublist (h : ViewOk counter l) (hl : l'.Sublist l) : ViewOk counter l' :=
  h.remains (.of_sublist h.wellFormed hl)

/-- One more segment, whose name is new. -/
theorem cons (h : ViewOk counter l) {s : Segment δ} (hs : s.WellFormed)
    (hnew : s.segmentName ∉ l.map (·.segmentName))
    (hnumbered : ∃ n, n < counter ∧ n < 2 ^ 63 ∧ s.segmentName = IndexWriter.segmentNameOf n) :
    ViewOk counter (s :: l) where
  wellFormed := List.forall_mem_cons.2 ⟨hs, h.wellFormed⟩
  names := List.nodup_cons.2 ⟨hnew, h.names⟩
  numbered := List.forall_mem_cons.2 ⟨hnumbered, h.numbered⟩

/-- The next name is not one of the view. -/
theorem newName (h : ViewOk counter l) (hlt : counter + 1 < 2 ^ 63) :
    IndexWriter.segmentNameOf counter ∉ l.map (·.segmentName) := by
  intro hmem
  obtain ⟨s, hs, hname⟩ := List.mem_map.1 hmem
  obtain ⟨n, hn, hsmall, hname'⟩ := h.numbered s hs
  have heq : IndexWriter.segmentNameOf n = IndexWriter.segmentNameOf counter :=
    hname'.symm.trans hname
  have hnum := Util.toBase36_inj hsmall (by omega) ((String.append_right_inj "_").1 heq)
  omega

/-- The segment of a name. -/
theorem find (h : ViewOk counter l) {s : Segment δ} (hs : s ∈ l) :
    l.find? (·.segmentName == s.segmentName) = some s := by
  obtain ⟨t, ht⟩ : ∃ t, l.find? (·.segmentName == s.segmentName) = some t := by
    rw [← Option.isSome_iff_exists, List.find?_isSome]
    exact ⟨s, hs, beq_self_eq_true _⟩
  have hname := List.find?_some ht
  rw [ht, Option.some_inj]
  exact List.inj_on_of_nodup_map h.names (List.mem_of_find?_eq_some ht) hs (by simpa using hname)

end ViewOk

namespace IndexWriter

/-! ## Changes of the segments -/

/-- Between `w` and `w'` segments evolved, and some were dropped. -/
structure EditsView (w w' : IndexWriter δ κ) : Prop where
  only : SegmentsOnly w w'
  committed : Remains w.segmentInfos.segments w'.segmentInfos.segments
  flushed : Remains w.flushedSegments w'.flushedSegments

section

variable {fx : WriterFaults} {cfg : WriterConfig δ κ} {w₀ : IndexWriter δ κ}

theorem dropFlagged_sublist (l : List (Segment δ)) (flags : List Bool) :
    (dropFlagged l flags).Sublist l := by
  induction l generalizing flags with
  | nil =>
    cases flags <;> exact .slnil
  | cons s l ih =>
    cases flags with
    | nil => exact .refl _
    | cons flag flags =>
      rw [dropFlagged]
      split
      · exact (ih flags).cons _
      · exact (ih flags).cons_cons _

theorem dropFullyDeletedSegments_edits (cfg : WriterConfig δ κ) {w : IndexWriter δ κ}
    (hw : EditsView w₀ w) (committed flushed : List Bool) :
    EditsView w₀ (w.dropFullyDeletedSegments cfg committed flushed) := by
  refine ⟨hw.only.trans (dropFullyDeletedSegments_only w committed flushed), ?_, ?_⟩
  · rw [dropFullyDeletedSegments]
    split
    · exact hw.committed
    · exact hw.committed.trans (.of_sublist hw.committed.wellFormed (dropFlagged_sublist _ _))
  · rw [dropFullyDeletedSegments]
    split
    · exact hw.flushed
    · exact hw.flushed.trans (.of_sublist hw.flushed.wellFormed (dropFlagged_sublist _ _))

theorem onTarget_edits (t : Target) {x : Op WriterError (SegmentIo δ) α}
    (hx : ∀ s : Segment δ, Keeps (fun io => s.Evolves io.segment) x) :
    Keeps (EditsView w₀) (onTarget t x : WriterOp δ κ α) := by
  intro w hw
  have honly := onTarget_only t x w hw.only
  rw [onTarget] at honly ⊢
  cases htarget : w.getTarget t with
  | none => exact hw
  | some s =>
    rw [htarget] at honly
    rw [getTarget] at htarget
    by_cases ht : t.committed = true
    · rw [if_pos ht] at htarget
      have hwf := hw.committed.wellFormed
      have hevolves := hx s ⟨s, w.calls⟩ (.refl (hwf s (List.mem_of_getElem? htarget)))
      have hset : w.setTarget t (x ⟨s, w.calls⟩).2.segment =
          w.mapCommitted (·.set t.index (x ⟨s, w.calls⟩).2.segment) := if_pos ht
      refine ⟨honly, ?_, ?_⟩
      · dsimp only
        rw [hset]
        exact hw.committed.trans (.set hwf htarget hevolves)
      · dsimp only
        rw [hset]
        exact hw.flushed
    · rw [if_neg ht] at htarget
      have hwf := hw.flushed.wellFormed
      have hevolves := hx s ⟨s, w.calls⟩ (.refl (hwf s (List.mem_of_getElem? htarget)))
      have hset : w.setTarget t (x ⟨s, w.calls⟩).2.segment =
          { w with flushedSegments := w.flushedSegments.set t.index (x ⟨s, w.calls⟩).2.segment } :=
        if_neg ht
      refine ⟨honly, ?_, ?_⟩
      · dsimp only
        rw [hset]
        exact hw.committed
      · dsimp only
        rw [hset]
        exact hw.flushed.trans (.set hwf htarget hevolves)

theorem edits_editInvariant : EditInvariant fx cfg (EditsView w₀) where
  pending _ _ _ _ hw := ⟨hw.only.trans rfl, hw.committed, hw.flushed⟩
  applyDeletes t docs := onTarget_edits t fun _ => SegmentIo.applyDeletes_evolves docs
  writeUpdates t updates := onTarget_edits t fun _ => SegmentIo.writeDocValuesUpdates_evolves updates
  dropFullyDeleted _ _ _ hw := dropFullyDeletedSegments_edits cfg hw _ _

end

/-! ## The invariant -/

/-- No change of a single document waits. -/
def NoTry (w : IndexWriter δ κ) : Prop := w.pendingTryDeletes = [] ∧ w.pendingTryUpdates = []

/-- The segments of the writer are well-formed and have names of their own.
`P` is about the committed ones and the files that are held. -/
structure ViewInv (P : IndexWriter δ κ → Prop) (w : IndexWriter δ κ) : Prop where
  view : ViewOk w.segmentInfos.counter w.liveSegments
  prepared : ∀ infos, w.preparedCommit = some infos → ViewOk infos.counter infos.segments
  rollback : ViewOk w.segmentInfos.counter w.rollbackSegments
  base : P w

/-- A property that stays while segments evolve and are dropped. -/
def Lasts (P : IndexWriter δ κ → Prop) : Prop :=
  ∀ w w', Remains w.segmentInfos.segments w'.segmentInfos.segments → w'.held = w.held →
    P w → P w'

/-- The name is about to be given to a segment. -/
structure NewName (name : String) (w : IndexWriter δ κ) : Prop where
  unused : name ∉ w.liveSegments.map (·.segmentName)
  numbered : ∃ n, n < w.segmentInfos.counter ∧ n < 2 ^ 63 ∧ name = segmentNameOf n

section

variable {fx : WriterFaults} {cfg : WriterConfig δ κ}
  {P : IndexWriter δ κ → Prop} {w w' : IndexWriter δ κ} {name : String}

theorem EditsView.refl (hw : ViewOk w.segmentInfos.counter w.liveSegments) : EditsView w w :=
  ⟨.refl w, .refl fun s hs => hw.wellFormed s (List.mem_append_left _ hs),
    .refl fun s hs => hw.wellFormed s (List.mem_append_right _ hs)⟩

theorem EditsView.live (h : EditsView w w') : Remains w.liveSegments w'.liveSegments :=
  h.committed.append h.flushed

theorem ViewInv.of_edits (h : EditsView w w') (hw : ViewInv P w) (hbase : P w') :
    ViewInv P w' where
  view := by
    rw [congrArg (·.segmentInfos.counter) h.only]
    exact hw.view.remains h.live
  prepared := by
    rw [congrArg (·.preparedCommit) h.only]
    exact hw.prepared
  rollback := by
    rw [congrArg (·.segmentInfos.counter) h.only, congrArg (·.rollbackSegments) h.only]
    exact hw.rollback
  base := hbase

theorem Lasts.of_edits (hP : Lasts P) (h : EditsView w w') (hw : P w) : P w' :=
  hP w w' h.committed (congrArg (·.held) h.only) hw

theorem NewName.of_edits (h : EditsView w w') (hw : NewName name w) : NewName name w' where
  unused hmem := hw.unused (h.live.names.mem hmem)
  numbered := by
    rw [congrArg (·.segmentInfos.counter) h.only]
    exact hw.numbered

/-- If nothing waits, nothing is written. -/
theorem writePending_of_noTry (hw : NoTry w) :
    writePendingTryChanges fx cfg w = (.ok (), w) := by
  have hnone : (w.pendingTryDeletes.isEmpty && w.pendingTryUpdates.isEmpty) = true := by
    rw [hw.1, hw.2]
    rfl
  rw [writePendingTryChanges]
  refine (bind_ok (show Op.get _ w = (.ok true, w) from by rw [Op.get, hnone])).trans ?_
  rfl

theorem writePending_view (hP : Lasts P) : Keeps (ViewInv P) (writePendingTryChanges fx cfg) :=
  fun w hw =>
    have h := edits_editInvariant.writePending_keeps w (EditsView.refl hw.view)
    hw.of_edits h (hP.of_edits h hw.base)

/-- The segments of the state have not changed. -/
structure SameView (w w' : IndexWriter δ κ) : Prop where
  segmentInfos : w'.segmentInfos.segments = w.segmentInfos.segments
  counter : w'.segmentInfos.counter = w.segmentInfos.counter
  flushedSegments : w'.flushedSegments = w.flushedSegments
  preparedCommit : w'.preparedCommit = w.preparedCommit
  rollbackSegments : w'.rollbackSegments = w.rollbackSegments
  held : w'.held = w.held
  noTry : NoTry w → NoTry w'
  calls : w.calls ≤ w'.calls

theorem ViewInv.base_of_eq (hP : Lasts P) (hw : ViewInv P w)
    (hsegments : w'.segmentInfos.segments = w.segmentInfos.segments) (hheld : w'.held = w.held) :
    P w' := by
  refine hP w w' ?_ hheld hw.base
  rw [hsegments]
  exact .refl fun s hs => hw.view.wellFormed s (List.mem_append_left _ hs)

theorem ViewInv.of_same (hP : Lasts P) (h : SameView w w') (hw : ViewInv P w) :
    ViewInv P w' := by
  have hlive : w'.liveSegments = w.liveSegments := by
    rw [liveSegments, liveSegments, h.segmentInfos, h.flushedSegments]
  refine ⟨?_, h.preparedCommit ▸ hw.prepared, ?_, ?_⟩
  · rw [h.counter, hlive]
    exact hw.view
  · rw [h.counter, h.rollbackSegments]
    exact hw.rollback
  · exact hw.base_of_eq hP h.segmentInfos h.held

theorem NewName.of_same (h : SameView w w') (hw : NewName name w) : NewName name w' := by
  have hlive : w'.liveSegments = w.liveSegments := by
    rw [liveSegments, liveSegments, h.segmentInfos, h.flushedSegments]
  refine ⟨?_, ?_⟩
  · rw [hlive]
    exact hw.unused
  · rw [h.counter]
    exact hw.numbered

theorem modify_view (hP : Lasts P) {g : IndexWriter δ κ → IndexWriter δ κ}
    (hg : ∀ w, SameView w (g w)) : Keeps (ViewInv P) (Op.modify g : WriterOp δ κ Unit) :=
  keeps_modify fun w hw => hw.of_same hP (hg w)

theorem ioCall_same (w : IndexWriter δ κ) : SameView w (ioCall fx w).2 :=
  ⟨rfl, rfl, rfl, rfl, rfl, rfl, id, Nat.le_succ w.calls⟩

theorem ioCall_view (hP : Lasts P) : Keeps (ViewInv P) (ioCall fx : WriterOp δ κ Unit) :=
  fun w hw => hw.of_same hP (ioCall_same w)

/-- The next name. -/
theorem newSegmentName_view (hP : Lasts P) :
    Ends (ViewInv P) (newSegmentName : WriterOp δ κ String)
      (fun w name => ViewInv P w ∧ NewName name w) (ViewInv P) := by
  refine ends_get_bind fun w hw => ?_
  by_cases hlt : w.segmentInfos.counter + 1 < 2 ^ 63
  · rw [guardOk_pos hlt]
    rintro w' rfl
    have hle := Nat.le_succ w'.segmentInfos.counter
    refine ⟨⟨hw.view.mono hle, hw.prepared, hw.rollback.mono hle, ?_⟩, ?_, ?_⟩
    · exact hw.base_of_eq hP rfl rfl
    · exact hw.view.newName hlt
    · exact ⟨w'.segmentInfos.counter, Nat.lt_succ_self _, by omega, rfl⟩
  · rw [Outcome.guardOk, if_neg hlt]
    rintro w' rfl
    exact hw

theorem newSegmentName_keeps (hP : Lasts P) :
    Keeps (ViewInv P) (newSegmentName : WriterOp δ κ String) :=
  Ends.keeps (ends_conseq (newSegmentName_view hP) (fun _ h => h) (fun _ _ h => h.1) fun _ h => h)

/-! ## Flushes -/

theorem applyToAll_remains (fx : WriterFaults) (cfg : WriterConfig δ κ)
    (packets : List (FrozenBufferedUpdates κ))
    (maps : List (String × List Nat)) {l : List (Segment δ)} (hl : ∀ s ∈ l, s.WellFormed)
    (calls : Nat) : Remains l (applyToAll fx cfg packets maps l calls).2.1 := by
  induction l generalizing calls with
  | nil => exact .nil
  | cons s l ih =>
    rw [List.forall_mem_cons] at hl
    have hpackets : Keeps (fun io => s.Evolves io.segment)
        (SegmentIo.applyPacketsToSegment fx cfg.toIndexingConfig packets
          (maps.find? (·.1 == s.segmentName))) := SegmentIo.applyPackets_evolves _
    exact .cons (hpackets ⟨s, calls⟩ (.refl hl.1)) (ih hl.2 _)

variable [DecidableEq κ]

theorem applyStreamPackets_view (hP : Lasts P) :
    Keeps (ViewInv P) (applyStreamPackets fx cfg) := by
  refine keeps_get_bind fun w hw => ?_
  refine Ends.state (P := fun t => t = w) (R := ViewInv P) ?_ rfl
  refine ends_ite (fun _ => ends_pure fun t ht => ht ▸ hw) fun _ => ?_
  dsimp only
  refine ends_bind (Q := fun w _ => ViewInv P w) (ends_modify fun t ht => ?_) fun _ => ?_
  · obtain rfl := ht
    have hcommitted := applyToAll_remains fx cfg t.updatesStream.updates
      t.pendingSortMap (l := t.segmentInfos.segments)
      (fun s hs => hw.view.wellFormed s (List.mem_append_left _ hs)) t.calls
    have hflushed := applyToAll_remains fx cfg t.updatesStream.updates
      t.pendingSortMap (l := t.flushedSegments)
      (fun s hs => hw.view.wellFormed s (List.mem_append_right _ hs))
      (applyToAll fx cfg t.updatesStream.updates t.pendingSortMap t.segmentInfos.segments
        t.calls).2.2
    exact ⟨hw.view.remains (hcommitted.append hflushed), hw.prepared, hw.rollback,
      hP t _ hcommitted rfl hw.base⟩
  · refine Keeps.ends (keeps_bind (keeps_attempt keeps_lift) fun result => ?_)
    cases result with
    | ok flags =>
      refine keeps_modify fun w hw => ?_
      have h := dropFullyDeletedSegments_edits cfg (EditsView.refl hw.view) flags.1 flags.2
      exact hw.of_edits h (hP.of_edits h hw.base)
    | error e =>
      exact keeps_bind (modify_view hP fun _ => ⟨rfl, rfl, rfl, rfl, rfl, rfl, id, le_rfl⟩) fun _ =>
        keeps_throw

theorem pushPacket_same (w : IndexWriter δ κ) (packet : Option (FrozenBufferedUpdates κ)) :
    SameView w (w.pushPacket packet) := by
  cases packet <;> exact ⟨rfl, rfl, rfl, rfl, rfl, rfl, id, le_rfl⟩

theorem applyAll_view (hP : Lasts P) : Keeps (ViewInv P) (applyAllDeletesAndUpdates fx cfg) := by
  refine keeps_bind (keeps_modify fun w hw => ?_) fun _ => applyStreamPackets_view hP
  have hfrozen : SameView w w.freezeGlobalBuffer := ⟨rfl, rfl, rfl, rfl, rfl, rfl, id, le_rfl⟩
  exact (hw.of_same hP hfrozen).of_same hP (pushPacket_same _ _)

theorem applyDeletesNow_view (hP : Lasts P) : Keeps (ViewInv P) (applyDeletesNow fx cfg) :=
  keeps_bind (ioCall_view hP) fun _ => keeps_bind (applyAll_view hP) fun _ => (ioCall_view hP)

theorem applyPendingPackets_view (hP : Lasts P) :
    Keeps (ViewInv P) (applyPendingPackets fx cfg) :=
  keeps_bind (writePending_view hP) fun _ =>
    keeps_bind (applyStreamPackets_view hP) fun _ => ioCall_view hP

theorem writePending_newName (hP : Lasts P) :
    Keeps (fun w => ViewInv P w ∧ NewName name w) (writePendingTryChanges fx cfg) := fun w hw =>
  ⟨writePending_view hP w hw.1,
    hw.2.of_edits (edits_editInvariant.writePending_keeps w (.refl hw.1.view))⟩

/-- A new segment joins the view. -/
theorem publishSegmentWith_view (hP : Lasts P) (ticket : SegmentTicket κ) {sci : Segment δ}
    (hsci : ∀ v, (sci.setBufferedDeletesGen v).WellFormed)
    (packet : Option (FrozenBufferedUpdates κ)) (sortMap : Option (List Nat))
    (freezeGlobal : Bool) :
    Ends (fun w => ViewInv P w ∧ NewName sci.segmentName w)
      (publishSegmentWith fx cfg ticket sci packet sortMap freezeGlobal)
      (fun w _ => ViewInv P w) (ViewInv P) := by
  refine keeps_ends_bind (writePending_newName hP) (fun _ h => h.1) fun _ => ?_
  refine keeps_ends_bind (keeps_modify fun w hw => ?_) (fun _ h => h.1) fun _ => ?_
  · exact ⟨hw.1.of_same hP (pushPacket_same _ _), hw.2.of_same (pushPacket_same _ _)⟩
  refine keeps_ends_bind (keeps_modify fun w hw => ?_) (fun _ h => h.1) fun _ => ?_
  · cases sortMap with
    | none => exact hw
    | some map =>
      have hsame : SameView w (w.addSortMap sci.segmentName (some map)) :=
        ⟨rfl, rfl, rfl, rfl, rfl, rfl, id, le_rfl⟩
      exact ⟨hw.1.of_same hP hsame, hw.2.of_same hsame⟩
  refine ends_bind (Q := fun w _ => ViewInv P w) (ends_modify fun w hw => ?_) fun _ => ?_
  · have hname : (sci.setBufferedDeletesGen w.updatesStream.nextGen).segmentName =
        sci.segmentName := by
      rw [Segment.setBufferedDeletesGen]
      split <;> rfl
    refine ⟨?_, hw.1.prepared, hw.1.rollback, hw.1.base_of_eq hP rfl rfl⟩
    have hcons := hw.1.view.cons (hsci w.updatesStream.nextGen) (hname ▸ hw.2.unused)
      (hname ▸ hw.2.numbered)
    refine hcons.perm ?_
    rw [liveSegments, liveSegments]
    change (_ :: (w.segmentInfos.segments ++ w.flushedSegments)).Perm
      (w.segmentInfos.segments ++ (w.flushedSegments ++ [_]))
    rw [← List.append_assoc]
    exact (List.perm_append_singleton _ _).symm
  refine Keeps.ends (keeps_bind (ioCall_view hP) fun _ => keeps_bind ?_ fun _ => ?_)
  · exact keeps_ite (fun _ => applyAll_view hP) fun _ => applyStreamPackets_view hP
  · exact keeps_bind (modify_view hP fun _ => ⟨rfl, rfl, rfl, rfl, rfl, rfl, id, le_rfl⟩)
      fun _ => ioCall_view hP

theorem flushDeletes_view (hP : Lasts P) : Keeps (ViewInv P) (flushDeletes fx cfg) :=
  keeps_bind (applyAll_view hP) fun _ =>
    keeps_bind (modify_view hP fun _ => ⟨rfl, rfl, rfl, rfl, rfl, rfl, id, le_rfl⟩)
      fun _ => (ioCall_view hP)

theorem sortPendingBuffer_view (hP : Lasts P) : Keeps (ViewInv P) (sortPendingBuffer fx cfg) := by
  refine keeps_bind (ioCall_view hP) fun _ => keeps_bind keeps_get fun docs => ?_
  cases cfg.sortPermutation (docs.map (·.content)) with
  | none => exact keeps_pure
  | some map =>
    exact keeps_bind (modify_view hP fun _ => ⟨rfl, rfl, rfl, rfl, rfl, rfl, id, le_rfl⟩)
      fun _ => keeps_pure

omit [DecidableEq κ] in
theorem builtSegment_wellFormed (cfg : WriterConfig δ κ) (name : String) (docs : List (Document δ)) (v : Int) :
    ((builtSegment cfg name docs).setBufferedDeletesGen v).WellFormed := by
  refine wellFormed_written name v fun row hrow => ?_
  obtain ⟨d, -, rfl⟩ := List.mem_map.1 hrow
  rfl

omit [DecidableEq κ] in
theorem beginDeletesTicket_view (hP : Lasts P) :
    Keeps (ViewInv P)
      (beginDeletesTicket : WriterOp δ κ (Option (FrozenBufferedUpdates κ))) :=
  keeps_bind keeps_get fun _ =>
    keeps_bind (modify_view hP fun _ => ⟨rfl, rfl, rfl, rfl, rfl, rfl, id, le_rfl⟩)
      fun _ => keeps_pure

omit [DecidableEq κ] in
theorem beginSegment_view (hP : Lasts P) :
    Ends (ViewInv P) (beginSegment none : WriterOp δ κ (SegmentTicket κ))
      (fun w ticket => ViewInv P w ∧ NewName ticket.segmentName w) (ViewInv P) :=
  ends_bind (beginDeletesTicket_view hP).ends fun _ =>
    ends_bind (newSegmentName_view hP) fun _ => ends_pure fun _ h => h

theorem flushDocuments_view (hP : Lasts P) : Keeps (ViewInv P) (flushDocuments fx cfg) := by
  refine keeps_bind (sortPendingBuffer_view hP) fun sortMap => ?_
  refine Ends.keeps (ends_bind (beginSegment_view hP) fun ticket => ?_)
  have hio : Keeps (fun w => ViewInv P w ∧ NewName ticket.segmentName w)
      (ioCall fx : WriterOp δ κ Unit) := fun w hw =>
    ⟨(ioCall_view hP) w hw.1, hw.2.unused, hw.2.numbered⟩
  refine keeps_ends_bind (keeps_attempt hio) (fun _ h => h.1) fun result => ?_
  cases result with
  | error e =>
    refine ends_conseq (Keeps.ends (I := ViewInv P) ?_) (fun _ h => h.1) (fun _ _ h => h)
      fun _ h => h
    refine keeps_bind (modify_view hP fun w => ?_) fun _ =>
      keeps_bind (keeps_attempt (ioCall_view hP)) fun _ => keeps_throw
    cases sortMap with
    | none => exact pushPacket_same _ _
    | some map =>
      obtain ⟨hinfos, hcounter, hflushed, hprepared, hrollback, hheld, htry, hcalls⟩ :=
        pushPacket_same (w.unsortPendingBuffer map) ticket.global
      exact ⟨hinfos, hcounter, hflushed, hprepared, hrollback, hheld, htry, hcalls⟩
  | ok u =>
    refine keeps_ends_bind keeps_get (fun _ h => h.1) fun docs => ?_
    refine keeps_ends_bind keeps_get (fun _ h => h.1) fun packet => ?_
    refine keeps_ends_bind (keeps_modify fun w hw => ?_) (fun _ h => h.1) fun _ => ?_
    · have hsame : SameView w { w with
          pendingDocs := [], ramBytesUsed := 0, deleteQueue := w.deleteQueue.clearPrivate } :=
        ⟨rfl, rfl, rfl, rfl, rfl, rfl, id, le_rfl⟩
      exact ⟨hw.1.of_same hP hsame, hw.2.of_same hsame⟩
    · refine keeps_ends_bind (writePending_newName hP) (fun _ h => h.1) fun _ => ?_
      have hbuilt := builtSegment_wellFormed cfg ticket.segmentName docs
      exact publishSegmentWith_view hP ticket hbuilt packet sortMap true

theorem flush_view (hP : Lasts P) : Keeps (ViewInv P) (flush fx cfg) := by
  refine keeps_bind (writePending_view hP) fun _ => keeps_unlessPrepared fun w hw _ => ?_
  refine (keeps_bind (ioCall_view hP) fun _ => keeps_bind (ioCall_view hP) fun _ => ?_) w hw
  refine keeps_bind keeps_get fun empty => ?_
  exact keeps_ite (fun _ => flushDeletes_view hP) fun _ => flushDocuments_view hP

theorem maybeFlush_view (hP : Lasts P) : Keeps (ViewInv P) (maybeFlush fx cfg) := by
  refine keeps_bind keeps_get fun w => keeps_ite (fun _ => keeps_pure) fun _ => ?_
  refine keeps_ite (fun _ => flush_view hP) fun _ => ?_
  refine keeps_ite (fun _ => applyDeletesNow_view hP) fun _ => ?_
  refine keeps_ite (fun _ => flush_view hP) fun _ => ?_
  exact keeps_ite (fun _ => flush_view hP) fun _ => keeps_pure

theorem maybeApplyDeletes_view (hP : Lasts P) : Keeps (ViewInv P) (maybeApplyDeletes fx cfg) := by
  refine keeps_bind keeps_get fun w => keeps_ite (fun _ => keeps_pure) fun _ => ?_
  exact keeps_when fun _ => applyDeletesNow_view hP

/-! ## Adds and deletes -/

theorem view_addInvariant (hP : Lasts P) : AddInvariant fx cfg (ViewInv P) (ViewInv P) where
  weaken _ hw := hw
  ioCall := ioCall_view hP
  writePending := writePending_view hP
  buffers _ _ _ _ hw := ⟨hw.view, hw.prepared, hw.rollback, hw.base_of_eq hP rfl rfl⟩
  maybeFlush := (maybeFlush_view hP).ends
  maybeApplyDeletes := (maybeApplyDeletes_view hP).ends

theorem deleteAll_view (hP : Lasts P) : Keeps (ViewInv P) (deleteAll fx : WriterOp δ κ Unit) := by
  refine keeps_unlessPrepared fun w hw _ => ?_
  refine (keeps_bind (keeps_modify fun w hw => ?_) fun _ =>
    keeps_bind (ioCall_view hP) fun _ => ioCall_view hP) w hw
  exact ⟨.nil, hw.prepared, hw.rollback, hP w _ .nil rfl hw.base⟩

theorem deleteDocumentsByQuery_view (hP : Lasts P) (queries : List κ) :
    Keeps (ViewInv P) (deleteDocumentsByQuery fx cfg queries) := by
  refine keeps_bind (writePending_view hP) fun _ => keeps_ite (fun _ => ?_) fun _ => ?_
  · refine keeps_bind keeps_get fun _ => ?_
    refine keeps_bind (modify_view hP fun _ => ⟨rfl, rfl, rfl, rfl, rfl, rfl, id, le_rfl⟩)
      fun _ => ?_
    exact keeps_bind (deleteAll_view hP) fun _ => keeps_pure
  · exact ((view_addInvariant hP).bufferDelete_ends _).keeps

/-! ## Merges -/

omit [DecidableEq κ] in
/-- A merge replaces its sources by the merged segment. -/
theorem applyMergeChanges_perm (names : List String) (merged : Option (Segment δ))
    (l : List (Segment δ)) :
    (applyMergeChanges names merged l).Perm
      (merged.toList ++ l.filter fun s => !names.contains s.segmentName) := by
  have hreplace : ∀ merged : Option (Segment δ),
      ((replaceSources names l merged).2.toList ++ (replaceSources names l merged).1).Perm
        (merged.toList ++ l.filter fun s => !names.contains s.segmentName) := by
    induction l with
    | nil =>
      intro merged
      exact .refl _
    | cons s l ih =>
      intro merged
      rw [replaceSources, List.filter_cons]
      by_cases hs : names.contains s.segmentName = true
      · rw [if_pos hs, hs]
        have hnone := ih none
        dsimp only
        rw [← List.append_assoc]
        refine (List.perm_append_comm.append_right _).trans ?_
        rw [List.append_assoc]
        exact hnone.append_left merged.toList
      · rw [if_neg hs, if_pos (by simpa using hs)]
        refine (List.perm_middle).trans ?_
        exact ((ih merged).cons s).trans List.perm_middle.symm
  exact hreplace merged

omit [DecidableEq κ] in
theorem ViewOk_merge {counter : Nat} {l k : List (Segment δ)} (hl : ViewOk counter (l ++ k))
    (names : List String) {merged : Option (Segment δ)}
    (hmerged : ∀ m ∈ merged, m.WellFormed ∧ m.segmentName ∉ (l ++ k).map (·.segmentName)
      ∧ ∃ n, n < counter ∧ n < 2 ^ 63 ∧ m.segmentName = segmentNameOf n) :
    ViewOk counter (applyMergeChanges names merged l ++ k) := by
  have hsub : (l.filter (fun s => !names.contains s.segmentName) ++ k).Sublist (l ++ k) :=
    List.filter_sublist.append_right k
  have hperm := (applyMergeChanges_perm names merged l).append_right k
  rw [List.append_assoc] at hperm
  refine ViewOk.perm ?_ hperm.symm
  cases merged with
  | none => exact hl.sublist hsub
  | some m =>
    obtain ⟨hm, hnew, hnumbered⟩ := hmerged m rfl
    exact (hl.sublist hsub).cons hm (fun h => hnew ((hsub.map _).mem h)) hnumbered

/-- The invariant of the segments alone. -/
abbrev Viewed (w : IndexWriter δ κ) : Prop := ViewInv (fun _ => True) w

omit [DecidableEq κ] in
theorem lasts_true : Lasts fun _ : IndexWriter δ κ => True := fun _ _ _ _ _ => trivial

omit [DecidableEq κ] in
theorem SameView.trans {w'' : IndexWriter δ κ} (h : SameView w w') (h' : SameView w' w'') :
    SameView w w'' :=
  ⟨h'.1.trans h.1, h'.2.trans h.2, h'.3.trans h.3, h'.4.trans h.4, h'.5.trans h.5,
    h'.6.trans h.6, fun ht => h'.7 (h.7 ht), h.8.trans h'.8⟩

omit [DecidableEq κ] in
theorem ioCall_sameView {w₀ : IndexWriter δ κ} :
    Keeps (SameView w₀) (ioCall fx : WriterOp δ κ Unit) :=
  fun w hw => hw.trans (ioCall_same w)

omit [DecidableEq κ] in
theorem finishPending_sameView {w₀ : IndexWriter δ κ} (infos : WriterInfos δ) :
    Keeps (SameView w₀) (finishPending fx infos : WriterOp δ κ Unit) :=
  keeps_bind ioCall_sameView fun _ =>
    keeps_bind (keeps_modify fun _ hw => hw.trans ⟨rfl, rfl, rfl, rfl, rfl, rfl, id, le_rfl⟩)
      fun _ =>
      ioCall_sameView

omit [DecidableEq κ] in
theorem commitSegments_view {segments : List (Segment δ)} (hw : Viewed w)
    (hsegments : ViewOk w.segmentInfos.counter (segments ++ w.flushedSegments)) :
    Viewed (commitSegments fx segments w).2 := by
  have hsame : SameView w w := ⟨rfl, rfl, rfl, rfl, rfl, rfl, id, le_rfl⟩
  have hviewed : ∀ w' : IndexWriter δ κ, SameView w w' → Viewed w' :=
    fun w' h => hw.of_same lasts_true h
  have hio : Keeps (SameView w) (ioCall fx : WriterOp δ κ Unit) := ioCall_sameView
  refine Ends.state (P := SameView w) (R := Viewed) ?_ hsame
  refine ends_get_bind fun w₁ hw₁ => ?_
  refine ends_conseq (P := SameView w) (Q := fun w _ => Viewed w) (E := Viewed) ?_
    (fun w' hw' => hw' ▸ hw₁) (fun _ _ h => h) fun _ h => h
  refine keeps_ends_bind hio hviewed fun _ => ?_
  refine keeps_ends_bind (keeps_attempt (keeps_bind hio fun _ => finishPending_sameView _)) hviewed
    fun written => ?_
  refine keeps_ends_bind (keeps_modify fun w' hw' => ?_) hviewed fun _ => ?_
  · exact hw'.trans ⟨rfl, rfl, rfl, rfl, rfl, rfl, id, le_rfl⟩
  refine keeps_ends_bind keeps_ofExcept hviewed fun _ => ?_
  refine ends_bind (Q := fun w _ => Viewed w) (ends_modify fun w' hw' => ?_) fun _ =>
    Keeps.ends (keeps_bind (ioCall_view lasts_true) fun _ => ioCall_view lasts_true)
  refine ⟨?_, ?_, ?_, trivial⟩
  · rw [liveSegments]
    dsimp only [id]
    rw [hw₁.counter, hw'.flushedSegments]
    exact hsegments
  · dsimp only
    rw [hw'.preparedCommit]
    exact hw.prepared
  · dsimp only [id]
    rw [hw₁.counter]
    exact hsegments.sublist (List.sublist_append_left _ _)

/-- The merged segment is ready to be published. -/
def Mergeable (merged : Option (Segment δ)) (w : IndexWriter δ κ) : Prop :=
  ∀ m ∈ merged, m.WellFormed ∧ NewName m.segmentName w

theorem commitMerge_view (caller : String) (names : List String) (merged : Option (Segment δ)) :
    Ends (fun w => Viewed w ∧ Mergeable merged w)
      (commitMerge fx caller names merged : WriterOp δ κ Unit) (fun w _ => Viewed w) Viewed := by
  refine ends_unlessPrepared ?_ fun w hw => hw.1
  refine ends_bind (Q := fun w _ => Viewed w ∧ Mergeable merged w) (ends_modify fun w hw => ?_)
    fun _ => ?_
  · have hsame : SameView w (w.record (.mergeEntered w.updatesStream.any)) :=
      ⟨rfl, rfl, rfl, rfl, rfl, rfl, id, le_rfl⟩
    exact ⟨hw.1.1.of_same lasts_true hsame, fun m hm =>
      ⟨(hw.1.2 m hm).1, (hw.1.2 m hm).2.of_same hsame⟩⟩
  refine ends_get_bind fun w hw => ?_
  have hok := ViewOk_merge hw.1.view names fun m hm =>
    ⟨(hw.2 m hm).1, (hw.2 m hm).2.unused, (hw.2 m hm).2.numbered⟩
  refine ends_ite (fun _ => ?_) fun _ => ?_
  · refine ends_bind (Q := fun w _ => Viewed w) (ends_modify fun w' hw' => ?_) fun _ =>
      (ioCall_view lasts_true).ends
    rw [hw']
    exact ⟨hok, hw.1.prepared, hw.1.rollback, trivial⟩
  · refine ends_get_bind fun w' hw' => ?_
    rw [hw']
    exact ends_of_state (commitSegments_view hw.1 hok)

theorem writePending_mergeable (merged : Option (Segment δ)) :
    Keeps (fun w => Viewed w ∧ Mergeable merged w) (writePendingTryChanges fx cfg) := fun w hw =>
  ⟨writePending_view lasts_true w hw.1, fun m hm => ⟨(hw.2 m hm).1,
    (hw.2 m hm).2.of_edits (edits_editInvariant.writePending_keeps w (.refl hw.1.view))⟩⟩

theorem applyMerge_view (names : List String) (merged : Segment δ) :
    Ends (fun w => Viewed w ∧ Mergeable (some merged) w) (applyMerge fx cfg names merged)
      (fun w _ => Viewed w) Viewed :=
  keeps_ends_bind (writePending_mergeable _) (fun _ h => h.1) fun _ => commitMerge_view _ _ _

theorem dropMerge_view (names : List String) : Keeps Viewed (dropMerge fx cfg names) := by
  refine keeps_bind (writePending_view lasts_true) fun _ => Ends.keeps ?_
  exact ends_conseq (commitMerge_view _ _ none)
    (fun w hw => ⟨hw, fun _ hm => (Option.not_mem_none _ hm).elim⟩) (fun _ _ h => h) fun _ h => h

omit [DecidableEq κ] in
theorem releaseFiles_view (files : List String) :
    Keeps Viewed (releaseFiles fx files : WriterOp δ κ Unit) :=
  keeps_bind (keeps_modify fun _ hw => ⟨hw.view, hw.prepared, hw.rollback, trivial⟩) fun _ =>
    ioCall_view lasts_true

theorem abortMerge_view (plan : MergePlan δ) : Keeps Viewed (abortMerge fx cfg plan) :=
  keeps_bind (writePending_view lasts_true) fun _ => releaseFiles_view _

theorem beginMerge_view (names : List String) :
    Ends Viewed (beginMerge fx cfg names)
      (fun w plan => Viewed w ∧ NewName plan.mergedName w) Viewed := by
  refine ends_bind (writePending_view lasts_true).ends fun _ => ?_
  refine ends_bind (Q := fun w _ => Viewed w) (ends_modify fun w hw => ?_) fun _ => ?_
  · exact ⟨hw.view, hw.prepared, hw.rollback, trivial⟩
  refine ends_bind (newSegmentName_view lasts_true) fun name => ?_
  have hviewed : ∀ w : IndexWriter δ κ, Viewed w ∧ NewName name w → Viewed w := fun _ h => h.1
  refine ends_bind (keeps_get.ends_weaken hviewed) fun _ => ?_
  refine ends_bind (keeps_lift.ends_weaken hviewed) fun sources => ?_
  refine ends_bind (Keeps.ends_weaken (fun w hw => ?_) hviewed) fun _ => ?_
  · exact ⟨hw.1.of_same lasts_true (ioCall_same w), hw.2.of_same (ioCall_same w)⟩
  refine ends_bind (Q := fun w _ => Viewed w ∧ NewName name w) (ends_modify fun w hw => ?_)
    fun _ => ends_pure fun _ h => h
  exact ⟨⟨hw.1.view, hw.1.prepared, hw.1.rollback, trivial⟩, hw.2.unused, hw.2.numbered⟩

omit [DecidableEq κ] in
theorem carriedDeletes_sameView {w₀ : IndexWriter δ κ} (sources : List (Segment δ))
    (maps : List (List Int)) (sourceLive : List (List Bool)) :
    Keeps (SameView w₀) (carriedDeletes fx sources maps sourceLive :
      WriterOp δ κ (Option (List Nat))) := by
  induction sources generalizing maps sourceLive with
  | nil => exact keeps_pure
  | cons snapshot sources ih =>
    refine keeps_bind keeps_get fun current => ?_
    split
    · exact keeps_pure
    · refine keeps_bind (keeps_ite (fun _ => keeps_pure) fun _ => ?_) fun _ =>
        keeps_bind (ih _ _) fun _ => keeps_pure
      exact keeps_bind ioCall_sameView fun _ => keeps_pure

/-- What is ready to be published stays so. -/
theorem keeps_mergeable {x : WriterOp δ κ α} (hx : ∀ w₀, Keeps (SameView w₀) x)
    (merged : Option (Segment δ)) : Keeps (fun w => Viewed w ∧ Mergeable merged w) x :=
  fun w hw =>
    have h := hx w w ⟨rfl, rfl, rfl, rfl, rfl, rfl, id, le_rfl⟩
    ⟨hw.1.of_same lasts_true h, fun m hm => ⟨(hw.2 m hm).1, (hw.2 m hm).2.of_same h⟩⟩

theorem deleteCarried_view {info : Segment δ} (carried : List Nat) :
    Ends (fun w => Viewed w ∧ Mergeable (some info) w)
      (deleteCarried fx info carried : WriterOp δ κ (Segment δ))
      (fun w info' => Viewed w ∧ Mergeable (some info') w) Viewed := by
  refine ends_ite (fun _ => ends_pure fun _ h => h) fun _ => ?_
  refine ends_bind (Q := fun w info' => Viewed w ∧ Mergeable (some info') w)
    (ends_lift (fun _ h => h.1) fun w info' hw hdel => ⟨hw.1, fun m hm => ?_⟩) fun info' => ?_
  · obtain rfl := Option.some_inj.1 hm
    obtain ⟨hwf, hnew⟩ := hw.2 info rfl
    have hevolves := deletedSegment_evolves hwf hdel
    exact ⟨hevolves.wellFormed, hevolves.segmentName ▸ hnew⟩
  · refine ends_bind ((keeps_mergeable (fun _ => ioCall_sameView) _).ends_weaken fun _ h => h.1)
      fun _ => ends_pure fun _ h => h

/-- The segment that an outcome publishes. -/
def MergeOutcome.published : MergeOutcome δ → Option (Segment δ)
  | .allDeleted => none
  | .merged m _ => some m.info

theorem finishMergeHolding_view (plan : MergePlan δ) (outcome : MergeOutcome δ) :
    Ends (fun w => Viewed w ∧ Mergeable outcome.published w)
      (finishMergeHolding fx cfg plan outcome) (fun w _ => Viewed w) Viewed := by
  cases outcome with
  | allDeleted =>
    refine ends_conseq (Keeps.ends (I := Viewed) ?_) (fun _ h => h.1) (fun _ _ h => h) fun _ h => h
    exact keeps_bind (dropMerge_view _) fun _ => keeps_pure
  | merged merged sourceLive =>
    refine ends_bind ((keeps_mergeable (fun _ => ioCall_sameView) _).ends_weaken fun _ h => h.1)
      fun _ => ?_
    refine ends_bind ((keeps_mergeable (fun _ => carriedDeletes_sameView _ _ _) _).ends_weaken
      fun _ h => h.1) fun carried => ?_
    cases carried with
    | none =>
      refine ends_conseq (Keeps.ends (I := Viewed) ?_) (fun _ h => h.1) (fun _ _ h => h)
        fun _ h => h
      exact keeps_bind (ioCall_view lasts_true) fun _ => keeps_pure
    | some carried =>
      refine ends_bind (deleteCarried_view carried) fun info => ?_
      exact ends_bind (applyMerge_view _ _) fun _ => ends_pure fun _ h => h

theorem finishMerge_view (plan : MergePlan δ) (outcome : MergeOutcome δ) :
    Ends (fun w => Viewed w ∧ Mergeable outcome.published w)
      (finishMerge fx cfg plan outcome) (fun w _ => Viewed w) Viewed := by
  refine ends_bind ((writePending_mergeable _).ends_weaken fun _ h => h.1) fun _ => ?_
  refine ends_bind (Q := fun w _ => Viewed w)
    (ends_attempt (finishMergeHolding_view plan outcome) fun _ _ h => h) fun result => ?_
  refine Keeps.ends (keeps_bind (keeps_attempt (releaseFiles_view _)) fun _ => ?_)
  exact keeps_bind keeps_ofExcept fun _ => keeps_bind keeps_ofExcept fun _ => keeps_pure

theorem executeMerge_view (names : List String) : Keeps Viewed (executeMerge fx cfg names) := by
  refine keeps_bind (writePending_view lasts_true) fun _ => Ends.keeps ?_
  refine ends_bind (beginMerge_view names) fun plan => ?_
  have hio : Keeps (fun w => Viewed w ∧ NewName plan.mergedName w)
      (ioCall fx : WriterOp δ κ Unit) := fun w hw =>
    ⟨hw.1.of_same lasts_true (ioCall_same w), hw.2.of_same (ioCall_same w)⟩
  refine ends_bind ((keeps_attempt hio).ends_weaken fun _ h => h.1) fun result => ?_
  cases result with
  | ok u =>
    refine ends_conseq (finishMerge_view plan _) (fun w hw => ⟨hw.1, fun m hm => ?_⟩)
      (fun _ _ h => h) fun _ h => h
    rw [mergeOutcome] at hm
    split at hm
    · exact (Option.not_mem_none _ hm).elim
    · obtain rfl := Option.some_inj.1 hm
      refine ⟨wellFormed_written _ _ fun row hrow => ?_, hw.2⟩
      obtain ⟨i, -, hi⟩ := List.mem_filterMap.1 hrow
      obtain ⟨s, -, hs⟩ := List.mem_flatMap.1 (List.mem_of_getElem? hi)
      exact (List.mem_filter.1 hs).2
  | error e =>
    refine ends_conseq (Keeps.ends (I := Viewed) ?_) (fun _ h => h.1) (fun _ _ h => h) fun _ h => h
    exact keeps_bind (keeps_attempt (abortMerge_view _)) fun _ => keeps_throw

theorem runMerges_view (groups : List (List String)) : Keeps Viewed (runMerges fx cfg groups) := by
  refine keeps_bind (keeps_forM fun names _ => ?_) fun _ => ioCall_view lasts_true
  exact keeps_bind (ioCall_view lasts_true) fun _ =>
    keeps_bind (executeMerge_view _) fun _ => keeps_pure

omit [DecidableEq κ] in
theorem withMergesByCaller_view {x : WriterOp δ κ Unit} (hx : Keeps Viewed x) :
    Keeps Viewed (withMergesByCaller x) := by
  refine keeps_bind keeps_get fun _ => ?_
  refine keeps_bind (modify_view lasts_true fun _ => ⟨rfl, rfl, rfl, rfl, rfl, rfl, id, le_rfl⟩)
    fun _ => ?_
  refine keeps_bind (keeps_attempt hx) fun _ => ?_
  refine keeps_bind (modify_view lasts_true fun _ => ⟨rfl, rfl, rfl, rfl, rfl, rfl, id, le_rfl⟩)
    fun _ => ?_
  exact keeps_ofExcept

theorem mergeOnFullFlush_view (merges : Option (List (List String))) :
    Keeps Viewed (mergeOnFullFlush fx cfg merges) := by
  refine keeps_bind (writePending_view lasts_true) fun _ => ?_
  cases merges with
  | none => exact keeps_pure
  | some groups =>
    refine keeps_bind (keeps_modify fun w hw => ⟨?_, hw.prepared, hw.rollback, trivial⟩) fun _ => ?_
    · have hlive : (foldFlushedSegments w).liveSegments = w.liveSegments := List.append_nil _
      rw [hlive]
      exact hw.view
    refine keeps_bind (ioCall_view lasts_true) fun _ => withMergesByCaller_view ?_
    refine keeps_forM fun _ _ => ?_
    exact keeps_bind (executeMerge_view _) fun _ => keeps_pure

/-! ## Commits -/

theorem prepareCommit_view (merges : Option (List (List String))) :
    Keeps Viewed (prepareCommit fx cfg merges) := by
  have hio : Keeps Viewed (ioCall fx : WriterOp δ κ Unit) := ioCall_view lasts_true
  refine keeps_bind (writePending_view lasts_true) fun _ => ?_
  refine keeps_bind (writePending_view lasts_true) fun _ => keeps_unlessPrepared fun w hw _ => ?_
  refine Ends.state (P := Viewed) (R := Viewed) ?_ hw
  refine ends_bind (Q := fun w _ => Viewed w) (ends_modify fun w hw => ?_) fun _ => ?_
  · exact ⟨hw.view, hw.prepared, hw.rollback, trivial⟩
  refine ends_bind hio.ends fun _ => ends_bind (flush_view lasts_true).ends fun _ => ?_
  refine ends_bind (mergeOnFullFlush_view merges).ends fun _ => ends_get_bind fun w hw => ?_
  -- the segments that the commit names
  have hinfos : ViewOk (nextInfos w).counter (nextInfos w).segments := hw.view
  generalize nextInfos w = infos at hinfos ⊢
  refine ends_conseq (Keeps.ends (I := Viewed) ?_) (fun w' hw' => hw' ▸ hw) (fun _ _ h => h)
    fun _ h => h
  refine keeps_bind hio fun _ => keeps_bind keeps_get fun w => keeps_ite (fun _ => ?_) fun _ => ?_
  · exact keeps_modify fun w hw => ⟨hw.view, hw.prepared, hw.rollback, trivial⟩
  refine keeps_bind hio fun _ => keeps_bind (keeps_attempt hio) fun written => ?_
  refine keeps_bind (keeps_modify fun w hw => ⟨hw.view, hw.prepared, hw.rollback, trivial⟩)
    fun _ => keeps_bind keeps_ofExcept fun _ => keeps_modify fun w hw => ?_
  refine ⟨hw.view, fun infos' h => ?_, hw.rollback, trivial⟩
  obtain rfl := Option.some_inj.1 h
  exact hinfos

theorem finishCommit_view (groups : List (List String)) :
    Keeps Viewed (finishCommit fx cfg groups) := by
  have hio : Keeps Viewed (ioCall fx : WriterOp δ κ Unit) := ioCall_view lasts_true
  refine keeps_bind (writePending_view lasts_true) fun _ => keeps_get_bind fun w hw => ?_
  cases hp : w.preparedCommit with
  | none =>
    have hkeep : Keeps Viewed (do
        let nothing ← Op.get (·.preparedNothing)
        Op.modify fun w => { w with preparedNothing := false }
        if nothing then pure () else Op.throw .noPreparedCommit : WriterOp δ κ Unit) := by
      refine keeps_bind keeps_get fun nothing => ?_
      refine keeps_bind (keeps_modify fun w hw => ?_) fun _ =>
        keeps_ite (fun _ => keeps_pure) fun _ => keeps_throw
      exact ⟨hw.view, hw.prepared, hw.rollback, trivial⟩
    exact hkeep w hw
  | some infos =>
    have hinfos := hw.prepared infos hp
    refine (keeps_bind hio fun _ => keeps_bind (keeps_modify fun w hw => ?_) fun _ => ?_) w hw
    · exact ⟨hw.view, (fun _ h => by cases h), hw.rollback, trivial⟩
    refine keeps_bind (keeps_attempt fun w hw => ?_) fun result => ?_
    · exact hw.of_same lasts_true
        (finishPending_sameView infos w ⟨rfl, rfl, rfl, rfl, rfl, rfl, id, le_rfl⟩)
    cases result with
    | error e =>
      refine keeps_bind (keeps_modify fun w hw => ?_) fun _ => keeps_throw
      refine ⟨hw.view, fun infos' h => ?_, hw.rollback, trivial⟩
      obtain rfl := Option.some_inj.1 h
      exact hinfos
    | ok u =>
      refine keeps_bind (keeps_modify fun w hw => ⟨?_, hw.prepared, hinfos, trivial⟩) fun _ => ?_
      · have hlive : (installed infos w).liveSegments = infos.segments := List.append_nil _
        rw [hlive]
        exact hinfos
      refine keeps_bind (keeps_bind hio fun _ => hio) fun _ => keeps_bind keeps_get fun _ => ?_
      exact keeps_when fun _ => runMerges_view groups

omit [DecidableEq κ] in
theorem rollbackState_view : Keeps Viewed (rollbackState fx : WriterOp δ κ Unit) := by
  refine keeps_bind (ioCall_view lasts_true) fun _ => keeps_modify fun w hw => ?_
  have hlive : (rolledBack w).liveSegments = w.rollbackSegments := List.append_nil _
  refine ⟨?_, (fun _ h => by cases h), hw.rollback, trivial⟩
  rw [hlive]
  exact hw.rollback

/-! ## Other calls -/

omit [DecidableEq κ] in
theorem deleteTermFrom_view {w₀ : IndexWriter δ κ} (term : Term) (sources : List String)
    {segments : List (Segment δ)} (hwf : ∀ s ∈ segments, s.WellFormed) :
    Ends (SameView w₀) (deleteTermFrom fx cfg term sources segments)
      (fun w updated => SameView w₀ w ∧ Remains segments updated) (SameView w₀) := by
  induction segments with
  | nil => exact ends_pure fun w hw => ⟨hw, .nil⟩
  | cons s segments ih =>
    rw [List.forall_mem_cons] at hwf
    refine ends_bind (Q := fun w s' => SameView w₀ w ∧ s.Evolves s') ?_ fun s' => ?_
    · refine ends_ite (fun _ => ?_) fun _ => ends_pure fun w hw => ⟨hw, .refl hwf.1⟩
      refine ends_bind ioCall_sameView.ends fun _ => ends_lift (fun _ h => h) fun w s' hw hdel => ?_
      exact ⟨hw, deletedSegment_evolves hwf.1 hdel⟩
    · refine ends_bind (Q := fun w updated => (SameView w₀ w ∧ Remains segments updated)
        ∧ s.Evolves s') ?_ fun updated => ends_pure fun w hw => ⟨hw.1.1, .cons hw.2 hw.1.2⟩
      intro w hw
      exact ends_conseq (ih hwf.2) (fun _ h => h) (fun _ _ h => ⟨h, hw.2⟩) (fun _ h => h) w hw.1

theorem updateDocumentWithSources_view (sources : List String) (term : Term) (doc : δ) :
    Keeps Viewed (updateDocumentWithSources fx cfg sources term doc) := by
  refine keeps_bind (writePending_view lasts_true) fun _ => keeps_unlessPrepared fun w hw _ => ?_
  refine Ends.state (P := Viewed) (R := Viewed) ?_ hw
  refine ends_bind (newSegmentName_view lasts_true) fun name => ends_get_bind fun w₁ hw₁ => ?_
  have hviewed : ∀ w : IndexWriter δ κ, SameView w₁ w → Viewed w :=
    fun _ h => hw₁.1.of_same lasts_true h
  have hwf : ∀ s ∈ w₁.segmentInfos.segments, s.WellFormed := fun s hs =>
    hw₁.1.view.wellFormed s (List.mem_append_left _ hs)
  refine ends_bind (ends_conseq (deleteTermFrom_view term sources hwf)
    (fun w' hw' => hw' ▸ ⟨rfl, rfl, rfl, rfl, rfl, rfl, id, le_rfl⟩) (fun _ _ h => h) hviewed)
    fun updated => ?_
  refine ends_bind (Q := fun w _ => SameView w₁ w ∧ Remains w₁.segmentInfos.segments updated)
    (fun w hw => ?_) fun _ => fun w hw => ?_
  · exact ends_conseq (ioCall_sameView.ends) (fun _ h => h) (fun _ _ h => ⟨h, hw.2⟩) hviewed w hw.1
  · have hlive : Remains w₁.liveSegments (updated ++ w.flushedSegments) := by
      rw [hw.1.flushedSegments]
      refine hw.2.append (.refl fun s hs => ?_)
      exact hw₁.1.view.wellFormed s (List.mem_append_right _ hs)
    have hnew : name ∉ (updated ++ w.flushedSegments).map (·.segmentName) :=
      fun h => hw₁.2.unused (hlive.names.mem h)
    have hcons := (hw₁.1.view.remains hlive).cons
      (builtSegment_wellFormed cfg name [⟨doc, 0, 0⟩] (-1)) hnew hw₁.2.numbered
    refine ends_of_state (commitSegments_view (hviewed w hw.1) ?_) w rfl
    rw [hw.1.counter]
    refine hcons.perm ?_
    rw [List.append_assoc]
    exact List.perm_middle.symm

theorem deleteDocumentsWithSources_view (sources : List String) (term : Term) :
    Keeps Viewed (deleteDocumentsWithSources fx cfg sources term) := by
  refine keeps_bind (writePending_view lasts_true) fun _ => keeps_unlessPrepared fun w hw _ => ?_
  refine Ends.state (P := Viewed) (R := Viewed) ?_ hw
  refine ends_get_bind fun w₁ hw₁ => ?_
  have hwf : ∀ s ∈ w₁.segmentInfos.segments, s.WellFormed := fun s hs =>
    hw₁.view.wellFormed s (List.mem_append_left _ hs)
  refine ends_bind (ends_conseq (deleteTermFrom_view term sources hwf)
    (fun w' hw' => hw' ▸ ⟨rfl, rfl, rfl, rfl, rfl, rfl, id, le_rfl⟩) (fun _ _ h => h)
    fun _ h => hw₁.of_same lasts_true h) fun updated w hw => ?_
  refine ends_of_state (commitSegments_view (hw₁.of_same lasts_true hw.1) ?_) w rfl
  rw [hw.1.counter, hw.1.flushedSegments]
  refine hw₁.view.remains (hw.2.append (.refl fun s hs => ?_))
  exact hw₁.view.wellFormed s (List.mem_append_right _ hs)

/-- The copies have names that nothing else has. -/
theorem copySegments_view {sources : List (Segment δ)} (hsources : ∀ s ∈ sources, s.WellFormed)
    (k : List (Segment δ)) :
    Ends (fun w => Viewed w ∧ ViewOk w.segmentInfos.counter (w.liveSegments ++ k))
      (copySegments fx sources : WriterOp δ κ (List (Segment δ)))
      (fun w added => Viewed w ∧ ViewOk w.segmentInfos.counter (w.liveSegments ++ (k ++ added)))
      Viewed := by
  induction sources generalizing k with
  | nil => exact ends_pure fun w hw => by rwa [List.append_nil]
  | cons s sources ih =>
    rw [List.forall_mem_cons] at hsources
    refine ends_bind (Q := fun w name => Viewed w ∧ ViewOk w.segmentInfos.counter
      (w.liveSegments ++ (k ++ [{ s with segmentName := name, bufferedDeletesGen := -1 }])))
      (ends_get_bind fun w hw => ?_) fun name => ?_
    · by_cases hlt : w.segmentInfos.counter + 1 < 2 ^ 63
      · rw [guardOk_pos hlt]
        rintro w' rfl
        have hle := Nat.le_succ w'.segmentInfos.counter
        refine ⟨⟨hw.1.view.mono hle, hw.1.prepared, hw.1.rollback.mono hle, trivial⟩, ?_⟩
        have hs := hsources.1
        have hcons := (hw.2.mono hle).cons
          (s := { s with segmentName := segmentNameOf w'.segmentInfos.counter,
                         bufferedDeletesGen := -1 })
          ⟨hs.1, hs.2, hs.3, hs.4, hs.5, hs.6, hs.7⟩ (hw.2.newName hlt)
          ⟨w'.segmentInfos.counter, Nat.lt_succ_self _, by omega, rfl⟩
        refine hcons.perm ?_
        rw [← List.append_assoc]
        exact (List.perm_append_singleton _ _).symm
      · rw [Outcome.guardOk, if_neg hlt]
        rintro w' rfl
        exact hw.1
    · refine ends_bind (Keeps.ends_weaken (fun w hw => ?_) fun _ h => h.1) fun _ => ?_
      · exact ⟨hw.1.of_same lasts_true (ioCall_same w), hw.2⟩
      refine ends_bind (ih hsources.2 _) fun rest => ends_pure fun w hw => ?_
      rwa [List.append_assoc] at hw

theorem copySegmentsIn_view {sources : List (Segment δ)}
    (hsources : ∀ s ∈ sources, s.WellFormed) :
    Ends Viewed (copySegmentsIn fx cfg sources)
      (fun w added => Viewed w ∧ ViewOk w.segmentInfos.counter (w.liveSegments ++ added)) Viewed := by
  refine ends_unlessPrepared ?_ fun _ h => h
  refine ends_conseq (P := Viewed) ?_ (fun _ h => h.1) (fun _ _ h => h) fun _ h => h
  refine ends_bind (flush_view lasts_true).ends fun _ => ends_bind (ioCall_view lasts_true).ends
    fun _ => ends_bind keeps_get.ends fun live => ?_
  refine ends_ite (fun _ => ends_throw fun _ h => h) fun _ => ?_
  refine ends_conseq (copySegments_view hsources []) (fun w hw => ⟨hw, ?_⟩) (fun _ _ h => h)
    fun _ h => h
  rw [List.append_nil]
  exact hw.view

omit [DecidableEq κ] in
/-- The copies join the committed segments. -/
theorem Viewed.append (hw : Viewed w) {added : List (Segment δ)}
    (hadded : ViewOk w.segmentInfos.counter (w.liveSegments ++ added)) :
    Viewed (w.mapCommitted (· ++ added)) := by
  refine ⟨hadded.perm ?_, hw.prepared, hw.rollback, trivial⟩
  change ((w.segmentInfos.segments ++ w.flushedSegments) ++ added).Perm
    ((w.segmentInfos.segments ++ added) ++ w.flushedSegments)
  rw [List.append_assoc, List.append_assoc]
  exact List.perm_append_comm.append_left _

omit [DecidableEq κ] in
theorem nextSeqNo_view : Keeps Viewed (nextSeqNo : WriterOp δ κ Nat) :=
  keeps_bind keeps_get fun _ => keeps_bind
    (modify_view lasts_true fun _ => ⟨rfl, rfl, rfl, rfl, rfl, rfl, id, le_rfl⟩) fun _ => keeps_pure

omit [DecidableEq κ] in
theorem changed_view : Keeps Viewed (Op.modify changed : WriterOp δ κ Unit) :=
  modify_view lasts_true fun _ => ⟨rfl, rfl, rfl, rfl, rfl, rfl, id, le_rfl⟩

omit [DecidableEq κ] in
theorem numbered_view (hP : Lasts P) (done : Bool) :
    Keeps (ViewInv P) (numbered done : WriterOp δ κ (Option Nat)) := by
  refine keeps_ite (fun _ => keeps_bind keeps_get fun _ => ?_) fun _ => keeps_pure
  exact keeps_bind (modify_view hP fun _ => ⟨rfl, rfl, rfl, rfl, rfl, rfl, id, le_rfl⟩)
    fun _ => keeps_pure

theorem addIndexes_view {sources : List (Segment δ)} (hsources : ∀ s ∈ sources, s.WellFormed) :
    Keeps Viewed (addIndexes fx cfg sources) := by
  refine keeps_bind (writePending_view lasts_true) fun _ => Ends.keeps ?_
  refine ends_bind (copySegmentsIn_view hsources) fun added => ?_
  refine ends_bind (Q := fun w _ => Viewed w) (ends_modify fun w hw => hw.1.append hw.2)
    fun _ => Keeps.ends ?_
  exact keeps_bind (ioCall_view lasts_true) fun _ => keeps_bind changed_view fun _ => nextSeqNo_view

omit [DecidableEq κ] in
theorem withdrawCopies_view (names : List String) :
    Keeps Viewed (withdrawCopies fx names : WriterOp δ κ Unit) := by
  refine keeps_bind (keeps_modify fun w hw => ⟨hw.view.sublist ?_, hw.prepared, hw.rollback,
    trivial⟩) fun _ => ioCall_view lasts_true
  exact List.filter_sublist.append_right _

theorem addIndexesMerged_view {sources : List (Segment δ)}
    (hsources : ∀ s ∈ sources, s.WellFormed) : Keeps Viewed (addIndexesMerged fx cfg sources) := by
  refine keeps_bind (writePending_view lasts_true) fun _ => Ends.keeps ?_
  refine ends_bind (copySegmentsIn_view hsources) fun added => ?_
  refine ends_ite (fun _ => ?_) fun _ => ?_
  · exact ends_conseq nextSeqNo_view.ends (fun _ h => h.1) (fun _ _ h => h) fun _ h => h
  refine ends_bind (Q := fun w _ => Viewed w) (ends_modify fun w hw => hw.1.append hw.2)
    fun _ => Keeps.ends ?_
  have hcaller : ∀ b : Bool, Keeps Viewed
      (Op.modify fun w => { w with mergesByCaller := b } : WriterOp δ κ Unit) := fun b =>
    modify_view lasts_true fun _ => ⟨rfl, rfl, rfl, rfl, rfl, rfl, id, le_rfl⟩
  refine keeps_bind (ioCall_view lasts_true) fun _ => keeps_bind keeps_get fun byCaller => ?_
  refine keeps_bind (hcaller true) fun _ => ?_
  refine keeps_bind (keeps_attempt (executeMerge_view _)) fun result => ?_
  refine keeps_bind (hcaller byCaller) fun _ => ?_
  rcases result with e | - | -
  · exact keeps_bind (keeps_attempt (withdrawCopies_view _)) fun _ => keeps_throw
  · exact keeps_bind (withdrawCopies_view _) fun _ => nextSeqNo_view
  · exact keeps_bind changed_view fun _ => nextSeqNo_view

end

end IndexWriter

/-! ## Calls -/

open IndexWriter

variable [DecidableEq κ] {fx : WriterFaults} {cfg : WriterConfig δ κ}

/-- A call that adds documents, deletes or updates some, or flushes what is
buffered, also for a concurrent writer. -/
def WriterCall.edits : WriterCall δ κ → Bool
  | addDocument _ => true
  | addDocuments _ => true
  | updateDocuments .. => true
  | softUpdateDocuments .. => true
  | deleteDocumentsByTerm _ => true
  | deleteDocumentsByQuery _ => true
  | updateDocValues .. => true
  | tryDeleteDocument .. => true
  | tryUpdateDocValue .. => true
  | flush => true
  | deleteAll => true
  | bufferGlobalDelete _ => true
  | reserveSegment => true
  | beginSegment _ => true
  | abandonSegment _ => true
  | publishSegmentWith .. => true
  | dropFullyDeletedFlushed _ => true
  | beginDeletesTicket => true
  | publishDeletesTicket _ => true
  | applyPendingPackets => true
  | _ => false

/-- The segments that are handed in are well-formed, and the merged and the
flushed ones have names that were handed out and that no segment has. -/
def WriterCall.ownSegments (w : IndexWriter δ κ) : WriterCall δ κ → Prop
  | applyMerge _ merged => Mergeable (some merged) w
  | finishMerge _ outcome => Mergeable outcome.published w
  | addIndexes sources => ∀ s ∈ sources, s.WellFormed
  | addIndexesMerged sources => ∀ s ∈ sources, s.WellFormed
  | publishSegmentWith _ sci _ _ _ => sci.WellFormed ∧ NewName sci.segmentName w
  | _ => True

/-- A call that edits keeps what lasts while segments evolve. -/
theorem WriterCall.run_edits {P : IndexWriter δ κ → Prop} (hP : Lasts P) {call : WriterCall δ κ}
    {w : IndexWriter δ κ} (hcall : call.edits = true) (hown : call.ownSegments w)
    (hw : ViewInv P w) : ViewInv P (call.run fx cfg w).2 := by
  have hadd : AddInvariant fx cfg (ViewInv P) (ViewInv P) := view_addInvariant hP
  have hpending : Keeps (ViewInv P) (writePendingTryChanges fx cfg) := writePending_view hP
  have hinv : ∀ w, EditInvariant fx cfg (EditsView w) := fun w => edits_editInvariant
  cases call with
  | addDocument doc => exact withNumber_keeps (hadd.addDocument_ends doc).keeps w hw
  | addDocuments docs =>
    exact withNumber_keeps (keeps_bind hpending fun _ =>
      (hadd.addDocumentsWithDelete_ends none docs).keeps) w hw
  | updateDocuments term docs =>
    exact withNumber_keeps (keeps_bind hpending fun _ =>
      (hadd.addDocumentsWithDelete_ends (some (.terms [term])) docs).keeps) w hw
  | softUpdateDocuments term docs softDeletes =>
    exact withNumber_keeps (hadd.softUpdateDocuments_ends term docs softDeletes).keeps w hw
  | deleteDocumentsByTerm terms =>
    exact withNumber_keeps (keeps_bind hpending fun _ => (hadd.bufferDelete_ends _).keeps) w hw
  | deleteDocumentsByQuery queries =>
    exact withNumber_keeps (deleteDocumentsByQuery_view hP queries) w hw
  | updateDocValues term updates =>
    exact withNumber_keeps (hadd.updateDocValues_ends term updates).keeps w hw
  | flush => exact unnumbered_keeps (flush_view hP) w hw
  | deleteAll => exact unnumbered_keeps (deleteAll_view hP) w hw
  | tryDeleteDocument reader docId =>
    refine (keeps_bind (fun w hw => ?_) (numbered_view hP) :
      Keeps (ViewInv P) ((tryDeleteDocument reader docId).run fx cfg)) w hw
    have h := (hinv w).tryDeleteResolved_keeps reader docId w (.refl hw.view)
    exact hw.of_edits h (hP.of_edits h hw.base)
  | tryUpdateDocValue reader docId updates =>
    refine (keeps_bind (fun w hw => ?_) (numbered_view hP) :
      Keeps (ViewInv P) ((tryUpdateDocValue reader docId updates).run fx cfg)) w hw
    have h := (hinv w).tryUpdateResolved_keeps reader docId updates w (.refl hw.view)
    exact hw.of_edits h (hP.of_edits h hw.base)
  | bufferGlobalDelete node =>
    refine (unnumbered_keeps ?_ : Keeps (ViewInv P) ((bufferGlobalDelete node).run fx cfg)) w hw
    exact modify_view hP fun _ => ⟨rfl, rfl, rfl, rfl, rfl, rfl, id, le_rfl⟩
  | reserveSegment =>
    exact unnumbered_keeps (newSegmentName_keeps hP) w hw
  | beginSegment reserved =>
    cases reserved with
    | none =>
      exact unnumbered_keeps (keeps_bind (beginDeletesTicket_view hP) fun _ =>
        keeps_bind (newSegmentName_keeps hP) fun _ => keeps_pure) w hw
    | some name =>
      exact unnumbered_keeps (keeps_bind (beginDeletesTicket_view hP) fun _ => keeps_pure) w hw
  | abandonSegment ticket =>
    exact unnumbered_keeps (modify_view hP fun _ => pushPacket_same _ _) w hw
  | publishSegmentWith ticket sci packet sortMap freezeGlobal =>
    exact (ends_bind (publishSegmentWith_view hP ticket hown.1.setBufferedDeletesGen packet sortMap
      freezeGlobal) fun _ => ends_pure fun _ h => h).state ⟨hw, hown.2⟩
  | dropFullyDeletedFlushed name =>
    refine unnumbered_keeps (keeps_bind hpending fun _ =>
      keeps_bind (keeps_modify fun w hw => ?_) fun _ => ioCall_view hP) w hw
    have h := dropFullyDeletedSegments_edits cfg (EditsView.refl hw.view) []
      (w.flushedSegments.map (·.segmentName == name))
    exact hw.of_edits h (hP.of_edits h hw.base)
  | beginDeletesTicket => exact unnumbered_keeps (beginDeletesTicket_view hP) w hw
  | publishDeletesTicket packet =>
    exact unnumbered_keeps (keeps_bind hpending fun _ =>
      keeps_bind (modify_view hP fun _ => pushPacket_same _ _) fun _ =>
        applyPendingPackets_view hP) w hw
  | applyPendingPackets => exact unnumbered_keeps (applyPendingPackets_view hP) w hw
  | nrtSnapshot merges => cases hcall
  | prepareCommit merges => cases hcall
  | finishCommit groups => cases hcall
  | commit merges groups => cases hcall
  | rollback => cases hcall
  | tryRollback => cases hcall
  | forceMerge maxNumSegments groups => cases hcall
  | forceMergeDeletes groups => cases hcall
  | maybeMerge groups => cases hcall
  | applyMerge names merged => cases hcall
  | dropMerge names => cases hcall
  | updateDocumentWithSources sources term doc => cases hcall
  | deleteDocumentsWithSources sources term => cases hcall
  | addIndexes sources => cases hcall
  | addIndexesMerged sources => cases hcall
  | advanceSegmentInfosCounter newCounter => cases hcall
  | setLiveCommitData => cases hcall
  | setMergesByCaller byCaller => cases hcall
  | beginMerge names => cases hcall
  | finishMerge plan outcome => cases hcall
  | abortMerge plan => cases hcall

/-- The segments of the writer stay well-formed, with names of their own. -/
theorem WriterCall.run_view {call : WriterCall δ κ} {w : IndexWriter δ κ}
    (hcall : call.ownSegments w) (hw : Viewed w) : Viewed (call.run fx cfg w).2 := by
  by_cases hedits : call.edits = true
  · exact run_edits lasts_true hedits hcall hw
  have hpending : Keeps Viewed (writePendingTryChanges fx cfg) := writePending_view lasts_true
  have hio : Keeps Viewed (ioCall fx : WriterOp δ κ Unit) := ioCall_view lasts_true
  cases call with
  | nrtSnapshot merges =>
    refine unnumbered_keeps (keeps_bind hpending fun _ => keeps_bind hio fun _ => ?_) w hw
    refine keeps_bind (flush_view lasts_true) fun _ => ?_
    refine keeps_bind (mergeOnFullFlush_view merges) fun _ => keeps_bind hpending fun _ => ?_
    exact keeps_bind hio fun _ => keeps_bind keeps_get fun _ => keeps_bind hio fun _ => keeps_pure
  | prepareCommit merges => exact unnumbered_keeps (prepareCommit_view merges) w hw
  | finishCommit groups => exact unnumbered_keeps (finishCommit_view groups) w hw
  | commit merges groups =>
    exact unnumbered_keeps (keeps_bind hpending fun _ =>
      keeps_bind (prepareCommit_view merges) fun _ => finishCommit_view groups) w hw
  | rollback =>
    refine unnumbered_keeps (keeps_bind (keeps_attempt rollbackState_view) fun result => ?_) w hw
    cases result with
    | error e => exact keeps_pure
    | ok u =>
      exact keeps_bind (keeps_attempt hio) fun _ => keeps_bind (keeps_attempt hio) fun _ => keeps_pure
  | tryRollback =>
    exact unnumbered_keeps (keeps_bind rollbackState_view fun _ => keeps_bind hio fun _ => hio) w hw
  | forceMerge maxNumSegments groups =>
    refine unnumbered_keeps (keeps_bind hpending fun _ => ?_) w hw
    exact keeps_ite (fun _ => keeps_throw) fun _ => runMerges_view groups
  | forceMergeDeletes groups =>
    exact unnumbered_keeps (keeps_bind hpending fun _ => runMerges_view groups) w hw
  | maybeMerge groups =>
    refine unnumbered_keeps (keeps_bind hpending fun _ =>
      keeps_ite (fun _ => keeps_pure) fun _ => ?_) w hw
    exact keeps_unlessPrepared fun w hw _ => withMergesByCaller_view (runMerges_view groups) w hw
  | applyMerge names merged =>
    exact (ends_bind (applyMerge_view names merged) fun _ => ends_pure fun _ h => h).state ⟨hw, hcall⟩
  | finishMerge plan outcome =>
    exact (ends_bind (finishMerge_view plan outcome) fun _ => ends_pure fun _ h => h).state ⟨hw, hcall⟩
  | dropMerge names => exact unnumbered_keeps (dropMerge_view names) w hw
  | updateDocumentWithSources sources term doc =>
    exact unnumbered_keeps (updateDocumentWithSources_view sources term doc) w hw
  | deleteDocumentsWithSources sources term =>
    exact unnumbered_keeps (deleteDocumentsWithSources_view sources term) w hw
  | addIndexes sources => exact withNumber_keeps (addIndexes_view hcall) w hw
  | addIndexesMerged sources => exact withNumber_keeps (addIndexesMerged_view hcall) w hw
  | advanceSegmentInfosCounter newCounter =>
    refine unnumbered_keeps (keeps_modify fun w hw => ?_) w hw
    rw [IndexWriter.advanceSegmentInfosCounter]
    split
    · rename_i hlt
      exact ⟨hw.view.mono hlt.le, hw.prepared, hw.rollback.mono hlt.le, trivial⟩
    · exact hw
  | setLiveCommitData => exact unnumbered_keeps changed_view w hw
  | setMergesByCaller byCaller =>
    refine (unnumbered_keeps ?_ : Keeps Viewed ((setMergesByCaller byCaller).run fx cfg)) w hw
    exact modify_view lasts_true fun _ => ⟨rfl, rfl, rfl, rfl, rfl, rfl, id, le_rfl⟩
  | beginMerge names =>
    refine unnumbered_keeps (Ends.keeps ?_) w hw
    exact ends_conseq (beginMerge_view names) (fun _ h => h) (fun _ _ h => h.1) fun _ h => h
  | abortMerge plan => exact unnumbered_keeps (abortMerge_view plan) w hw
  | _ => exact absurd rfl hedits

end LuceneRust.Index
