import LuceneRust.Index.Writer.MergePlaces
import Mathlib.Data.Multiset.AddSub

/-!
# Deletes that a merge carries over

* `Finished` says how a merge should end, and `Retired` how one without a live
  document should.
* `carriedDeletes_spec`: the deletes that are carried over are those of the
  documents that died since the snapshots were taken.
* `finishMerge_carries`: how a merge ends that was begun in a run and finished
  after any edits of the view.
-/

namespace LuceneRust.Index

open RustSem
open StateHoare

variable {δ κ α : Type}

namespace IndexWriter

/-! ## The end of a merge -/

/-- A source of a merge that is still in the view, with the doc values that it
had. -/
structure Current (w : IndexWriter δ κ) (snapshot current : Segment δ) : Prop where
  mem : current ∈ w.segmentInfos.segments
  segmentName : current.segmentName = snapshot.segmentName
  fieldInfosGen : current.fieldInfosGen = snapshot.fieldInfosGen
  docValuesGen : current.docValuesGen = snapshot.docValuesGen

/-- The segment that is published has the documents of the sources that are
live in `w`, at their places. -/
structure Carries (w : IndexWriter δ κ) (plan : MergePlan δ) (m : MergedSegment δ)
    (info : Segment δ) : Prop where
  segmentName : info.segmentName = plan.mergedName
  length : info.rows.length = m.info.rows.length
  current : ∀ snapshot ∈ plan.sources, ∃ current, Current w snapshot current
  image : ∀ {k i : Nat} {snapshot current : Segment δ} {row : Row δ},
    plan.sources[k]? = some snapshot → Current w snapshot current →
    current.rows[i]? = some row → row.live = true →
    ∃ d, m.PlacedAt k i d ∧ info.rows[d]? = some row
  source : ∀ {d : Nat} {row : Row δ}, info.rows[d]? = some row → row.live = true →
    ∃ k i snapshot current, plan.sources[k]? = some snapshot ∧ Current w snapshot current ∧
      current.rows[i]? = some row ∧ m.PlacedAt k i d
  delCount : info.delCount = deadCount info.rows

/-- What keeps a merge from being published: a commit is prepared, or one of the
calls before the `n`-th fails. -/
def Troubled (fx : WriterFaults) (w : IndexWriter δ κ) (n : Nat) : Prop :=
  w.preparedCommit.isSome = true ∨ ∃ i, w.calls ≤ i ∧ i < n ∧ fx.fails i = true

/-- How the end of a merge should be: `written` is how the writing of what waits
ended, with the writer in which the merge is finished, `w'` is the writer after it,
and `held` are the references to files from before it was begun. -/
structure Finished (fx : WriterFaults) (written : Outcome WriterError Unit × IndexWriter δ κ)
    (plan : MergePlan δ) (m : MergedSegment δ) (held : List String)
    (result : Outcome WriterError Bool) (w' : IndexWriter δ κ) : Prop where
  returns : result ≠ .panic
  returned : written.1 = .ok () → ¬Troubled fx written.2 w'.calls → ∃ published, result = .ok published
  current : ∀ published, result = .ok published →
    (published = true ↔ ∀ snapshot ∈ plan.sources, ∃ current, Current written.2 snapshot current)
  published : result = .ok true → ∃ info, Carries written.2 plan m info ∧
    w'.segmentInfos.segments.Perm (info ::
      written.2.segmentInfos.segments.filter fun s => !plan.names.contains s.segmentName) ∧
    w'.flushedSegments = written.2.flushedSegments
  abandoned : result = .ok false →
    w'.segmentInfos.segments = written.2.segmentInfos.segments ∧
    w'.flushedSegments = written.2.flushedSegments
  released : w'.held.Perm held

/-- The end of a merge that had no live document: the sources go, with no live
document in them, and no segment takes their place. -/
structure Retired (fx : WriterFaults) (written : Outcome WriterError Unit × IndexWriter δ κ)
    (plan : MergePlan δ) (held : List String) (result : Outcome WriterError Bool)
    (w' : IndexWriter δ κ) : Prop where
  returns : result ≠ .panic
  returned : written.1 = .ok () → ¬Troubled fx written.2 w'.calls → result = .ok true
  retired : ∀ published, result = .ok published → published = true ∧
    w'.segmentInfos.segments =
      written.2.segmentInfos.segments.filter (fun s => !plan.names.contains s.segmentName) ∧
    w'.flushedSegments = written.2.flushedSegments ∧
    ∀ s ∈ written.2.segmentInfos.segments, plan.names.contains s.segmentName = true →
      ∀ row ∈ s.rows, row.live = false
  released : w'.held.Perm held

section

variable {fx : WriterFaults} {cfg : WriterConfig δ κ} {w₀ w : IndexWriter δ κ}
  {plan : MergePlan δ} {m : MergedSegment δ} {sourceLive : List (List Bool)}

/-! ## Calls that fail -/

/-- What an error leaves behind: the files are held as before, and it was a call
that failed, or a commit is prepared. -/
structure Failed (fx : WriterFaults) (w t : IndexWriter δ κ) : Prop where
  held : t.held = w.held
  calls : w.calls ≤ t.calls
  troubled : Troubled fx w t.calls

theorem Troubled.mono {n n' : Nat} (h : Troubled fx w n) (hn : n ≤ n') : Troubled fx w n' :=
  h.imp_right fun ⟨i, hi, hlt, hfails⟩ => ⟨i, hi, hlt.trans_le hn, hfails⟩

theorem ioCall_triple {I : IndexWriter δ κ → Prop} (hI : Keeps I (ioCall fx : WriterOp δ κ Unit)) :
    Triple I (ioCall fx : WriterOp δ κ Unit) (fun t _ => I t) I := by
  intro t ht
  have h := hI t ht
  rw [ioCall] at h ⊢
  split <;> exact h

theorem ioCall_troubled {I : IndexWriter δ κ → Prop} (hI : Keeps I (ioCall fx : WriterOp δ κ Unit))
    (hcalls : ∀ t, I t → w.calls ≤ t.calls) :
    Triple I (ioCall fx : WriterOp δ κ Unit) (fun t _ => I t)
      fun t => I t ∧ Troubled fx w t.calls := by
  intro t ht
  have h := hI t ht
  rw [ioCall] at h ⊢
  split
  next hfails => exact ⟨h, .inr ⟨t.calls, hcalls t ht, Nat.lt_succ_self _, hfails⟩⟩
  next => exact h

theorem ioCall_sameTriple : Triple (SameView w) (ioCall fx : WriterOp δ κ Unit)
    (fun t _ => SameView w t) (Failed fx w) :=
  triple_conseq (ioCall_troubled ioCall_sameView fun _ h => h.calls) (fun _ h => h) (fun _ _ h => h)
    fun _ h => ⟨h.1.held, h.1.calls, h.2⟩

/-! ## The deletes to carry over -/

/-- The source that `finish_merge` finds. -/
theorem filter_find_eq_some (hw : ViewOk w.segmentInfos.counter w.liveSegments)
    {snapshot current : Segment δ} :
    ((w.segmentInfos.segments.find? (·.segmentName == snapshot.segmentName)).filter fun c =>
        c.fieldInfosGen == snapshot.fieldInfosGen && c.docValuesGen == snapshot.docValuesGen) =
      some current ↔ Current w snapshot current := by
  have hcommitted : ViewOk w.segmentInfos.counter w.segmentInfos.segments :=
    hw.sublist (List.sublist_append_left _ _)
  rw [Option.filter_eq_some_iff, Bool.and_eq_true, beq_iff_eq, beq_iff_eq]
  constructor
  · rintro ⟨hfind, hfield, hvalues⟩
    exact ⟨List.mem_of_find?_eq_some hfind, by simpa using List.find?_some hfind, hfield, hvalues⟩
  · rintro ⟨hmem, hname, hfield, hvalues⟩
    exact ⟨hname ▸ hcommitted.find hmem, hfield, hvalues⟩

theorem Current.unique (hw : ViewOk w.segmentInfos.counter w.liveSegments)
    {snapshot current current' : Segment δ} (h : Current w snapshot current)
    (h' : Current w snapshot current') : current = current' := by
  rw [← filter_find_eq_some hw] at h h'
  exact Option.some_inj.1 (h.symm.trans h')

theorem mem_diedSince {map : List Int} {wasLive nowLive : List Bool} {d : Nat} :
    d ∈ diedSince map wasLive nowLive ↔ ∃ i : Nat, map[i]? = some (d : Int) ∧
      wasLive[i]?.getD true = true ∧ nowLive[i]?.getD true = false := by
  rw [diedSince, List.mem_map]
  constructor
  · rintro ⟨⟨x, i⟩, hmem, rfl⟩
    obtain ⟨hmem, hcond⟩ := List.mem_filter.1 hmem
    rw [Bool.and_eq_true, Bool.and_eq_true, decide_eq_true_iff, Bool.not_eq_true'] at hcond
    obtain ⟨⟨hx, hwas⟩, hnow⟩ := hcond
    refine ⟨i, ?_, hwas, hnow⟩
    rw [List.mem_zipIdx_iff_getElem?.1 hmem, Option.some_inj]
    exact (Int.toNat_of_nonneg hx).symm
  · rintro ⟨i, hmap, hwas, hnow⟩
    refine ⟨(d, i), List.mem_filter.2 ⟨List.mem_zipIdx_iff_getElem?.2 hmap, ?_⟩, Int.toNat_natCast d⟩
    rw [hwas, hnow, decide_eq_true (Int.natCast_nonneg d)]
    rfl

/-- The documents of the source that are not live in `w` any more, in the ids of
the merged segment. -/
def DiedIn (w : IndexWriter δ κ) (snapshot : Segment δ) (map : List Int) (d : Nat) : Prop :=
  ∃ (i : Nat) (current : Segment δ) (row : Row δ),
    map[i]? = some (d : Int) ∧ Current w snapshot current ∧
      current.rows[i]? = some row ∧ row.live = false

/-- The map has places for documents that were live in the snapshot. -/
def PlacesLive (snapshot : Segment δ) (map : List Int) : Prop :=
  ∀ i d : Nat, map[i]? = some (d : Int) →
    ∃ row : Row δ, snapshot.rows[i]? = some row ∧ row.live = true

theorem carriedFrom_spec (hw : ViewOk w.segmentInfos.counter w.liveSegments)
    {snapshot current : Segment δ} {map : List Int} (hmap : PlacesLive snapshot map)
    (hcurrent : Current w snapshot current) (hevolves : snapshot.Evolves current) :
    Triple (SameView w) (carriedFrom fx snapshot current map (snapshot.rows.map (·.live)))
      (fun t carried => SameView w t ∧ ∀ d, d ∈ carried ↔ DiedIn w snapshot map d)
      (Failed fx w) := by
  refine triple_ite (fun hgen => triple_pure fun t ht => ⟨ht, fun d => ?_⟩) fun _ => ?_
  · -- the live documents are those of the snapshot
    rw [iff_false_left List.not_mem_nil]
    rintro ⟨i, current', row, hplace, hcurrent', hrow, hdead⟩
    obtain rfl := hcurrent.unique hw hcurrent'
    obtain ⟨row', hrow', hlive⟩ := hmap i d hplace
    rw [(hevolves.doc hrow' hrow).2.2.1 hgen, hlive] at hdead
    cases hdead
  · refine triple_bind ioCall_sameTriple fun _ => triple_pure fun t ht => ⟨ht, fun d => ?_⟩
    rw [mem_diedSince]
    constructor
    · rintro ⟨i, hplace, -, hnow⟩
      rw [List.getElem?_map] at hnow
      cases hrow : current.rows[i]? with
      | none =>
        rw [hrow] at hnow
        cases hnow
      | some row =>
        rw [hrow] at hnow
        exact ⟨i, current, row, hplace, hcurrent, hrow, hnow⟩
    · rintro ⟨i, current', row, hplace, hcurrent', hrow, hdead⟩
      obtain rfl := hcurrent.unique hw hcurrent'
      obtain ⟨row', hrow', hlive⟩ := hmap i d hplace
      refine ⟨i, hplace, ?_, ?_⟩
      · rw [List.getElem?_map, hrow']
        exact hlive
      · rw [List.getElem?_map, hrow]
        exact hdead

/-- The loop over the sources finds what died since, or a source that is gone or
has other doc values. -/
theorem carriedDeletes_spec (hw : ViewOk w.segmentInfos.counter w.liveSegments)
    {sources : List (Segment δ)} {maps : List (List Int)}
    (hmaps : ∀ e ∈ sources.zip maps, PlacesLive e.1 e.2)
    (hevolves : ∀ snapshot ∈ sources, ∀ current, Current w snapshot current →
      snapshot.Evolves current) :
    Triple (SameView w) (carriedDeletes fx sources maps (sources.map fun s => s.rows.map (·.live)))
      (fun t carried => SameView w t ∧
        (carried = none → ∃ snapshot ∈ sources, ∀ current, ¬Current w snapshot current) ∧
        ∀ ids, carried = some ids →
          (∀ snapshot ∈ sources, ∃ current, Current w snapshot current) ∧
          ∀ d, d ∈ ids ↔ ∃ e ∈ sources.zip maps, DiedIn w e.1 e.2 d)
      (Failed fx w) := by
  induction sources generalizing maps with
  | nil =>
    refine triple_pure fun t ht => ⟨ht, nofun, fun ids h => ⟨nofun, fun d => ?_⟩⟩
    obtain rfl := Option.some_inj.1 h
    rw [List.zip_nil_left]
    simp
  | cons snapshot sources ih =>
    rw [List.forall_mem_cons] at hevolves
    refine triple_get_bind fun t ht => ?_
    have hsegments := ht.segmentInfos
    refine triple_conseq (P := SameView w) ?_ (fun t' ht' => ht' ▸ ht) (fun _ _ h => h) fun _ h => h
    rw [hsegments]
    cases hfind : (w.segmentInfos.segments.find? (·.segmentName == snapshot.segmentName)).filter
        fun c => c.fieldInfosGen == snapshot.fieldInfosGen &&
          c.docValuesGen == snapshot.docValuesGen with
    | none =>
      refine triple_pure fun t ht => ⟨ht, fun _ => ⟨snapshot, List.mem_cons_self, ?_⟩, nofun⟩
      intro current hcurrent
      rw [← filter_find_eq_some hw, hfind] at hcurrent
      cases hcurrent
    | some current =>
      have hcurrent := (filter_find_eq_some hw).1 hfind
      -- without a map nothing is carried over
      have hhead : PlacesLive snapshot (maps.headD []) := by
        cases maps with
        | nil => exact fun i d h => by cases h
        | cons map maps => exact hmaps (snapshot, map) List.mem_cons_self
      have htail : ∀ e ∈ sources.zip maps.tail, PlacesLive e.1 e.2 := by
        cases maps with
        | nil =>
          rw [List.tail_nil, List.zip_nil_right]
          exact nofun
        | cons map maps => exact fun e he => hmaps e (List.mem_cons_of_mem _ he)
      have hzip : ∀ d, (∃ e ∈ (snapshot :: sources).zip maps, DiedIn w e.1 e.2 d) ↔
          DiedIn w snapshot (maps.headD []) d ∨
            ∃ e ∈ sources.zip maps.tail, DiedIn w e.1 e.2 d := by
        intro d
        cases maps with
        | nil =>
          have hnone : ¬DiedIn w snapshot [] d := fun ⟨i, _, _, h, _⟩ => by cases h
          simp [hnone]
        | cons map maps => simp
      dsimp only
      rw [List.map_cons, List.headD_cons, List.tail_cons]
      refine triple_bind (carriedFrom_spec hw hhead hcurrent (hevolves.1 current hcurrent))
        fun carried => ?_
      refine triple_bind (Q := fun t rest => (SameView w t ∧
          (rest = none → ∃ snapshot ∈ sources, ∀ current, ¬Current w snapshot current) ∧
          ∀ ids, rest = some ids →
            (∀ snapshot ∈ sources, ∃ current, Current w snapshot current) ∧
            ∀ d, d ∈ ids ↔ ∃ e ∈ sources.zip maps.tail, DiedIn w e.1 e.2 d) ∧
          ∀ d, d ∈ carried ↔ DiedIn w snapshot (maps.headD []) d) ?_ fun rest => ?_
      · intro t ht
        exact triple_conseq (ih htail hevolves.2) (fun _ h => h) (fun _ _ h => ⟨h, ht.2⟩)
          (fun _ h => h) t ht.1
      · refine triple_pure fun t ht => ?_
        obtain ⟨⟨hsame, hnone, hsome⟩, hcarried⟩ := ht
        refine ⟨hsame, fun h => ?_, fun ids h => ?_⟩
        · obtain ⟨s, hs, hgone⟩ := hnone (Option.map_eq_none_iff.1 h)
          exact ⟨s, List.mem_cons_of_mem _ hs, hgone⟩
        · obtain ⟨ids', hids', rfl⟩ := Option.map_eq_some_iff.1 h
          obtain ⟨hall, hmem⟩ := hsome ids' hids'
          refine ⟨List.forall_mem_cons.2 ⟨⟨current, hcurrent⟩, hall⟩, fun d => ?_⟩
          rw [List.mem_append, hcarried, hmem, hzip]

/-! ## Publishing the merged segment -/

theorem deleteCarried_spec {info : Segment δ} (hinfo : info.WellFormed) {ids : List Nat}
    (hids : ∀ d ∈ ids, d < info.rows.length) :
    Triple (SameView w) (deleteCarried fx info ids : WriterOp δ κ (Segment δ))
      (fun t info' => SameView w t ∧ info.Deleted info' ids) (Failed fx w) := by
  refine triple_ite (fun hempty => triple_pure fun t ht => ⟨ht, .refl hinfo, fun i => ?_⟩)
    fun _ => ?_
  · obtain rfl := List.isEmpty_iff.1 hempty
    simp
  · obtain ⟨info', hrun, hdel⟩ := deletedSegment_spec hinfo hids
    rw [hrun]
    change Triple (SameView w) (ioCall fx >>= fun _ => pure info') _ _
    exact triple_bind ioCall_sameTriple fun _ => triple_pure fun t ht => ⟨ht, hdel⟩

/-- The view after a merge was published. -/
structure MergedInto (w w' : IndexWriter δ κ) (segments : List (Segment δ)) : Prop where
  segments : w'.segmentInfos.segments = segments
  flushedSegments : w'.flushedSegments = w.flushedSegments
  held : w'.held = w.held
  calls : w.calls ≤ w'.calls

theorem ioCall_mergedTriple {segments : List (Segment δ)} :
    Triple (MergedInto w · segments) (ioCall fx : WriterOp δ κ Unit)
      (fun t _ => MergedInto w t segments) (Failed fx w) := by
  have hkeeps : Keeps (MergedInto w · segments) (ioCall fx : WriterOp δ κ Unit) := fun t ht =>
    ⟨ht.segments, ht.flushedSegments, ht.held, ht.calls.trans (Nat.le_succ t.calls)⟩
  exact triple_conseq (ioCall_troubled hkeeps fun _ h => h.calls) (fun _ h => h) (fun _ _ h => h)
    fun _ h => ⟨h.1.held, h.1.calls, h.2⟩

theorem commitSegments_spec (segments : List (Segment δ)) :
    Triple (SameView w) (commitSegments fx segments : WriterOp δ κ Unit)
      (fun t _ => MergedInto w t segments) (Failed fx w) := by
  have hio : Triple (SameView w) (ioCall fx : WriterOp δ κ Unit) (fun t _ => SameView w t)
      (Failed fx w) := ioCall_sameTriple
  refine triple_get_bind fun t ht => triple_conseq (P := SameView w) ?_ (fun t' ht' => ht' ▸ ht)
    (fun _ _ h => h) fun _ h => h
  have hwrite : ∀ infos : WriterInfos δ, Triple (SameView w)
      (writeSegmentInfos fx infos : WriterOp δ κ Unit) (fun t _ => SameView w t)
      fun t => SameView w t ∧ Troubled fx w t.calls := by
    have hcall : Triple (SameView w) (ioCall fx : WriterOp δ κ Unit) (fun t _ => SameView w t)
        fun t => SameView w t ∧ Troubled fx w t.calls := ioCall_troubled ioCall_sameView fun _ h => h.calls
    intro infos
    refine triple_bind hcall fun _ => triple_bind hcall fun _ => ?_
    refine triple_bind (triple_modify fun t ht => ?_) fun _ => hcall
    exact ht.trans ⟨rfl, rfl, rfl, rfl, rfl, rfl, id, le_rfl⟩
  refine triple_bind hio fun _ => ?_
  refine triple_bind (Q := fun t written => SameView w t ∧ ∀ e, written = .error e → Troubled fx w t.calls)
    (triple_attempt (triple_conseq (hwrite _) (fun _ h => h) (fun _ _ h => ⟨h, nofun⟩) fun _ h => h)
      fun _ _ h => ⟨h.1, fun _ _ => h.2⟩) fun written => ?_
  refine triple_bind (Q := fun t _ => SameView w t ∧ ∀ e, written = .error e → Troubled fx w t.calls)
    (triple_modify fun t ht => ⟨ht.1.trans ⟨rfl, rfl, rfl, rfl, rfl, rfl, id, le_rfl⟩, ht.2⟩)
    fun _ => ?_
  refine triple_bind (Q := fun t _ => SameView w t) ?_ fun _ => ?_
  · cases written with
    | ok u => exact triple_pure fun _ h => h.1
    | error e => exact triple_throw fun t h => ⟨h.1.held, h.1.calls, h.2 e rfl⟩
  refine triple_bind (Q := fun t _ => MergedInto w t segments)
    (triple_modify fun t ht => ⟨rfl, ht.flushedSegments, ht.held, ht.calls⟩) fun _ => ?_
  exact triple_bind ioCall_mergedTriple fun _ => ioCall_mergedTriple

theorem commitMerge_spec (caller : String) (names : List String) (merged : Option (Segment δ)) :
    Triple (SameView w) (commitMerge fx caller names merged : WriterOp δ κ Unit)
      (fun t _ => MergedInto w t (applyMergeChanges names merged w.segmentInfos.segments))
      (Failed fx w) := by
  refine triple_get_bind fun t ht => triple_conseq (P := SameView w) ?_ (fun t' ht' => ht' ▸ ht)
    (fun _ _ h => h) fun _ h => h
  refine triple_ite (fun hprepared => triple_throw fun t' ht' => ?_) fun _ => ?_
  · exact ⟨ht'.held, ht'.calls, .inl (ht.preparedCommit ▸ hprepared)⟩
  refine triple_bind (Q := fun t _ => SameView w t)
    (triple_modify fun t ht => ht.trans ⟨rfl, rfl, rfl, rfl, rfl, rfl, id, le_rfl⟩) fun _ => ?_
  refine triple_bind (Q := fun t _ => SameView w t) (triple_get fun _ h => h) fun byCaller => ?_
  refine triple_ite (fun _ => ?_) fun _ => ?_
  · refine triple_bind (triple_modify fun t ht => ?_) fun _ => ioCall_mergedTriple
    refine ⟨?_, ht.flushedSegments, ht.held, ht.calls⟩
    change applyMergeChanges names merged t.segmentInfos.segments = _
    rw [ht.segmentInfos]
  · refine triple_get_bind fun t ht => triple_conseq (P := SameView w) ?_ (fun t' ht' => ht' ▸ ht)
      (fun _ _ h => h) fun _ h => h
    rw [ht.segmentInfos]
    exact commitSegments_spec _

/-- If no change of a single document waits, the merge is committed at once. -/
theorem writePending_sameTriple (hw : NoTry w) :
    Triple (SameView w) (writePendingTryChanges fx cfg) (fun t _ => SameView w t)
      (Failed fx w) := by
  intro t ht
  rw [writePending_of_noTry (ht.noTry hw)]
  exact ht

theorem applyMerge_spec (hw : NoTry w) (names : List String) (merged : Segment δ) :
    Triple (SameView w) (applyMerge fx cfg names merged)
      (fun t _ => MergedInto w t (applyMergeChanges names (some merged) w.segmentInfos.segments))
      (Failed fx w) :=
  triple_bind (writePending_sameTriple hw) fun _ => commitMerge_spec _ _ _

/-! ## A merge of the snapshots -/

theorem mem_zip_of_placedAt {k i d : Nat} {s : Segment δ} (hs : plan.sources[k]? = some s)
    (h : m.PlacedAt k i d) : ∃ map, (s, map) ∈ plan.sources.zip m.docIdMaps ∧
      map[i]? = some (d : Int) := by
  obtain ⟨map, hmap, hplace⟩ := h
  refine ⟨map, List.mem_of_getElem? (i := k) ?_, hplace⟩
  rw [List.getElem?_zip_eq_some]
  exact ⟨hs, hmap⟩

theorem placedAt_of_mem_zip {e : Segment δ × List Int} (he : e ∈ plan.sources.zip m.docIdMaps) :
    ∃ k, plan.sources[k]? = some e.1 ∧ ∀ i d : Nat, e.2[i]? = some (d : Int) → m.PlacedAt k i d := by
  obtain ⟨k, hk⟩ := List.mem_iff_getElem?.1 he
  rw [List.getElem?_zip_eq_some] at hk
  exact ⟨k, hk.1, fun i d h => ⟨e.2, hk.2, h⟩⟩

theorem IsMerge.placesLive (hmerge : IsMerge plan m sourceLive) :
    ∀ e ∈ plan.sources.zip m.docIdMaps, PlacesLive e.1 e.2 := by
  intro e he i d hplace
  obtain ⟨k, hk, hat⟩ := placedAt_of_mem_zip he
  obtain ⟨s, row, hs, hrow, hlive, -⟩ := hmerge.placed (hat i d hplace)
  obtain rfl := Option.some_inj.1 (hk.symm.trans hs)
  exact ⟨row, hrow, hlive⟩

/-- A live document is the one that it was, if the doc values are. -/
theorem row_of_current {snapshot current : Segment δ} (hevolves : snapshot.Evolves current)
    (hcurrent : Current w snapshot current) {i : Nat} {row row' : Row δ}
    (hrow : snapshot.rows[i]? = some row) (hrow' : current.rows[i]? = some row')
    (hlive : row'.live = true) : row' = row := by
  obtain ⟨hdoc, hback, -, hvalues⟩ := hevolves.doc hrow hrow'
  have hvalues := hvalues hcurrent.docValuesGen
  have hlive' := hback hlive
  obtain ⟨⟨live, values⟩, doc⟩ := row
  obtain ⟨⟨live', values'⟩, doc'⟩ := row'
  obtain rfl : doc' = doc := hdoc
  obtain rfl : values' = values := hvalues
  obtain rfl : live = true := hlive'
  obtain rfl : live' = true := hlive
  rfl

theorem exists_row {s t : Segment δ} (h : s.rows.length = t.rows.length) {i : Nat} {row : Row δ}
    (hrow : s.rows[i]? = some row) : ∃ row', t.rows[i]? = some row' :=
  ⟨_, List.getElem?_eq_getElem (h ▸ (List.getElem?_eq_some_iff.1 hrow).1)⟩

/-- With what died since the snapshots carried over, the merged segment has the
live documents of `w`. -/
theorem IsMerge.carries (hmerge : IsMerge plan m sourceLive)
    (hevolves : ∀ snapshot ∈ plan.sources, ∀ current, Current w snapshot current →
      snapshot.Evolves current)
    (hall : ∀ snapshot ∈ plan.sources, ∃ current, Current w snapshot current) {ids : List Nat}
    (hids : ∀ d, d ∈ ids ↔ ∃ e ∈ plan.sources.zip m.docIdMaps, DiedIn w e.1 e.2 d)
    (hw : ViewOk w.segmentInfos.counter w.liveSegments)
    {info : Segment δ} (hinfo : m.info.Deleted info ids) : Carries w plan m info where
  segmentName := hinfo.evolves.segmentName.trans hmerge.segmentName
  length := hinfo.evolves.length
  current := hall
  delCount := hinfo.evolves.wellFormed.delCount
  image {k i snapshot current row} hk hcurrent hrow hlive := by
    have hev := hevolves snapshot (List.mem_of_getElem? hk) current hcurrent
    obtain ⟨row₀, hrow₀⟩ := exists_row hev.length hrow
    obtain rfl := row_of_current hev hcurrent hrow₀ hrow hlive
    obtain ⟨d, hplace⟩ := hmerge.live hk hrow₀ hlive
    obtain ⟨s, row', hs, hrow', -, hinfoRow⟩ := hmerge.placed hplace
    obtain rfl := Option.some_inj.1 (hk.symm.trans hs)
    obtain rfl := Option.some_inj.1 (hrow₀.symm.trans hrow')
    refine ⟨d, hplace, ?_⟩
    have hnot : ids.contains d = false := by
      rw [List.contains_eq_mem, decide_eq_false_iff_not, hids]
      rintro ⟨e, he, i', current', row', hplace', hcurrent', hrow', hdead⟩
      obtain ⟨k', hk', hat⟩ := placedAt_of_mem_zip he
      obtain ⟨rfl, rfl⟩ := hmerge.inj hplace (hat i' d hplace')
      obtain rfl : snapshot = e.1 := Option.some_inj.1 (hk.symm.trans hk')
      obtain rfl := hcurrent.unique hw hcurrent'
      obtain rfl := Option.some_inj.1 (hrow.symm.trans hrow')
      rw [hlive] at hdead
      cases hdead
    rw [hinfo.rows, hinfoRow, hnot, Option.map_some, Row.kill_false]
  source {d row} hrow hlive := by
    rw [hinfo.rows] at hrow
    obtain ⟨row₀, hrow₀, rfl⟩ := Option.map_eq_some_iff.1 hrow
    have hnot : ids.contains d = false := by
      have hkilled : (row₀.live && !ids.contains d) = true := hlive
      rw [Bool.and_eq_true, Bool.not_eq_true'] at hkilled
      exact hkilled.2
    rw [hnot, Row.kill_false] at hlive ⊢
    obtain ⟨k, i, hplace⟩ := hmerge.onto (List.getElem?_eq_some_iff.1 hrow₀).1
    obtain ⟨snapshot, row', hk, hrow', -, hinfoRow⟩ := hmerge.placed hplace
    obtain rfl := Option.some_inj.1 (hrow₀.symm.trans hinfoRow)
    obtain ⟨current, hcurrent⟩ := hall snapshot (List.mem_of_getElem? hk)
    have hev := hevolves snapshot (List.mem_of_getElem? hk) current hcurrent
    obtain ⟨row', hrow''⟩ := exists_row hev.length.symm hrow'
    have hlive' : row'.live = true := by
      by_contra hdead
      obtain ⟨map, hmem, hmap⟩ := mem_zip_of_placedAt hk hplace
      rw [List.contains_eq_mem, decide_eq_false_iff_not, hids] at hnot
      exact hnot ⟨_, hmem, i, current, row', hmap, hcurrent, hrow'', Bool.eq_false_iff.2 hdead⟩
    obtain rfl := row_of_current hev hcurrent hrow' hrow'' hlive'
    exact ⟨k, i, snapshot, current, hk, hcurrent, hrow'', hplace⟩

theorem finishMergeHolding_spec (fx : WriterFaults) (cfg : WriterConfig δ κ)
    (hmerge : IsMerge plan m sourceLive) (htry : NoTry w)
    (hw : ViewOk w.segmentInfos.counter w.liveSegments)
    (hevolves : ∀ snapshot ∈ plan.sources, ∀ current, Current w snapshot current →
      snapshot.Evolves current) :
    Triple (SameView w) (finishMergeHolding fx cfg plan (.merged m sourceLive))
      (fun t published => ((published = true → ∃ info, Carries w plan m info ∧ MergedInto w t
          (applyMergeChanges plan.names (some info) w.segmentInfos.segments)) ∧
        (published = false → SameView w t ∧
          ∃ snapshot ∈ plan.sources, ∀ current, ¬Current w snapshot current)) ∧
        t.held = w.held ∧ w.calls ≤ t.calls)
      (Failed fx w) := by
  refine triple_bind ioCall_sameTriple fun _ => ?_
  rw [hmerge.sourceLive]
  refine triple_bind (carriedDeletes_spec hw hmerge.placesLive hevolves) fun carried => ?_
  cases carried with
  | none =>
    refine triple_bind (Q := fun t _ => SameView w t ∧
      ∃ snapshot ∈ plan.sources, ∀ current, ¬Current w snapshot current) (fun t ht => ?_) fun _ =>
        triple_pure fun t ht => ⟨⟨nofun, fun _ => ht⟩, ht.1.held, ht.1.calls⟩
    exact triple_conseq ioCall_sameTriple (fun _ h => h) (fun _ _ h => ⟨h, ht.2.1 rfl⟩)
      (fun _ h => h) t ht.1
  | some ids =>
    intro t ht
    obtain ⟨hall, hids⟩ := ht.2.2 ids rfl
    have hlt : ∀ d ∈ ids, d < m.info.rows.length := fun d hd => by
      obtain ⟨e, he, i, -, -, hplace, -⟩ := (hids d).1 hd
      obtain ⟨k, -, hat⟩ := placedAt_of_mem_zip he
      obtain ⟨-, row, -, -, -, hrow⟩ := hmerge.placed (hat i d hplace)
      exact (List.getElem?_eq_some_iff.1 hrow).1
    refine triple_bind (deleteCarried_spec hmerge.wellFormed hlt) (fun info => ?_) t ht.1
    intro t ht
    have hcarries := hmerge.carries hevolves hall hids hw ht.2
    refine triple_bind (applyMerge_spec htry _ _) (fun _ => triple_pure fun t ht => ?_) t ht.1
    exact ⟨⟨fun _ => ⟨info, hcarries, ht⟩, nofun⟩, ht.held, ht.calls⟩

theorem diff_append_perm (held files : List String) : ((held ++ files).diff files).Perm held := by
  rw [← Multiset.coe_eq_coe, ← Multiset.coe_sub, ← Multiset.coe_add, Multiset.add_sub_cancel_right]

/-- A property of the committed and the flushed segments. -/
def OnView (P : List (Segment δ) → List (Segment δ) → Prop) (t : IndexWriter δ κ) : Prop :=
  P t.segmentInfos.segments t.flushedSegments

/-- The end of a merge, once nothing waits to be written: the files are released
however it went, and there is no error without trouble. -/
theorem finishMerge_of_noTry {outcome : MergeOutcome δ} {held : List String}
    {P : Bool → List (Segment δ) → List (Segment δ) → Prop} (htry : NoTry w)
    (hholding : Triple (SameView w) (finishMergeHolding fx cfg plan outcome)
      (fun t published => OnView (P published) t ∧ t.held = w.held ∧ w.calls ≤ t.calls) (Failed fx w))
    (hheld : w.held = held ++ plan.held) :
    Triple (SameView w) (finishMerge fx cfg plan outcome)
      (fun t published => OnView (P published) t ∧ t.held.Perm held)
      fun t => t.held.Perm held ∧ Troubled fx w t.calls := by
  have hpending : Triple (SameView w) (writePendingTryChanges fx cfg)
      (fun t _ => SameView w t) fun t => t.held.Perm held ∧ Troubled fx w t.calls := fun t ht => by
    rw [writePending_of_noTry (ht.noTry htry)]
    exact ht
  -- what is known of the state once the merge has ended with `result`
  let Ended (result : Except WriterError Bool) (t : IndexWriter δ κ) : Prop :=
    (∀ published, result = .ok published → OnView (P published) t) ∧
      (∀ e, result = .error e → Troubled fx w t.calls) ∧ w.calls ≤ t.calls
  refine triple_bind hpending fun _ => ?_
  refine triple_bind (Q := fun t result => Ended result t ∧ t.held = held ++ plan.held)
    (triple_attempt (triple_conseq hholding (fun _ h => h) (fun t published ht => ?_) fun _ h => h)
      fun t e ht => ?_) fun result => ?_
  · refine ⟨⟨fun published' h => ?_, nofun, ht.2.2⟩, ht.2.1.trans hheld⟩
    rw [← Except.ok.inj h]
    exact ht.1
  · exact ⟨⟨nofun, fun _ _ => ht.troubled, ht.calls⟩, ht.held.trans hheld⟩
  have hreleased : Triple (fun t => Ended result t ∧ t.held = held ++ plan.held)
      (releaseFiles fx plan.held : WriterOp δ κ Unit)
      (fun t _ => Ended result t ∧ t.held.Perm held)
      fun t => (Ended result t ∧ t.held.Perm held) ∧ Troubled fx w t.calls := by
    refine triple_bind (Q := fun t _ => Ended result t ∧ t.held.Perm held)
      (triple_modify fun t ht => ⟨ht.1, ?_⟩) fun _ => ioCall_troubled (fun t ht => ?_)
        fun t ht => ht.1.2.2
    · dsimp only
      rw [ht.2]
      exact diff_append_perm held plan.held
    · have hcalls := Nat.le_succ t.calls
      exact ⟨⟨ht.1.1, fun e he => (ht.1.2.1 e he).mono hcalls, ht.1.2.2.trans hcalls⟩, ht.2⟩
  refine triple_bind (Q := fun t released => (Ended result t ∧ t.held.Perm held) ∧
      ∀ e, released = .error e → Troubled fx w t.calls)
    (triple_attempt (triple_conseq hreleased (fun _ h => h) (fun _ _ h => ⟨h, nofun⟩) fun _ h => h)
      fun _ _ h => ⟨h.1, fun _ _ => h.2⟩) fun released => ?_
  cases result with
  | error e => exact triple_throw fun t ht => ⟨ht.1.2, ht.1.1.2.1 e rfl⟩
  | ok published =>
    cases released with
    | error e => exact triple_throw fun t ht => ⟨ht.1.2, ht.2 e rfl⟩
    | ok u => exact triple_pure fun t ht => ⟨ht.1.1.1 published rfl, ht.1.2⟩

/-- The end of a merge with a merged segment. -/
theorem finished_of_noTry (hmerge : IsMerge plan m sourceLive) (htry : NoTry w)
    (hw : ViewOk w.segmentInfos.counter w.liveSegments)
    (hevolves : ∀ snapshot ∈ plan.sources, ∀ current, Current w snapshot current →
      snapshot.Evolves current) {held : List String} (hheld : w.held = held ++ plan.held)
    (written : Outcome WriterError Unit) :
    Finished fx (written, w) plan m held (finishMerge fx cfg plan (.merged m sourceLive) w).1
      (finishMerge fx cfg plan (.merged m sourceLive) w).2 := by
  have hrun := finishMerge_of_noTry (P := fun published segments flushed =>
      (published = true → ∃ info, Carries w plan m info ∧
        segments = applyMergeChanges plan.names (some info) w.segmentInfos.segments ∧
          flushed = w.flushedSegments) ∧
      (published = false → segments = w.segmentInfos.segments ∧ flushed = w.flushedSegments ∧
        ∃ snapshot ∈ plan.sources, ∀ current, ¬Current w snapshot current)) htry
    (triple_conseq (finishMergeHolding_spec fx cfg hmerge htry hw hevolves)
      (fun _ h => h) (fun t published ht => ⟨⟨fun h => ?_, fun h => ?_⟩, ht.2⟩) fun _ h => h) hheld
  · have hend := hrun w ⟨rfl, rfl, rfl, rfl, rfl, rfl, id, le_rfl⟩
    rcases hxs : finishMerge fx cfg plan (.merged m sourceLive) w with ⟨published | e | -, t⟩
    · rw [hxs] at hend
      obtain ⟨⟨htrue, hfalse⟩, hreleased⟩ := hend
      refine ⟨nofun, fun _ _ => ⟨published, rfl⟩, fun published' h => ?_, fun h => ?_, fun h => ?_,
        hreleased⟩
      · obtain rfl := Outcome.ok.inj h
        cases published with
        | true =>
          obtain ⟨info, hinfo, -⟩ := htrue rfl
          exact iff_of_true rfl hinfo.current
        | false =>
          obtain ⟨-, -, snapshot, hsnapshot, hgone⟩ := hfalse rfl
          refine iff_of_false nofun fun hall => ?_
          obtain ⟨current, hcurrent⟩ := hall snapshot hsnapshot
          exact hgone current hcurrent
      · obtain ⟨info, hinfo, hsegments, hflushed⟩ := htrue (Outcome.ok.inj h)
        refine ⟨info, hinfo, ?_, hflushed⟩
        rw [hsegments]
        exact applyMergeChanges_perm _ _ _
      · obtain ⟨hsegments, hflushed, -⟩ := hfalse (Outcome.ok.inj h)
        exact ⟨hsegments, hflushed⟩
    · rw [hxs] at hend
      exact ⟨nofun, fun _ h => absurd hend.2 h, nofun, nofun, nofun, hend.1⟩
    · rw [hxs] at hend
      exact hend.elim
  · obtain ⟨info, hinfo, hinto⟩ := ht.1.1 h
    exact ⟨info, hinfo, hinto.segments, hinto.flushedSegments⟩
  · obtain ⟨hsame, hgone⟩ := ht.1.2 h
    exact ⟨hsame.segmentInfos, hsame.flushedSegments, hgone⟩

theorem applyMergeChanges_none (names : List String) (l : List (Segment δ)) :
    applyMergeChanges names none l = l.filter fun s => !names.contains s.segmentName := by
  have hreplace : replaceSources names l none =
      (l.filter (fun s => !names.contains s.segmentName), none) := by
    induction l with
    | nil => rfl
    | cons s l ih =>
      rw [replaceSources, ih, List.filter_cons]
      cases hs : names.contains s.segmentName <;> rfl
  rw [applyMergeChanges, hreplace]
  rfl

/-- The end of a merge of sources without a live document. -/
theorem retired_of_noTry (htry : NoTry w)
    (hdead : ∀ s ∈ w.segmentInfos.segments, plan.names.contains s.segmentName = true →
      ∀ row ∈ s.rows, row.live = false) {held : List String} (hheld : w.held = held ++ plan.held)
    (written : Outcome WriterError Unit) :
    Retired fx (written, w) plan held (finishMerge fx cfg plan .allDeleted w).1
      (finishMerge fx cfg plan .allDeleted w).2 := by
  have hdrop : Triple (SameView w) (finishMergeHolding fx cfg plan .allDeleted)
      (fun t published => OnView (fun segments flushed => published = true ∧
        segments = w.segmentInfos.segments.filter (fun s => !plan.names.contains s.segmentName) ∧
          flushed = w.flushedSegments) t ∧ t.held = w.held ∧ w.calls ≤ t.calls)
      (Failed fx w) := by
    refine triple_bind (triple_bind (writePending_sameTriple htry) fun _ => commitMerge_spec _ _ _)
      fun _ => triple_pure fun t ht => ?_
    exact ⟨⟨rfl, ht.segments.trans (applyMergeChanges_none _ _), ht.flushedSegments⟩, ht.held,
      ht.calls⟩
  have hend := finishMerge_of_noTry htry hdrop hheld w ⟨rfl, rfl, rfl, rfl, rfl, rfl, id, le_rfl⟩
  rcases hxs : finishMerge fx cfg plan .allDeleted w with ⟨published | e | -, t⟩
  · rw [hxs] at hend
    obtain ⟨⟨hpublished, hsegments, hflushed⟩, hreleased⟩ := hend
    refine ⟨nofun, fun _ _ => congrArg _ hpublished, fun published' h => ?_, hreleased⟩
    obtain rfl := Outcome.ok.inj h
    exact ⟨hpublished, hsegments, hflushed, hdead⟩
  · rw [hxs] at hend
    exact ⟨nofun, fun _ h => absurd hend.2 h, nofun, hend.1⟩
  · rw [hxs] at hend
    exact hend.elim

/-! ## The changes that wait -/

theorem markDeleted_ne_panic {acc : List (Row δ) × Nat} {ids : List Nat} :
    ids.foldlM markOne acc ≠ .panic := by
  induction ids generalizing acc with
  | nil => exact nofun
  | cons id ids ih =>
    rw [List.foldlM_cons]
    cases hone : markOne acc id with
    | ok a => exact ih
    | err e => exact nofun
    | panic =>
      rw [markOne] at hone
      split at hone
      · cases hone
      · split at hone <;> cases hone

theorem deletedSegment_ne_panic (s : Segment δ) (ids : List Nat) :
    deletedSegment s ids ≠ .panic := by
  intro h
  rw [deletedSegment] at h
  cases hmark : markDeleted s.rows ids with
  | ok a =>
    rw [hmark, ok_bind] at h
    dsimp only at h
    split at h <;> cases h
  | err e =>
    rw [hmark] at h
    cases h
  | panic => exact markDeleted_ne_panic hmark

theorem ioCallOr_safe (recover : Segment δ → Segment δ) :
    Triple (fun _ : SegmentIo δ => True) (SegmentIo.ioCallOr fx recover) (fun _ _ => True)
      fun _ => True := by
  intro io _
  rw [SegmentIo.ioCallOr]
  split <;> trivial

theorem applyDeletes_safe (docIds : List Nat) :
    Triple (fun _ : SegmentIo δ => True) (SegmentIo.applyDeletes fx docIds) (fun _ _ => True)
      fun _ => True := by
  refine triple_get_bind fun io _ => triple_conseq (P := fun _ => True) ?_ (fun _ _ => trivial)
    (fun _ _ h => h) fun _ h => h
  cases hdel : deletedSegment io.segment docIds with
  | ok updated =>
    exact triple_bind (ioCallOr_safe _) fun _ => triple_modify fun _ _ => trivial
  | err e =>
    exact triple_bind (Q := fun _ _ => True) (triple_modify fun _ _ => trivial) fun _ =>
      fun _ _ => trivial
  | panic => exact absurd hdel (deletedSegment_ne_panic _ _)

theorem writeDocValuesUpdates_safe (updates : List ValueUpdate) :
    Triple (fun _ : SegmentIo δ => True) (SegmentIo.writeDocValuesUpdates fx updates)
      (fun _ _ => True) fun _ => True :=
  triple_bind (ioCallOr_safe _) fun _ => triple_modify fun _ _ => trivial

/-- What waits in the writer. -/
def waiting (w : IndexWriter δ κ) : List PendingTryDeletes × List PendingTryUpdates :=
  (w.pendingTryDeletes, w.pendingTryUpdates)

/-- There is a segment at the target, and `l` is what waits. -/
structure HasTarget (t : Target) (l : List PendingTryDeletes × List PendingTryUpdates)
    (w : IndexWriter δ κ) : Prop where
  segment : ∃ s, w.getTarget t = some s
  waiting : w.waiting = l

section

variable {t : Target} {l : List PendingTryDeletes × List PendingTryUpdates}

theorem exists_getTarget {name : String} (h : w.findTarget name = some t) :
    ∃ s, w.getTarget t = some s := by
  rw [findTarget] at h
  cases hfind : w.segmentInfos.segments.findIdx? (·.segmentName == name) with
  | some index =>
    rw [hfind] at h
    obtain rfl := Option.some_inj.1 h
    have hlt := (List.findIdx?_eq_some_iff_findIdx_eq.1 hfind).1
    exact ⟨w.segmentInfos.segments[index], List.getElem?_eq_getElem hlt⟩
  | none =>
    rw [hfind] at h
    obtain ⟨index, hindex, rfl⟩ := Option.map_eq_some_iff.1 h
    have hlt := (List.findIdx?_eq_some_iff_findIdx_eq.1 hindex).1
    exact ⟨w.flushedSegments[index], List.getElem?_eq_getElem hlt⟩

theorem HasTarget.setTarget (h : HasTarget t l w) (s : Segment δ) (calls : Nat) :
    HasTarget t l { w.setTarget t s with calls := calls } := by
  obtain ⟨⟨s', hs'⟩, hl⟩ := h
  rw [getTarget] at hs'
  by_cases ht : t.committed = true
  · rw [if_pos ht] at hs'
    refine ⟨⟨s, ?_⟩, ?_⟩
    · rw [getTarget, if_pos ht, IndexWriter.setTarget, if_pos ht]
      exact List.getElem?_set_self (List.getElem?_eq_some_iff.1 hs').1
    · rw [IndexWriter.setTarget, if_pos ht]
      exact hl
  · rw [if_neg ht] at hs'
    refine ⟨⟨s, ?_⟩, ?_⟩
    · rw [getTarget, if_neg ht, IndexWriter.setTarget, if_neg ht]
      exact List.getElem?_set_self (List.getElem?_eq_some_iff.1 hs').1
    · rw [IndexWriter.setTarget, if_neg ht]
      exact hl

theorem onTarget_safe {x : Op WriterError (SegmentIo δ) α}
    (hx : Triple (fun _ => True) x (fun _ _ => True) fun _ => True) :
    Triple (HasTarget t l) (onTarget t x : WriterOp δ κ α) (fun w _ => HasTarget t l w)
      fun _ => True := by
  intro w hw
  obtain ⟨s, hs⟩ := hw.segment
  have hrun := hx ⟨s, w.calls⟩ trivial
  rw [onTarget, hs]
  dsimp only
  rcases hxs : x ⟨s, w.calls⟩ with ⟨a | e | -, io⟩
  · exact hw.setTarget _ _
  · trivial
  · rw [hxs] at hrun
    exact hrun.elim

/-- The segment at the target is there to be read. -/
theorem expectTarget_safe {f : Segment δ → WriterOp δ κ α} {Q : IndexWriter δ κ → α → Prop}
    (hf : ∀ s, Triple (HasTarget t l) (f s) Q fun _ => True) :
    Triple (HasTarget t l) (do
        let s ← Op.get (·.getTarget t)
        let s ← Op.lift (.expect s)
        f s) Q fun _ => True := by
  intro w hw
  obtain ⟨s, hs⟩ := hw.segment
  change Sat _ _ ((Op.lift (.expect (w.getTarget t)) >>= f) w)
  rw [hs]
  exact hf s w hw

theorem readLiveDocs_safe (s : Segment δ) :
    Triple (HasTarget t l) (readLiveDocs fx s : WriterOp δ κ (List Bool))
      (fun w _ => HasTarget t l w) fun _ => True := by
  refine triple_bind (Q := fun w _ => HasTarget t l w) (triple_when (fun _ => ?_) fun _ _ h => h)
    fun _ => triple_pure fun _ h => h
  exact triple_conseq (ioCall_triple (I := HasTarget t l) fun _ h => ⟨h.1, h.2⟩) (fun _ h => h)
    (fun _ _ h => h) fun _ _ => trivial

theorem dropFullyDeletedSegments_waiting (cfg : WriterConfig δ κ) (w : IndexWriter δ κ)
    (committed flushed : List Bool) :
    (w.dropFullyDeletedSegments cfg committed flushed).waiting = w.waiting := by
  rw [dropFullyDeletedSegments]
  split <;> rfl

/-- The deletes of one segment are written or refused, without a panic. -/
theorem writeTryDeletes_safe (p : PendingTryDeletes) :
    Triple (fun w => w.waiting = l) (writeTryDeletes fx cfg p) (fun w _ => w.waiting = l)
      fun _ => True := by
  refine triple_ite (fun _ => triple_pure fun _ h => h) fun _ => triple_get_bind fun w hw => ?_
  cases htarget : w.findTarget p.segmentName with
  | none => exact triple_pure fun _ h => h ▸ hw
  | some t =>
    refine triple_conseq (P := HasTarget t l) ?_ (fun _ h => h ▸ ⟨exists_getTarget htarget, hw⟩)
      (fun _ _ h => h) fun _ h => h
    refine expectTarget_safe fun s => triple_bind (readLiveDocs_safe s) fun _ => ?_
    refine triple_bind (onTarget_safe (applyDeletes_safe _)) fun _ => expectTarget_safe fun s => ?_
    refine triple_when (fun _ => triple_modify fun w hw => ?_) fun _ _ h => h.waiting
    exact (dropFullyDeletedSegments_waiting _ _ _ _).trans hw.waiting

theorem writeTryUpdates_safe (p : PendingTryUpdates) :
    Triple (fun w => w.waiting = l) (writeTryUpdates fx p : WriterOp δ κ Unit)
      (fun w _ => w.waiting = l) fun _ => True := by
  refine triple_get_bind fun w hw => ?_
  cases htarget : w.findTarget p.segmentName with
  | none => exact triple_pure fun _ h => h ▸ hw
  | some t =>
    exact triple_conseq (onTarget_safe (writeDocValuesUpdates_safe _))
      (fun _ h => h ▸ ⟨exists_getTarget htarget, hw⟩) (fun _ _ h => h.waiting) fun _ h => h

theorem writeAllTryDeletes_safe (ps : List PendingTryDeletes) :
    Triple (fun w => w.waiting = l) (writeAllTryDeletes fx cfg ps) (fun w _ => w.waiting = l)
      fun _ => True := by
  induction ps with
  | nil => exact triple_pure fun _ h => h
  | cons p ps ih =>
    refine triple_bind (Q := fun w r => r = .ok () → w.waiting = l)
      (triple_attempt (triple_conseq (writeTryDeletes_safe p) (fun _ h => h)
        (fun _ _ h _ => h) fun _ h => h) fun _ _ _ => nofun) fun result => ?_
    cases result with
    | ok u => exact triple_conseq ih (fun _ h => h rfl) (fun _ _ h => h) fun _ h => h
    | error e =>
      exact triple_bind (Q := fun _ _ => True) (triple_modify fun _ _ => trivial) fun _ =>
        triple_throw fun _ h => h

theorem writeAllTryUpdates_safe (ps : List PendingTryUpdates) :
    Triple (fun w => w.waiting = l) (writeAllTryUpdates fx ps : WriterOp δ κ Unit)
      (fun w _ => w.waiting = l) fun _ => True := by
  induction ps with
  | nil => exact triple_pure fun _ h => h
  | cons p ps ih =>
    refine triple_bind (Q := fun w r => r = .ok () → w.waiting = l)
      (triple_attempt (triple_conseq (writeTryUpdates_safe p) (fun _ h => h)
        (fun _ _ h _ => h) fun _ h => h) fun _ _ _ => nofun) fun result => ?_
    cases result with
    | ok u => exact triple_conseq ih (fun _ h => h rfl) (fun _ _ h => h) fun _ h => h
    | error e =>
      exact triple_bind (Q := fun _ _ => True) (triple_modify fun _ _ => trivial) fun _ =>
        triple_throw fun _ h => h

end

/-- After the writing of what waits nothing waits, or it has failed. -/
theorem writePending_safe :
    Triple (fun _ => True) (writePendingTryChanges fx cfg) (fun w _ => NoTry w) fun _ => True := by
  refine triple_get_bind fun w _ => triple_ite (fun hnone => triple_pure fun w' hw' => ?_) fun _ => ?_
  · rw [hw']
    rw [Bool.and_eq_true, List.isEmpty_iff, List.isEmpty_iff] at hnone
    exact hnone
  have hchanges : Triple (fun t => t = w) (writeTryChanges fx cfg) (fun w _ => w.waiting = ([], []))
      fun _ => True := by
    refine triple_get_bind fun w _ => ?_
    refine triple_bind (Q := fun t _ => t.waiting = ([], w.pendingTryUpdates))
      (triple_modify fun t ht => ht ▸ rfl) fun _ => ?_
    refine triple_bind (writeAllTryDeletes_safe _) fun _ => triple_get_bind fun t ht => ?_
    refine triple_bind (Q := fun t _ => t.waiting = ([], [])) (triple_modify fun t' ht' => ?_)
      fun _ => writeAllTryUpdates_safe _
    rw [ht', waiting, Prod.mk.injEq]
    exact ⟨(Prod.mk.inj ht).1, rfl⟩
  refine triple_bind (Q := fun w r => r = .ok () → NoTry w)
    (triple_attempt (triple_conseq hchanges (fun _ h => h) (fun _ _ h _ => Prod.mk.inj h)
      fun _ h => h) fun _ _ _ => nofun) fun result => ?_
  refine triple_bind (Q := fun w _ => result = .ok () → NoTry w) ?_ fun _ =>
    triple_ofExcept (fun _ _ h hr => h hr) fun _ _ => trivial
  exact triple_conseq (ioCall_triple (I := fun w => result = .ok () → NoTry w) fun _ h => h)
    (fun _ h => h) (fun _ _ h => h) fun _ _ => trivial


/-! ## Runs -/

/-- The committed segments are what is left of `l`, and `held` are the
references to files. -/
def RemainsOf (l : List (Segment δ)) (held : List String) (w : IndexWriter δ κ) : Prop :=
  Remains l w.segmentInfos.segments ∧ w.held = held

theorem lasts_remainsOf (l : List (Segment δ)) (held : List String) :
    Lasts (RemainsOf l held : IndexWriter δ κ → Prop) :=
  fun _ _ hremains hheld h => ⟨h.1.trans hremains, hheld.trans h.2⟩

theorem lasts_held (held : List String) : Lasts fun w : IndexWriter δ κ => w.held = held :=
  fun _ _ _ h h' => h.trans h'

/-- The sources are the segments with the names asked for. -/
structure Sources (segments : List (Segment δ)) (names : List String)
    (sources : List (Segment δ)) : Prop where
  mem : ∀ s ∈ sources, s ∈ segments
  names : sources.map (·.segmentName) = names

theorem findSources_spec {segments sources : List (Segment δ)} {names : List String}
    (h : findSources segments names = .ok sources) : Sources segments names sources := by
  induction names generalizing sources with
  | nil =>
    obtain rfl := Outcome.ok.inj h
    exact ⟨nofun, rfl⟩
  | cons name names ih =>
    obtain ⟨s, hs, h⟩ := Outcome.bind_eq_ok.1 h
    obtain ⟨rest, hrest, h⟩ := Outcome.bind_eq_ok.1 h
    obtain rfl := Outcome.ok.inj h
    have hfind := expect_eq_ok hs
    have hname : s.segmentName = name := by simpa using List.find?_some hfind
    refine ⟨List.forall_mem_cons.2 ⟨List.mem_of_find?_eq_some hfind, (ih hrest).mem⟩, ?_⟩
    rw [List.map_cons, hname, (ih hrest).names]

/-- A merge takes copies of segments of the view, and holds their files. -/
theorem beginMerge_spec (names : List String) (held : List String) :
    Ends (ViewInv fun w => w.held = held) (beginMerge fx cfg names)
      (fun w plan => Viewed w ∧ w.held = held ++ plan.held ∧
        Sources w.segmentInfos.segments plan.names plan.sources) fun _ => True := by
  have hP := lasts_held (δ := δ) (κ := κ) held
  refine ends_bind ((writePending_view hP).ends_weaken fun _ _ => trivial) fun _ => ?_
  refine ends_bind (Q := fun w _ => ViewInv (fun w => w.held = held) w)
    (ends_modify fun w hw => ⟨hw.view, hw.prepared, hw.rollback, hw.base⟩) fun _ => ?_
  refine ends_bind (ends_conseq (newSegmentName_view hP) (fun _ h => h) (fun _ _ h => h.1)
    fun _ _ => trivial) fun name => ends_get_bind fun w hw => ?_
  refine ends_bind (Q := fun t sources => ViewInv (fun w => w.held = held) t ∧
      Sources t.segmentInfos.segments names sources)
    (ends_lift (fun _ _ => trivial) fun t sources ht h => ht ▸ ⟨hw, findSources_spec h⟩)
    fun sources => ?_
  refine ends_bind (Keeps.ends_weaken (fun t ht => ⟨ioCall_view hP t ht.1, ht.2⟩)
    fun _ _ => trivial) fun _ => ?_
  refine ends_bind (Q := fun t _ => Viewed t ∧ t.held = held ++ sources.flatMap cfg.segmentFiles ∧
      Sources t.segmentInfos.segments names sources) (ends_modify fun t ht => ?_) fun _ =>
    ends_pure fun _ h => h
  refine ⟨⟨ht.1.view, ht.1.prepared, ht.1.rollback, trivial⟩, ?_, ht.2⟩
  dsimp only
  rw [ht.1.base]

variable [DecidableEq κ]

theorem runCalls_edits {P : IndexWriter δ κ → Prop} (hP : Lasts P) {calls : List (WriterCall δ κ)}
    (hcalls : Along fx cfg (fun w call => call.edits = true ∧ call.ownSegments w) calls w)
    (hw : ViewInv P w) :
    ViewInv P (runCalls fx cfg calls w).2 := by
  induction calls generalizing w with
  | nil => exact hw
  | cons call calls ih =>
    exact ih hcalls.2 (WriterCall.run_edits hP hcalls.1.1 hcalls.1.2 hw)

/-- A merge is begun in a run, and edits follow.  When it is finished, the
merged segment has exactly the documents that are live in the sources, or the
view is left alone because a source has changed.  The sources of a merge without a
live document go.  The files that the merge holds are released, unless the changes
of single documents that still wait cannot be written. -/
theorem finishMerge_carries {counter generation : Nat} {segments : List (Segment δ)}
    (hsegments : ViewOk counter segments) {before between : List (WriterCall δ κ)}
    (hbefore : Along fx cfg (fun w call => call.ownSegments w) before
      (.new counter generation segments))
    {names : List String} {w₁ : IndexWriter δ κ}
    (hbegin : beginMerge fx cfg names
      (runCalls fx cfg before (.new counter generation segments)).2 = (.ok plan, w₁))
    (hbetween : Along fx cfg (fun w call => call.edits = true ∧ call.ownSegments w) between w₁) :
    let held := (runCalls fx cfg before (.new counter generation segments)).2.held
    let w := (runCalls fx cfg between w₁).2
    let written := writePendingTryChanges fx cfg w
    (∀ m sourceLive, IsMerge plan m sourceLive →
      (Finished fx written plan m held (finishMerge fx cfg plan (.merged m sourceLive) w).1
          (finishMerge fx cfg plan (.merged m sourceLive) w).2 ↔
        written.1 = .ok () ∨ plan.held = [])) ∧
      (liveRows plan.sources = [] →
        (Retired fx written plan held (finishMerge fx cfg plan .allDeleted w).1
            (finishMerge fx cfg plan .allDeleted w).2 ↔
          written.1 = .ok () ∨ plan.held = [])) := by
  have hnew : Viewed (.new counter generation segments : IndexWriter δ κ) := by
    refine ⟨?_, nofun, hsegments, trivial⟩
    have hlive : (.new counter generation segments : IndexWriter δ κ).liveSegments = segments :=
      List.append_nil _
    rw [hlive]
    exact hsegments
  have hview₀ := hbefore.invariant (fun _ _ => WriterCall.run_view) hnew
  generalize (runCalls fx cfg before (.new counter generation segments)).2 = w₀ at hview₀ hbegin ⊢
  have hspec : Ends (ViewInv fun w => w.held = w₀.held) (beginMerge fx cfg names) _ _ :=
    beginMerge_spec names w₀.held
  have hbegun := hspec w₀ ⟨hview₀.view, hview₀.prepared, hview₀.rollback, rfl⟩
  rw [hbegin] at hbegun
  obtain ⟨hview₁, hheld₁, hsources⟩ := hbegun
  have hcommitted : ViewOk w₁.segmentInfos.counter w₁.segmentInfos.segments :=
    hview₁.view.sublist (List.sublist_append_left _ _)
  have hP := lasts_remainsOf (κ := κ) w₁.segmentInfos.segments w₁.held
  intro held w written
  have hrun : ViewInv (RemainsOf w₁.segmentInfos.segments w₁.held) w :=
    runCalls_edits hP hbetween
      ⟨hview₁.view, hview₁.prepared, hview₁.rollback, .refl hcommitted.wellFormed, rfl⟩
  have hwritten : ViewInv (RemainsOf w₁.segmentInfos.segments w₁.held) written.2 :=
    writePending_view hP w hrun
  have hheld : written.2.held = held ++ plan.held := hwritten.base.2.trans hheld₁
  -- a segment comes from the snapshot of the same name
  have hevolves : ∀ snapshot ∈ plan.sources, ∀ current ∈ written.2.segmentInfos.segments,
      current.segmentName = snapshot.segmentName → snapshot.Evolves current := by
    intro snapshot hsnapshot current hcurrent hsame
    obtain ⟨s, hs, hevolves⟩ := hwritten.base.1.mem hcurrent
    have hname : s.segmentName = snapshot.segmentName := hevolves.segmentName.symm.trans hsame
    obtain rfl := List.inj_on_of_nodup_map hcommitted.names hs (hsources.mem snapshot hsnapshot) hname
    exact hevolves
  have hsafe : Sat (fun w _ => NoTry w) (fun _ => True) (writePendingTryChanges fx cfg w) :=
    writePending_safe w trivial
  rcases hpending : writePendingTryChanges fx cfg w with ⟨u | e | -, w'⟩
  · have hwritten' : written = (.ok u, w') := hpending
    rw [hpending] at hsafe
    have htry : NoTry w' := hsafe
    rw [hwritten'] at hwritten hheld hevolves ⊢
    have hsame : ∀ outcome, finishMerge fx cfg plan outcome w = finishMerge fx cfg plan outcome w' := by
      intro outcome
      rw [finishMerge, bind_ok hpending, bind_ok (writePending_of_noTry htry)]
    refine ⟨fun m sourceLive hmerge => iff_of_true ?_ (.inl rfl),
      fun hdead => iff_of_true ?_ (.inl rfl)⟩
    · rw [hsame]
      exact finished_of_noTry hmerge htry hwritten.view (fun snapshot hsnapshot current hcurrent =>
        hevolves snapshot hsnapshot current hcurrent.mem hcurrent.segmentName) hheld _
    · rw [hsame]
      refine retired_of_noTry htry (fun s hs hname row hrow => ?_) hheld _
      rw [List.contains_iff_mem, ← hsources.names] at hname
      obtain ⟨snapshot, hsnapshot, hsame⟩ := List.mem_map.1 hname
      have hev := hevolves snapshot hsnapshot s hs hsame.symm
      obtain ⟨i, hi⟩ := List.mem_iff_getElem?.1 hrow
      obtain ⟨row₀, hrow₀⟩ := exists_row hev.length hi
      by_contra hlive
      have hlive₀ := (hev.doc hrow₀ hi).2.1 (Bool.not_eq_false _ ▸ hlive)
      have hmem : row₀ ∈ liveRows plan.sources :=
        List.mem_flatMap.2 ⟨snapshot, hsnapshot,
          List.mem_filter.2 ⟨List.mem_of_getElem? hrow₀, hlive₀⟩⟩
      rw [hdead] at hmem
      exact absurd hmem List.not_mem_nil
  · have hwritten' : written = (.err e, w') := hpending
    rw [hwritten'] at hheld ⊢
    have hfinished : ∀ outcome, finishMerge fx cfg plan outcome w = (.err e, w') :=
      fun _ => bind_err hpending
    have hreleased : w'.held.Perm held ↔ plan.held = [] := by
      dsimp only at hheld
      rw [hheld]
      refine ⟨fun h => ?_, fun h => by rw [h, List.append_nil]⟩
      have hlen := h.length_eq
      rw [List.length_append] at hlen
      exact List.length_eq_zero_iff.1 (by omega)
    refine ⟨fun m sourceLive _ => ?_, fun _ => ?_⟩
    · rw [hfinished]
      exact ⟨fun h => .inr (hreleased.1 h.released), fun h =>
        ⟨nofun, nofun, nofun, nofun, nofun, hreleased.2 (h.resolve_left nofun)⟩⟩
    · rw [hfinished]
      exact ⟨fun h => .inr (hreleased.1 h.released), fun h =>
        ⟨nofun, nofun, nofun, hreleased.2 (h.resolve_left nofun)⟩⟩
  · rw [hpending] at hsafe
    exact hsafe.elim

end

/-! ## A merge of one segment -/

/-- The plan of a merge that has begun. -/
def begunPlan : Outcome WriterError (MergePlan δ) → MergePlan δ
  | .ok plan => plan
  | .err _ => ⟨[], [], "", []⟩
  | .panic => ⟨[], [], "", []⟩

theorem begunPlan_eq {x : Outcome WriterError (MergePlan δ)} (h : succeeded x = true) :
    x = .ok (begunPlan x) := by
  cases x with
  | ok plan => rfl
  | err e => cases h
  | panic => cases h

/-- The outcome is a merged segment. -/
def MergeOutcome.isMerged : MergeOutcome δ → Bool
  | .allDeleted => false
  | .merged .. => true

theorem MergeOutcome.exists_merged {outcome : MergeOutcome δ} (h : outcome.isMerged = true) :
    ∃ m sourceLive, outcome = .merged m sourceLive := by
  cases outcome with
  | allDeleted => cases h
  | merged m sourceLive => exact ⟨m, sourceLive, rfl⟩

/-- A merge of the one segment of a writer is begun. -/
def smallMerge (fx : WriterFaults) :
    Outcome WriterError (MergePlan (List U8)) × IndexWriter (List U8) Term :=
  beginMerge fx plainConfig ["_0"]
    (runCalls fx plainConfig [.addDocument [1], .addDocument [2], .commit none []] (.new 0 0 [])).2

/-- A document of the source is deleted while the merge runs. -/
theorem finishMerge_carries_delete :
    let plan := begunPlan (smallMerge noIoFaults).1
    let w := (runCalls noIoFaults plainConfig
      [.deleteDocumentsByTerm [⟨"id", [1]⟩], .flush] (smallMerge noIoFaults).2).2
    ∃ m sourceLive, mergeOutcome plainConfig plan = .merged m sourceLive ∧
      Finished noIoFaults (writePendingTryChanges noIoFaults plainConfig w) plan m
        (runCalls noIoFaults plainConfig [.addDocument [1], .addDocument [2], .commit none []]
          (.new 0 0 [] : IndexWriter (List U8) Term)).2.held
        (finishMerge noIoFaults plainConfig plan (.merged m sourceLive) w).1
        (finishMerge noIoFaults plainConfig plan (.merged m sourceLive) w).2 := by
  intro plan w
  obtain ⟨m, sourceLive, hmerged⟩ : ∃ m sourceLive,
      mergeOutcome plainConfig plan = .merged m sourceLive :=
    MergeOutcome.exists_merged (by decide +kernel)
  have hbegin : (smallMerge noIoFaults).1 = .ok plan := begunPlan_eq (by decide +kernel)
  have hwritten : (writePendingTryChanges noIoFaults plainConfig w).1 = .ok () := by decide +kernel
  have hbefore : Along noIoFaults plainConfig (fun w call => call.ownSegments w)
      [.addDocument [1], .addDocument [2], .commit none []] (.new 0 0 []) :=
    ⟨trivial, trivial, trivial, trivial⟩
  have hbetween : Along noIoFaults plainConfig (fun w call => call.edits = true ∧ call.ownSegments w)
      [.deleteDocumentsByTerm [⟨"id", [1]⟩], .flush] (smallMerge noIoFaults).2 :=
    ⟨⟨rfl, trivial⟩, ⟨rfl, trivial⟩, trivial⟩
  refine ⟨m, sourceLive, hmerged, ?_⟩
  exact ((finishMerge_carries ViewOk.nil hbefore (Prod.ext hbegin rfl) hbetween).1 m sourceLive
    (isMerge_mergeOutcome hmerged)).2 (.inl hwritten)

/-- An update of a document waits, and it cannot be written when the merge is
finished: the files of the source stay held. -/
theorem finishMerge_leaks :
    let fx := faultAt 21
    let plan := begunPlan (smallMerge fx).1
    let w := (runCalls fx plainConfig
      [.tryUpdateDocValue plan.sources 0 [.numeric ⟨"id", [1]⟩ "rank" (some 7)]]
      (smallMerge fx).2).2
    (smallMerge fx).1 = .ok plan ∧ ∃ m sourceLive,
      mergeOutcome plainConfig plan = .merged m sourceLive ∧ IsMerge plan m sourceLive ∧
        (finishMerge fx plainConfig plan (.merged m sourceLive) w).1 = .err .io ∧
          ¬Finished fx (writePendingTryChanges fx plainConfig w) plan m
            (runCalls fx plainConfig [.addDocument [1], .addDocument [2], .commit none []]
              (.new 0 0 [] : IndexWriter (List U8) Term)).2.held
            (finishMerge fx plainConfig plan (.merged m sourceLive) w).1
            (finishMerge fx plainConfig plan (.merged m sourceLive) w).2 := by
  intro fx plan w
  refine ⟨begunPlan_eq (by decide +kernel), ?_⟩
  obtain ⟨m, sourceLive, hmerged⟩ : ∃ m sourceLive,
      mergeOutcome plainConfig plan = .merged m sourceLive :=
    MergeOutcome.exists_merged (by decide +kernel)
  refine ⟨m, sourceLive, hmerged, isMerge_mergeOutcome hmerged, ?_⟩
  rw [← hmerged]
  refine ⟨by decide +kernel, fun h => ?_⟩
  have hheld : (finishMerge fx plainConfig plan (mergeOutcome plainConfig plan) w).2.held =
      ["_0.si"] := by decide +kernel
  have hbefore : (runCalls fx plainConfig [.addDocument [1], .addDocument [2], .commit none []]
      (.new 0 0 [] : IndexWriter (List U8) Term)).2.held = [] := by decide +kernel
  have hreleased := h.released
  rw [hheld, hbefore] at hreleased
  exact absurd hreleased.length_eq (by decide)

end IndexWriter

end LuceneRust.Index
