import LuceneRust.Index.IndexFileDeleter

/-!
# Files that are referenced stay

`Covers need keep` says of the counts that each file has at least `need` of
them, and of the directory that it has the files `keep`.  An operation on the
counts is a triple about `Covers`: `incRefAll` adds to `need`, `decRefAll`
takes away, and a file with no need left may go.

* `decRefAll_triple` and `deleteFiles_triple` are the two that delete.
* `Settled` is the invariant of the deleter with a `SnapshotDeletionPolicy`,
  and `checkpoint_commit_triple`, `checkpoint_view_triple`,
  `refresh_triple`, `revisitPolicy_triple` and `openInner_triple` keep it.
-/

namespace LuceneRust.Index

open RustSem
open StateHoare
open Store (Files)

variable {fx : DirFaults} {need need' : String → Nat} {keep keep' : String → Prop}
  {s : FileDeleter}

/-! ## Counts -/

/-- The references that are needed are counted, and the files that are kept
are in the directory. -/
structure Covers (need : String → Nat) (keep : String → Prop) (s : FileDeleter) : Prop where
  counted : ∀ f, need f ≤ s.refCount f
  needed : ∀ f, keep f → 0 < need f
  there : ∀ f, keep f → f ∈ s.files

theorem Covers.mono (h : Covers need keep s) (hneed : ∀ f, need' f ≤ need f)
    (hkeep : ∀ f, keep' f → keep f ∧ 0 < need' f) : Covers need' keep' s where
  counted f := (hneed f).trans (h.counted f)
  needed f hf := (hkeep f hf).2
  there f hf := h.there f (hkeep f hf).1

theorem refCount_incRef (name f : String) :
    (s.incRef name).refCount f =
      if f = name then min (s.refCount name + 1) u32Max else s.refCount f := by
  rw [FileDeleter.incRef, FileDeleter.refCount]
  split
  case isTrue h =>
    subst h
    rw [AList.lookup_insert]
    rfl
  case isFalse h =>
    rw [AList.lookup_insert_ne h]
    rfl

theorem incRefAll_cons (name : String) (names : List String) :
    s.incRefAll (name :: names) = (s.incRef name).incRefAll names := rfl

theorem files_incRefAll (names : List String) : (s.incRefAll names).files = s.files := by
  induction names generalizing s with
  | nil => rfl
  | cons name names ih =>
    rw [incRefAll_cons, ih]
    rfl

/-- A count is far from its maximum, so it goes up. -/
theorem Covers.incRefAll (h : Covers need keep s) (names : List String)
    (hmax : ∀ f, need f + names.count f ≤ u32Max) :
    Covers (fun f => need f + names.count f) keep (s.incRefAll names) := by
  refine ⟨?_, fun f hf => Nat.add_pos_left (h.needed f hf) _, fun f hf => ?_⟩
  · have hcounted := h.counted
    clear h
    induction names generalizing s need with
    | nil => exact hcounted
    | cons name names ih =>
      intro f
      have hstep : ∀ f, need f + [name].count f ≤ (s.incRef name).refCount f := by
        intro f
        have hmaxf := hmax f
        have hf := hcounted f
        rw [refCount_incRef]
        split
        case isTrue heq =>
          subst heq
          rw [List.count_cons_self] at hmaxf
          rw [List.count_singleton_self]
          omega
        case isFalse hne =>
          rw [List.count_singleton, if_neg (by simpa using Ne.symm hne)]
          exact hf
      have hmax' : ∀ f, need f + [name].count f + names.count f ≤ u32Max := by
        intro f
        have hmaxf := hmax f
        rw [List.count_cons] at hmaxf
        rw [List.count_singleton]
        omega
      rw [incRefAll_cons]
      refine le_trans (le_of_eq ?_) (ih hmax' hstep f)
      rw [List.count_cons, List.count_singleton]
      omega
  · rw [files_incRefAll]
    exact h.there f hf

/-! ## Deletes -/

theorem files_deleteFile {name f : String} (hne : f ≠ name) :
    f ∈ s.files → f ∈ (FileDeleter.deleteFile fx name s).2.files := by
  have herase : f ∈ s.files → f ∈ s.files.erase name := by
    intro hf
    rw [AList.mem_erase]
    exact ⟨hne, hf⟩
  intro hf
  rw [FileDeleter.deleteFile]
  split
  · dsimp only
    split
    · exact herase hf
    · exact hf
  · split
    · exact herase hf
    · exact hf

theorem refCounts_deleteFile (name : String) :
    (FileDeleter.deleteFile fx name s).2.refCounts = s.refCounts := by
  rw [FileDeleter.deleteFile]
  split
  · rfl
  · split <;> rfl

theorem Covers.deleteOne (segmentsPass : Bool) (first : Option DeleterError) {name : String}
    (h : Covers need keep s) (hname : need name = 0) :
    Covers need keep (FileDeleter.deleteOne fx segmentsPass (first, s) name).2 := by
  rw [FileDeleter.deleteOne]
  split
  case isFalse => exact h
  case isTrue =>
    refine ⟨fun f => ?_, h.needed, fun f hf => files_deleteFile ?_ (h.there f hf)⟩
    · by_cases hf : f = name
      · rw [hf, hname]
        exact Nat.zero_le _
      · rw [FileDeleter.refCount, refCounts_deleteFile, AList.lookup_erase_ne hf]
        exact h.counted f
    · rintro rfl
      exact absurd (h.needed f hf) (by omega)

theorem Covers.deleteFold (fx : DirFaults) (segmentsPass : Bool) (names : List String)
    (hnames : ∀ f ∈ names, need f = 0) (st : Option DeleterError × FileDeleter)
    (h : Covers need keep st.2) :
    Covers need keep (names.foldl (FileDeleter.deleteOne fx segmentsPass) st).2 := by
  induction names generalizing st with
  | nil => exact h
  | cons name names ih =>
    rw [List.foldl_cons]
    refine ih (fun f hf => hnames f (List.mem_cons_of_mem name hf)) _ ?_
    exact h.deleteOne segmentsPass st.1 (hnames name List.mem_cons_self)

/-- Files that are not needed may be deleted. -/
theorem deleteFiles_triple (fx : DirFaults) (keep : String → Prop) {names : List String} (hnames : ∀ f ∈ names, need f = 0) :
    Triple (Covers need keep) (FileDeleter.deleteFiles fx names) (fun s _ => Covers need keep s)
      (Covers need keep) := by
  intro s hs
  have hfirst := hs.deleteFold fx true names hnames (none, s)
  rw [FileDeleter.deleteFiles]
  rcases hp : names.foldl (FileDeleter.deleteOne fx true) (none, s) with ⟨first, s'⟩
  rw [hp] at hfirst
  have hsecond := hfirst.deleteFold fx false names hnames (none, s')
  cases first with
  | some e => exact hfirst
  | none =>
    dsimp only
    rcases hp' : names.foldl (FileDeleter.deleteOne fx false) (none, s') with ⟨first', s''⟩
    rw [hp'] at hsecond
    cases first' with
    | some e => exact hsecond
    | none => exact hsecond

/-- The counts of the names go down, and a name that is to be deleted has no
need left. -/
theorem foldlM_decRef (names : List String) (st : RefCounts × List String)
    (hst : ∀ f, need f + names.count f ≤ (st.1.lookup f).getD 0)
    (hdel : ∀ f ∈ st.2, need f = 0) :
    ∃ st', names.foldlM FileDeleter.decRef st = .ok st' ∧
      (∀ f, need f ≤ (st'.1.lookup f).getD 0) ∧ ∀ f ∈ st'.2, need f = 0 := by
  induction names generalizing st with
  | nil => exact ⟨st, rfl, hst, hdel⟩
  | cons name names ih =>
    have hname := hst name
    rw [List.count_cons_self] at hname
    obtain ⟨c, hc⟩ : ∃ c, st.1.lookup name = some c := by
      cases hlook : st.1.lookup name with
      | some c => exact ⟨c, rfl⟩
      | none =>
        rw [hlook, Option.getD_none] at hname
        omega
    rw [hc, Option.getD_some] at hname
    have hothers : ∀ f, f ≠ name → need f + names.count f ≤ (st.1.lookup f).getD 0 := by
      intro f hf
      have hstf := hst f
      rwa [List.count_cons_of_ne (Ne.symm hf)] at hstf
    rw [List.foldlM_cons, FileDeleter.decRef, hc]
    dsimp only
    rw [guardOk_pos (by omega), ok_bind]
    split
    case isTrue hz =>
      refine ih _ (fun f => ?_) (fun f hf => ?_)
      · by_cases hf : f = name
        · rw [hf, AList.lookup_erase, Option.getD_none]
          omega
        · rw [AList.lookup_erase_ne hf]
          exact hothers f hf
      · rcases List.mem_append.mp hf with hf | hf
        · exact hdel f hf
        · rw [List.mem_singleton.mp hf]
          omega
    case isFalse hz =>
      refine ih _ (fun f => ?_) hdel
      by_cases hf : f = name
      · rw [hf, AList.lookup_insert, Option.getD_some]
        omega
      · rw [AList.lookup_insert_ne hf]
        exact hothers f hf

/-- References are dropped, and the files that lose their last one are
deleted. -/
theorem decRefAll_triple (names : List String) (hkeep : ∀ f, keep f → 0 < need f) :
    Triple (Covers (fun f => need f + names.count f) keep) (FileDeleter.decRefAll fx names)
      (fun s _ => Covers need keep s) (Covers need keep) := by
  intro s hs
  obtain ⟨⟨refCounts, toDelete⟩, hfold, hcounted, hdel⟩ :=
    foldlM_decRef names (s.refCounts, []) hs.counted (by simp)
  rw [FileDeleter.decRefAll, hfold]
  exact deleteFiles_triple fx keep hdel { s with refCounts := refCounts }
    ⟨hcounted, hkeep, fun f hf => hs.there f hf⟩

/-! ## Commit points -/

/-- What the deleter has beside the counts. -/
structure View where
  custom : Option Primary
  snapshots : SnapshotState
  commits : List CommitPoint
  lastFiles : List String

/-- The view of a deleter. -/
def IndexFileDeleter.view (d : IndexFileDeleter) : View :=
  ⟨d.custom, d.snapshots, d.commits, d.lastFiles⟩

/-- A program over the counts leaves the rest alone. -/
theorem triple_onFiles_frame {α : Type} {G : IndexFileDeleter → Prop} {A E : FileDeleter → Prop}
    {B : FileDeleter → α → Prop} {x : Op DeleterError FileDeleter α}
    (hG : ∀ d s, G d → G { d with toFileDeleter := s }) (hx : Triple A x B E) :
    Triple (fun d => G d ∧ A d.toFileDeleter) (IndexFileDeleter.onFiles x)
      (fun d a => G d ∧ B d.toFileDeleter a) (fun d => G d ∧ E d.toFileDeleter) := by
  rintro d ⟨hd, hA⟩
  have hrun := hx d.toFileDeleter hA
  rw [IndexFileDeleter.onFiles]
  rcases hxs : x d.toFileDeleter with ⟨a | e | -, s'⟩
  · rw [hxs] at hrun
    exact ⟨hG d s' hd, hrun⟩
  · rw [hxs] at hrun
    exact ⟨hG d s' hd, hrun⟩
  · rw [hxs] at hrun
    exact hrun

theorem triple_onFiles {α : Type} {v : View} {A E : FileDeleter → Prop}
    {B : FileDeleter → α → Prop} {x : Op DeleterError FileDeleter α} (hx : Triple A x B E) :
    Triple (fun d => d.view = v ∧ A d.toFileDeleter) (IndexFileDeleter.onFiles x)
      (fun d a => d.view = v ∧ B d.toFileDeleter a)
      (fun d => d.view = v ∧ E d.toFileDeleter) :=
  triple_onFiles_frame (fun _ _ hv => hv) hx

/-- The references of commit points to a file. -/
def named (commits : List CommitPoint) (f : String) : Nat :=
  (commits.map fun c => c.files.count f).sum

/-- A file of one of the commit points. -/
def keepOf (commits : List CommitPoint) (f : String) : Prop := ∃ c ∈ commits, f ∈ c.files

variable {commits kept doomed : List CommitPoint} {v : View} {f : String}

theorem named_append (l l' : List CommitPoint) (f : String) :
    named (l ++ l') f = named l f + named l' f := by
  rw [named, List.map_append, List.sum_append]
  rfl

theorem named_perm {l l' : List CommitPoint} (h : l.Perm l') (f : String) :
    named l f = named l' f := (h.map _).sum_eq

theorem named_pos (h : keepOf commits f) : 0 < named commits f := by
  obtain ⟨c, hc, hf⟩ := h
  refine lt_of_lt_of_le (List.count_pos_iff.mpr hf) ?_
  exact List.single_le_sum (fun _ _ => Nat.zero_le _) _ (List.mem_map_of_mem hc)

/-- The references of the deleter itself: those of the commit points, and of
the last checkpoint. -/
def references (v : View) (f : String) : Nat := named v.commits f + v.lastFiles.count f

theorem references_pos (h : keepOf v.commits f) : 0 < references v f :=
  Nat.add_pos_left (named_pos h) _

/-- The references are counted, and the files of the commit points are
there. -/
def Kept (d : IndexFileDeleter) : Prop :=
  Covers (references d.view) (keepOf d.commits) d.toFileDeleter

/-- The commit points that are dropped lose their references. -/
theorem dropCommits_triple (fx : DirFaults) (v : View) (hcommits : v.commits.Perm (kept ++ doomed)) :
    Triple (fun d => d.view = v ∧ Kept d) (IndexFileDeleter.dropCommits fx kept doomed)
      (fun d _ => d.view = { v with commits := kept } ∧ Kept d)
      (fun d => d.view = { v with commits := kept } ∧ Kept d) := by
  -- In front of the commit points `l`, their references are still there.
  let I : List CommitPoint → IndexFileDeleter → Prop := fun l d =>
    d.view = { v with commits := kept } ∧
      Covers (fun f => references { v with commits := kept } f + named l f) (keepOf kept)
        d.toFileDeleter
  have hend : ∀ d, I [] d → d.view = { v with commits := kept } ∧ Kept d := by
    rintro d ⟨hv, hd⟩
    refine ⟨hv, ?_⟩
    have hcommits : d.commits = kept := congrArg View.commits hv
    rw [Kept, hv, hcommits]
    exact hd
  refine triple_bind (Q := fun d _ => I doomed d) (triple_modify fun d hd => ⟨?_, ?_⟩) fun _ => ?_
  · rw [← hd.1]
    rfl
  · have hd2 := hd.2
    have hdc : d.commits = v.commits := congrArg View.commits hd.1
    rw [Kept, hd.1, hdc] at hd2
    refine hd2.mono (fun f => ?_) (fun f hf => ⟨?_, ?_⟩)
    · rw [references, references, named_perm hcommits, named_append]
      dsimp only
      omega
    · obtain ⟨c, hc, hcf⟩ := hf
      exact ⟨c, hcommits.mem_iff.mpr (List.mem_append_left _ hc), hcf⟩
    · exact Nat.add_pos_left (references_pos (v := { v with commits := kept }) hf) _
  · refine triple_conseq (triple_forM (I := I) (E := I []) (fun c l => ?_) doomed)
      (fun _ hd => hd) (fun d _ hd => hend d hd) hend
    have hpos : ∀ f, keepOf kept f →
        0 < references { v with commits := kept } f + named l f :=
      fun f hf => Nat.add_pos_left (references_pos (v := { v with commits := kept }) hf) _
    refine triple_conseq (triple_onFiles (decRefAll_triple c.files hpos)) (fun d hd => ?_)
      (fun d _ hd => hd) (fun d hd => ⟨hd.1, ?_⟩)
    · refine ⟨hd.1, hd.2.mono (fun f => ?_) (fun f hf => ⟨hf, ?_⟩)⟩
      · rw [named, named, List.map_cons, List.sum_cons]
        omega
      · exact Nat.add_pos_left (hpos f hf) _
    · refine hd.2.mono (fun f => ?_) (fun f hf => ⟨hf, ?_⟩)
      · exact Nat.add_le_add_left (Nat.zero_le _) _
      · exact Nat.add_pos_left (references_pos (v := { v with commits := kept }) hf) _

/-! ## A run of the policy -/

section policy

variable {primary : Primary} {rc : AList fun _ : Int => Int} {pins : IndexCommit → Prop}
  {d : IndexFileDeleter}

/-- The commit points are in order, and those of `pins` are among them.  The
policy holds the generations `rc`. -/
structure Ready (primary : Primary) (rc : AList fun _ : Int => Int) (pins : IndexCommit → Prop)
    (v : View) : Prop where
  custom : v.custom = some primary
  counts : v.snapshots.refCounts = rc
  sorted : v.commits.Pairwise fun a b => a.generation ≤ b.generation
  pinned : ∀ c, pins c → c ∈ v.commits.map CommitPoint.toIndexCommit

/-- The policy has seen the commit points. -/
structure Settled (primary : Primary) (rc : AList fun _ : Int => Int)
    (pins : IndexCommit → Prop) (v : View) : Prop extends Ready primary rc pins v where
  initCalled : v.snapshots.initCalled = true
  last : v.snapshots.lastCommit = (v.commits.map CommitPoint.toIndexCommit).getLast?

/-- The answer of the policy. -/
def consult (init : Bool) (snapshots : SnapshotState) (primary : Primary)
    (list : List IndexCommit) : List IndexCommit × SnapshotState :=
  if init then snapshots.onInit primary list else snapshots.onCommit primary list

/-- The commit points that were decided on, `deleted` or not. -/
def decidedOn (commits : List CommitPoint) (list : List IndexCommit) (deleted : Bool) :
    List CommitPoint :=
  ((commits.zip list).filter fun p => p.2.deleted == deleted).map Prod.fst

theorem applyPolicy_eq (init : Bool) (h : d.custom = some primary) :
    IndexFileDeleter.applyPolicy fx init d =
      IndexFileDeleter.dropCommits fx
        (decidedOn d.commits (consult init d.snapshots primary d.indexCommits).1 false)
        (decidedOn d.commits (consult init d.snapshots primary d.indexCommits).1 true)
        { d with snapshots := (consult init d.snapshots primary d.indexCommits).2 } := by
  have hfalse : (fun p : CommitPoint × IndexCommit => p.2.deleted == false) =
      fun p => !p.2.deleted := by
    funext p
    cases p.2.deleted <;> rfl
  have htrue : (fun p : CommitPoint × IndexCommit => p.2.deleted == true) =
      fun p => p.2.deleted := by
    funext p
    cases p.2.deleted <;> rfl
  rw [decidedOn, decidedOn, hfalse, htrue]
  obtain ⟨fd, policy, custom, snapshots, commits, lastFiles, siFiles⟩ := d
  obtain rfl : custom = some primary := h
  cases init <;> rfl

theorem consult_list (init : Bool) (snapshots : SnapshotState) (list : List IndexCommit) :
    (consult init snapshots primary list).1 = snapshots.runPrimary primary list := by
  cases init <;> rfl

theorem refCounts_consult (init : Bool) (snapshots : SnapshotState) (list : List IndexCommit) :
    (consult init snapshots primary list).2.refCounts = snapshots.refCounts := by
  cases init <;> rfl

theorem decidedOn_sublist (list : List IndexCommit) (deleted : Bool)
    (hlen : list.length = commits.length) : (decidedOn commits list deleted).Sublist commits := by
  have hfst : (commits.zip list).map Prod.fst = commits := List.map_fst_zip hlen.ge
  conv_rhs => rw [← hfst]
  exact List.filter_sublist.map Prod.fst

theorem decidedOn_perm (list : List IndexCommit) (hlen : list.length = commits.length) :
    commits.Perm (decidedOn commits list false ++ decidedOn commits list true) := by
  have hfst : (commits.zip list).map Prod.fst = commits := List.map_fst_zip hlen.ge
  conv_lhs => rw [← hfst]
  rw [decidedOn, decidedOn, ← List.map_append]
  refine List.Perm.map Prod.fst ?_
  have hnot : (fun p : CommitPoint × IndexCommit => p.2.deleted == false) =
      fun p => !(p.2.deleted == true) := by
    funext p
    cases p.2.deleted <;> rfl
  rw [hnot]
  exact (List.perm_append_comm.trans
    (List.filter_append_perm (fun p : CommitPoint × IndexCommit => p.2.deleted == true) _)).symm

theorem mem_decidedOn_false {c : CommitPoint} {list : List IndexCommit} {i : Nat}
    (hc : commits[i]? = some c) {c' : IndexCommit} (hc' : list[i]? = some c')
    (hlive : c'.deleted = false) : c ∈ decidedOn commits list false := by
  refine List.mem_map.mpr ⟨(c, c'), List.mem_filter.mpr ⟨?_, by simp [hlive]⟩, rfl⟩
  exact List.mem_of_getElem? (List.getElem?_zip_eq_some.mpr ⟨hc, hc'⟩)

theorem decidedOn_last {c : CommitPoint} {c' : IndexCommit} {list : List IndexCommit}
    (hlen : list.length = commits.length) (hc : commits.getLast? = some c)
    (hc' : list.getLast? = some c') (hlive : c'.deleted = false) :
    (decidedOn commits list false).getLast? = some c := by
  obtain ⟨l, rfl⟩ := List.getLast?_eq_some_iff.mp hc
  obtain ⟨l', rfl⟩ := List.getLast?_eq_some_iff.mp hc'
  rw [List.length_append, List.length_append, List.length_singleton, List.length_singleton,
    Nat.add_right_cancel_iff] at hlen
  rw [decidedOn, List.zip_append hlen.symm, List.filter_append, List.map_append]
  simp [hlive]

theorem live_map_toIndexCommit (commits : List CommitPoint) :
    ∀ c ∈ commits.map CommitPoint.toIndexCommit, c.deleted = false := by
  intro c hc
  obtain ⟨c', -, rfl⟩ := List.mem_map.mp hc
  rfl

/-- The commit points that the policy keeps. -/
theorem kept_runPrimary (primary : Primary) (snapshots : SnapshotState) (commits : List CommitPoint) :
    (decidedOn commits (snapshots.runPrimary primary (commits.map CommitPoint.toIndexCommit))
        false).getLast? = commits.getLast? ∧
      ∀ c ∈ commits, c.generation ∈ snapshots.refCounts →
        c ∈ decidedOn commits (snapshots.runPrimary primary
          (commits.map CommitPoint.toIndexCommit)) false := by
  have hlen := SnapshotState.length_runPrimary snapshots primary
    (live_map_toIndexCommit commits)
  rw [List.length_map] at hlen
  constructor
  · cases hlast : commits.getLast? with
    | none =>
      rw [List.getLast?_eq_none_iff] at hlast
      subst hlast
      rfl
    | some c =>
      refine decidedOn_last hlen hlast (?_ : _ = some c.toIndexCommit) rfl
      rw [SnapshotState.getLast?_runPrimary _ _ (live_map_toIndexCommit _), List.getLast?_map, hlast]
      rfl
  · intro c hc hheld
    obtain ⟨i, hi⟩ := List.getElem?_of_mem hc
    refine mem_decidedOn_false hi (SnapshotState.getElem?_runPrimary _ _ (live_map_toIndexCommit _)
      (c := c.toIndexCommit) ?_ (.inl hheld)) rfl
    rw [List.getElem?_map, hi]
    rfl

/-- The policy keeps the last commit point and those of a generation that is
held, and forgets the others. -/
theorem applyPolicy_triple (init : Bool) (hpins : ∀ c, pins c → c.generation ∈ rc) :
    Triple (fun d => (Ready primary rc pins d.view ∧ Kept d) ∧
        (if init = true then d.snapshots.lastCommit = none else d.snapshots.initCalled = true))
      (IndexFileDeleter.applyPolicy fx init)
      (fun d _ => Settled primary rc pins d.view ∧ Kept d)
      (fun d => Settled primary rc pins d.view ∧ Kept d) := by
  rintro d ⟨⟨hready, hkept⟩, hinit⟩
  have hlen := SnapshotState.length_runPrimary d.snapshots primary
    (live_map_toIndexCommit d.commits)
  rw [List.length_map] at hlen
  obtain ⟨hlast, hheld⟩ := kept_runPrimary primary d.snapshots d.commits
  have hlist := SnapshotState.getLast?_runPrimary d.snapshots primary
    (live_map_toIndexCommit d.commits)
  rw [applyPolicy_eq init hready.custom, consult_list, IndexFileDeleter.indexCommits]
  generalize hl : d.snapshots.runPrimary primary (d.commits.map CommitPoint.toIndexCommit) =
    list at *
  have hsettled : ∀ d' : IndexFileDeleter, d'.view = { d.view with
      snapshots := (consult init d.snapshots primary
        (d.commits.map CommitPoint.toIndexCommit)).2
      commits := decidedOn d.commits list false } →
      Settled primary rc pins d'.view := by
    intro d' hv
    rw [hv]
    refine ⟨⟨hready.custom, ?_, hready.sorted.sublist (decidedOn_sublist list false hlen),
      fun c hc => ?_⟩, ?_, ?_⟩
    · rw [refCounts_consult]
      exact hready.counts
    · obtain ⟨c', hc', rfl⟩ := List.mem_map.mp (hready.pinned c hc)
      refine List.mem_map_of_mem (hheld c' hc' ?_)
      have hgen := hpins _ hc
      rw [← hready.counts] at hgen
      exact hgen
    · cases init with
      | true => rfl
      | false => exact hinit
    · rw [List.getLast?_map, hlast, ← List.getLast?_map, ← hlist]
      cases init with
      | true =>
        have hnone : d.snapshots.lastCommit = none := hinit
        change (d.snapshots.onInit primary _).2.lastCommit = _
        rw [SnapshotState.lastCommit_onInit, hl, hnone, Option.or_none]
      | false => exact congrArg List.getLast? hl
  have hdrop := dropCommits_triple fx { d.view with
    snapshots := (consult init d.snapshots primary
      (d.commits.map CommitPoint.toIndexCommit)).2 } (decidedOn_perm list hlen)
  exact triple_conseq hdrop (fun _ h => h) (fun d' _ h => ⟨hsettled d' h.1, h.2⟩)
    (fun d' h => ⟨hsettled d' h.1, h.2⟩) _ ⟨rfl, hkept⟩

end policy

/-! ## The files of a commit -/

section files

variable {parseSi : SegmentCommitInfo → List U8 → Except String (List String)} {F : Files}
  {R : RefCounts}

/-- The counts and the files are the given ones. -/
def Frame (F : Files) (R : RefCounts) (s : FileDeleter) : Prop := s.files = F ∧ s.refCounts = R

/-- The deleter has the given view, counts and files. -/
def Still (v : View) (F : Files) (R : RefCounts) (d : IndexFileDeleter) : Prop :=
  d.view = v ∧ Frame F R d.toFileDeleter

theorem readCall_triple :
    Triple (Frame F R) (FileDeleter.readCall fx) (fun s _ => Frame F R s) (Frame F R) := by
  intro s hs
  rw [FileDeleter.readCall]
  split
  · exact hs
  · exact hs

theorem openFile_triple (fx : DirFaults) (name : String) :
    Triple (Frame F R) (FileDeleter.openFile fx name) (fun s _ => Frame F R s) (Frame F R) := by
  refine triple_bind readCall_triple fun _ => ?_
  refine triple_bind (Q := fun s _ => Frame F R s) (triple_get fun s hs => hs) fun bytes => ?_
  refine triple_lift ?_ (fun s hs => hs) (fun s a hs _ => hs)
  cases bytes with
  | none => simp
  | some b => simp

variable {m : AList fun _ : String => Id × List String}

theorem segmentInfoFiles_triple (sci : SegmentCommitInfo) :
    Triple (fun d => Still v F R d ∧ d.siFiles = m)
      (IndexFileDeleter.segmentInfoFiles fx parseSi sci)
      (fun d _ => Still v F R d ∧ d.siFiles = m) (Still v F R) := by
  refine triple_bind (Q := fun d _ => Still v F R d ∧ d.siFiles = m) ?_ fun bytes => ?_
  · refine triple_conseq (triple_onFiles_frame (G := fun d => d.view = v ∧ d.siFiles = m)
      (fun _ _ h => h) (openFile_triple fx _ (F := F) (R := R))) (fun d hd => ?_) (fun d a hd => ?_)
      (fun d hd => ⟨hd.1.1, hd.2⟩)
    · exact ⟨⟨hd.1.1, hd.2⟩, hd.1.2⟩
    · exact ⟨⟨hd.1.1, hd.2⟩, hd.1.2⟩
  · cases parseSi sci bytes with
    | ok files => exact triple_pure fun d hd => hd
    | error message => exact triple_lift (by simp) (fun d hd => hd.1) (fun d a hd _ => hd)

/-- The file set of the segment is known, and so are those that were. -/
theorem ensureSiFiles_triple (sci : SegmentCommitInfo) (known : String → Prop) :
    Triple (fun d => Still v F R d ∧ ∀ n, known n → n ∈ d.siFiles)
      (IndexFileDeleter.ensureSiFiles fx parseSi sci)
      (fun d _ => Still v F R d ∧ ∀ n, known n ∨ n = sci.segmentName → n ∈ d.siFiles)
      (Still v F R) := by
  intro d hd
  have hrun : IndexFileDeleter.ensureSiFiles fx parseSi sci d =
      (if (d.siFiles.lookup sci.segmentName).map Prod.fst = some sci.segmentId then pure ()
        else do
          let files ← IndexFileDeleter.segmentInfoFiles fx parseSi sci
          Op.modify fun d => { d with
            siFiles := d.siFiles.insert sci.segmentName (sci.segmentId, files) } :
        Op DeleterError IndexFileDeleter Unit) d := rfl
  rw [hrun]
  split
  case isTrue h =>
    refine ⟨hd.1, ?_⟩
    rintro n (hn | rfl)
    · exact hd.2 n hn
    · refine AList.lookup_isSome.mp ?_
      cases hlook : d.siFiles.lookup sci.segmentName with
      | some p => rfl
      | none =>
        rw [hlook] at h
        cases h
  case isFalse h =>
    refine triple_bind (segmentInfoFiles_triple (m := d.siFiles) sci)
      (fun files => triple_modify fun d' hd' => ⟨hd'.1, ?_⟩) d ⟨hd.1, rfl⟩
    rintro n (hn | rfl)
    · exact (AList.mem_insert _).mpr (.inr (hd'.2 ▸ hd.2 n hn))
    · exact (AList.mem_insert _).mpr (.inl rfl)

theorem nodup_pushNew {files : List String} (h : files.Nodup) (name : String) :
    (pushNew files name).Nodup := by
  rw [pushNew]
  split
  case isTrue => exact h
  case isFalse hn => exact List.nodup_append.mpr ⟨h, List.nodup_singleton _, by
    rintro a ha b hb rfl
    exact hn (List.mem_singleton.mp hb ▸ ha)⟩

theorem nodup_foldl_pushNew {files : List String} (h : files.Nodup) (names : List String) :
    (names.foldl pushNew files).Nodup := by
  induction names generalizing files with
  | nil => exact h
  | cons name names ih => exact ih (nodup_pushNew h name)

theorem collectFiles_triple (segments : List SegmentCommitInfo) {out : List String}
    (hout : out.Nodup) :
    Triple (fun d => Still v F R d ∧ ∀ sci ∈ segments, sci.segmentName ∈ d.siFiles)
      (IndexFileDeleter.collectFiles out segments)
      (fun d files => Still v F R d ∧ files.Nodup) (Still v F R) := by
  induction segments generalizing out with
  | nil => exact triple_pure fun d hd => ⟨hd.1, hout⟩
  | cons sci segments ih =>
    intro d hd
    obtain ⟨p, hp⟩ := Option.isSome_iff_exists.mp
      (AList.lookup_isSome.mpr (hd.2 sci List.mem_cons_self))
    have hrun : IndexFileDeleter.collectFiles out (sci :: segments) d =
        IndexFileDeleter.collectFiles ((sci.files p.2).foldl pushNew out) segments d := by
      have hlift : (Op.lift (.expect (d.siFiles.lookup sci.segmentName)) :
          Op DeleterError IndexFileDeleter _) d = (.ok p, d) := by
        rw [hp]
        rfl
      exact (bind_ok rfl).trans (bind_ok hlift)
    rw [hrun]
    exact ih (nodup_foldl_pushNew hout _) d
      ⟨hd.1, fun sci' hsci' => hd.2 sci' (List.mem_cons_of_mem sci hsci')⟩

/-- The files of a commit are collected, and nothing else happens. -/
theorem commitFiles_triple (fx : DirFaults)
    (parseSi : SegmentCommitInfo → List U8 → Except String (List String)) (infos : SegmentInfos) (includeSegmentsFile : Bool) :
    Triple (Still v F R) (IndexFileDeleter.commitFiles fx parseSi infos includeSegmentsFile)
      (fun d files => Still v F R d ∧ files.Nodup) (Still v F R) := by
  -- In front of the segments `l`, the names of the others are known.
  let I : List SegmentCommitInfo → IndexFileDeleter → Prop := fun l d =>
    Still v F R d ∧ ∀ sci ∈ infos.segments, sci ∈ l ∨ sci.segmentName ∈ d.siFiles
  refine triple_bind (Q := fun d _ => I [] d) ?_ fun _ => ?_
  · refine triple_conseq (triple_forM (I := I) (fun sci l => ?_) infos.segments)
      (fun d hd => ⟨hd, fun sci hsci => .inl hsci⟩) (fun d _ hd => hd) (fun d hd => hd)
    intro d hd
    refine triple_conseq (ensureSiFiles_triple sci (fun n => n ∈ d.siFiles)) (fun _ h => h)
      (fun d' _ hd' => ⟨hd'.1, fun sci' hsci' => ?_⟩) (fun _ h => h) d ⟨hd.1, fun n hn => hn⟩
    rcases hd.2 sci' hsci' with hmem | hmem
    · rcases List.mem_cons.mp hmem with rfl | hmem
      · exact .inr (hd'.2 _ (.inr rfl))
      · exact .inl hmem
    · exact .inr (hd'.2 _ (.inl hmem))
  · refine triple_conseq (collectFiles_triple infos.segments ?_) (fun d hd => ⟨hd.1, ?_⟩)
      (fun _ _ h => h) (fun _ h => h)
    · split
      · cases Store.segmentsFileName infos.generation <;> simp
      · exact List.nodup_nil
    · intro sci hsci
      exact (hd.2 sci hsci).resolve_left List.not_mem_nil

end files

/-! ## The calls of the writer -/

section calls

variable {parseSi : SegmentCommitInfo → List U8 → Except String (List String)}
  {primary : Primary} {rc : AList fun _ : Int => Int} {pins : IndexCommit → Prop}
  {d : IndexFileDeleter} {infos : SegmentInfos}

/-- The policy has seen the commit points, and nothing of them is missing. -/
def Sound (primary : Primary) (rc : AList fun _ : Int => Int) (pins : IndexCommit → Prop)
    (d : IndexFileDeleter) : Prop :=
  Settled primary rc pins d.view ∧ Kept d

theorem Kept.still (hK : Kept d) {d' : IndexFileDeleter}
    (h : Still d.view d.files d.refCounts d') : Kept d' := by
  have hcommits : d'.commits = d.commits := congrArg View.commits h.1
  rw [Kept, h.1, hcommits]
  refine ⟨fun f => ?_, hK.needed, fun f hf => ?_⟩
  · rw [FileDeleter.refCount, h.2.2]
    exact hK.counted f
  · rw [h.2.1]
    exact hK.there f hf

theorem sortCommits_perm (l : List CommitPoint) : (sortCommits l).Perm l :=
  List.perm_insertionSort _ l

theorem sortCommits_sorted (l : List CommitPoint) :
    (sortCommits l).Pairwise fun a b => a.generation ≤ b.generation := by
  have : Std.Total fun a b : CommitPoint => a.generation ≤ b.generation :=
    ⟨fun a b => le_total _ _⟩
  have : IsTrans CommitPoint fun a b => a.generation ≤ b.generation :=
    ⟨fun a b c => le_trans⟩
  exact List.pairwise_insertionSort _ l

theorem forgetDeadSegments_sound (h : Sound primary rc pins d) :
    Sound primary rc pins d.forgetDeadSegments := h

/-- A new commit, of which the files are there. -/
theorem checkpoint_commit_triple (hpins : ∀ c, pins c → c.generation ∈ rc)
    (hsound : Sound primary rc pins d)
    (hthere : ∀ files d', IndexFileDeleter.commitFiles fx parseSi infos true d =
      (.ok files, d') → ∀ f ∈ files, f ∈ d.files)
    (hmax : ∀ f, references d.view f + 1 ≤ u32Max) :
    Triple (· = d) (IndexFileDeleter.checkpoint fx parseSi infos true)
      (fun d _ => Sound primary rc pins d) (Sound primary rc pins) := by
  obtain ⟨hsettled, hkept⟩ := hsound
  have hstill : ∀ d', Still d.view d.files d.refCounts d' → Sound primary rc pins d' :=
    fun d' h => ⟨h.1.symm ▸ hsettled, hkept.still h⟩
  have hfiles := triple_returned (triple_conseq (commitFiles_triple fx parseSi infos true
      (v := d.view) (F := d.files) (R := d.refCounts))
    (fun d' (h : d' = d) => h ▸ ⟨rfl, rfl, rfl⟩) (fun _ _ h => h) hstill)
  refine triple_bind hfiles fun files => ?_
  refine triple_bind (Q := fun d' _ => d'.view = d.view ∧
    Covers (fun f => references d.view f + files.count f)
      (fun f => keepOf d.commits f ∨ f ∈ files) d'.toFileDeleter)
    (triple_modify ?_) fun _ => ?_
  · rintro d' ⟨⟨hd', hnodup⟩, d₀, rfl, hrun⟩
    refine ⟨hd'.1, ?_⟩
    have hcov : Covers (references d₀.view) (keepOf d₀.commits) d'.toFileDeleter := by
      have hk := hkept.still hd'
      rwa [Kept, hd'.1, show d'.commits = d₀.commits from congrArg View.commits hd'.1] at hk
    have hinc := hcov.incRefAll files fun f => by
      have hcount := List.nodup_iff_count_le_one.mp hnodup f
      have hmaxf := hmax f
      omega
    refine ⟨hinc.counted, fun f hf => ?_, fun f hf => ?_⟩
    · rcases hf with hf | hf
      · exact hinc.needed f hf
      · exact Nat.add_pos_right _ (List.count_pos_iff.mpr hf)
    · rcases hf with hf | hf
      · exact hinc.there f hf
      · change f ∈ (d'.toFileDeleter.incRefAll files).files
        rw [files_incRefAll, hd'.2.1]
        exact hthere files d' hrun f hf
  -- The commit point is in its place, and the policy runs.
  refine triple_bind (Q := fun d' _ => (Ready primary rc pins d'.view ∧ Kept d') ∧
    d'.snapshots.initCalled = true) (triple_modify ?_) fun _ => ?_
  · rintro d' ⟨hv, hcov⟩
    have hc : d'.commits = d.commits := congrArg View.commits hv
    have hl : d'.lastFiles = d.lastFiles := congrArg View.lastFiles hv
    have hs : d'.snapshots = d.snapshots := congrArg View.snapshots hv
    have hcu : d'.custom = d.custom := congrArg View.custom hv
    generalize hnew : IndexFileDeleter.newCommitPoint infos
      ((Store.segmentsFileName infos.generation).getD "segments") files = cp
    have hcpfiles : cp.files = files := by
      rw [← hnew]
      rfl
    have hperm := sortCommits_perm (d'.commits ++ [cp])
    refine ⟨⟨⟨?_, ?_, sortCommits_sorted _, fun c hcp => ?_⟩, ?_⟩, ?_⟩
    · exact hcu.trans hsettled.custom
    · exact (congrArg SnapshotState.refCounts hs).trans hsettled.counts
    · refine (hperm.map CommitPoint.toIndexCommit).mem_iff.mpr ?_
      rw [List.map_append, hc]
      exact List.mem_append_left _ (hsettled.pinned c hcp)
    · refine hcov.mono (fun f => ?_) (fun f hf => ⟨?_, references_pos hf⟩)
      · rw [references, references]
        change named (sortCommits (d'.commits ++ [cp])) f + d'.lastFiles.count f ≤ _
        rw [named_perm hperm, named_append, hc, hl, named, named, List.map_singleton,
          List.sum_singleton, hcpfiles]
        change _ ≤ named d.commits f + d.lastFiles.count f + _
        rw [named]
        omega
      · obtain ⟨c, hcmem, hcf⟩ := hf
        rcases List.mem_append.mp (hperm.mem_iff.mp hcmem) with hcmem | hcmem
        · exact .inl ⟨c, hc ▸ hcmem, hcf⟩
        · rw [List.mem_singleton.mp hcmem, hcpfiles] at hcf
          exact .inr hcf
    · exact (congrArg SnapshotState.initCalled hs).trans hsettled.initCalled
  refine triple_bind (applyPolicy_triple false hpins) fun _ => triple_modify fun d' hd' => ?_
  exact forgetDeadSegments_sound hd'

/-- Nothing but the last checkpoint is different. -/
def SameCommits (v : View) (d : IndexFileDeleter) : Prop :=
  ∃ lastFiles, d.view = { v with lastFiles := lastFiles }

/-- A checkpoint of the writer's own view: its files are referenced, and those
of the last one are not any more. -/
theorem checkpoint_view_triple (fx : DirFaults)
    (parseSi : SegmentCommitInfo → List U8 → Except String (List String)) (infos : SegmentInfos)
    (hkept : Kept d)
    (hmax : ∀ f, references d.view f + 1 ≤ u32Max) :
    Triple (· = d) (IndexFileDeleter.checkpoint fx parseSi infos false)
      (fun d' _ => SameCommits d.view d' ∧ Kept d')
      (fun d' => SameCommits d.view d' ∧ Kept d') := by
  have hfiles := triple_conseq (commitFiles_triple fx parseSi infos false
      (v := d.view) (F := d.files) (R := d.refCounts))
    (fun d' (h : d' = d) => h ▸ ⟨rfl, rfl, rfl⟩) (fun _ _ h => h)
    (fun d' h => (⟨⟨d.lastFiles, h.1⟩, hkept.still h⟩ : SameCommits d.view d' ∧ Kept d'))
  refine triple_bind hfiles fun files => ?_
  -- Both views are referenced.
  let Both : IndexFileDeleter → Prop := fun d' =>
    Covers (fun f => named d.commits f + files.count f + d.lastFiles.count f)
      (keepOf d.commits) d'.toFileDeleter
  refine triple_bind (Q := fun d' _ => d'.view = d.view ∧ Both d') (triple_modify ?_) fun _ => ?_
  · rintro d' ⟨hd', hnodup⟩
    refine ⟨hd'.1, ?_⟩
    have hcov : Covers (references d.view) (keepOf d.commits) d'.toFileDeleter := by
      have hk := hkept.still hd'
      rwa [Kept, hd'.1, show d'.commits = d.commits from congrArg View.commits hd'.1] at hk
    have hinc := hcov.incRefAll files fun f => by
      have hcount := List.nodup_iff_count_le_one.mp hnodup f
      have hmaxf := hmax f
      omega
    refine hinc.mono (fun f => ?_) (fun f hf => ⟨hf, ?_⟩)
    · change named d.commits f + _ + _ ≤ named d.commits f + d.lastFiles.count f + _
      omega
    · have hpos := named_pos hf
      omega
  refine triple_bind (Q := fun d' previous => previous = d.lastFiles ∧ d'.view = d.view ∧ Both d')
    (triple_get fun d' hd' => ⟨congrArg View.lastFiles hd'.1, hd'⟩) fun previous => ?_
  refine triple_bind (Q := fun d' _ => previous = d.lastFiles ∧
      d'.view = { d.view with lastFiles := [] } ∧ Both d')
    (triple_modify fun d' hd' => ⟨hd'.1, ?_, hd'.2.2⟩) fun _ => ?_
  · rw [← hd'.2.1]
    rfl
  let Now : FileDeleter → Prop :=
    Covers (fun f => named d.commits f + files.count f) (keepOf d.commits)
  refine triple_bind (Q := fun d' _ => d'.view = { d.view with lastFiles := [] } ∧
    Now d'.toFileDeleter) ?_ fun _ => ?_
  · refine triple_conseq (triple_onFiles (decRefAll_triple previous fun f hf =>
      Nat.add_pos_left (named_pos hf) (files.count f))) (fun d' hd' => ?_) (fun _ _ hd' => hd')
      (fun d' hd' => ⟨⟨[], hd'.1⟩, ?_⟩)
    · obtain ⟨rfl, hv, hd'⟩ := hd'
      exact ⟨hv, hd'⟩
    · have hcommits : d'.commits = d.commits := congrArg View.commits hd'.1
      rw [Kept, hd'.1, hcommits]
      refine hd'.2.mono (fun f => ?_) (fun f hf => ⟨hf, Nat.add_pos_left (named_pos hf) _⟩)
      exact Nat.add_le_add_left (Nat.zero_le _) _
  refine triple_bind (Q := fun d' _ => SameCommits d.view d' ∧ Kept d')
    (triple_modify fun d' hd' => ?_) fun _ => triple_modify fun d' hd' => hd'
  have hcommits : d'.commits = d.commits := congrArg View.commits hd'.1
  refine ⟨⟨files, ?_⟩, ?_⟩
  · have hv := hd'.1
    simp only [IndexFileDeleter.view, View.mk.injEq] at hv ⊢
    exact ⟨hv.1, hv.2.1, hv.2.2.1, trivial⟩
  · change Covers (fun f => named d'.commits f + files.count f) (keepOf d'.commits) _
    rw [hcommits]
    exact hd'.2

/-- Files that nothing refers to are deleted. -/
theorem refresh_triple (hsound : Sound primary rc pins d) :
    Triple (· = d) (IndexFileDeleter.refresh fx)
      (fun d _ => Sound primary rc pins d) (Sound primary rc pins) := by
  have hkept : Covers (references d.view) (keepOf d.commits) d.toFileDeleter := hsound.2
  have hfiles : Triple (Covers (references d.view) (keepOf d.commits))
      (do
        let files ← FileDeleter.listAll fx
        let toDelete ← Op.get fun s =>
          files.filter fun name => isIndexFileName name && !s.exists name
        FileDeleter.deleteFiles fx toDelete)
      (fun s _ => Covers (references d.view) (keepOf d.commits) s)
      (Covers (references d.view) (keepOf d.commits)) := by
    have hread : Triple (Covers (references d.view) (keepOf d.commits))
        (FileDeleter.readCall fx) (fun s _ => Covers (references d.view) (keepOf d.commits) s)
        (Covers (references d.view) (keepOf d.commits)) := by
      intro s hs
      rw [FileDeleter.readCall]
      split
      · exact ⟨hs.counted, hs.needed, hs.there⟩
      · exact ⟨hs.counted, hs.needed, hs.there⟩
    have hlist : Triple (Covers (references d.view) (keepOf d.commits))
        (FileDeleter.listAll fx) (fun s _ => Covers (references d.view) (keepOf d.commits) s)
        (Covers (references d.view) (keepOf d.commits)) :=
      triple_bind hread fun _ => triple_get fun s hs => hs
    refine triple_bind hlist fun files => ?_
    refine triple_bind (Q := fun s toDelete => Covers (references d.view) (keepOf d.commits) s ∧
      ∀ f ∈ toDelete, references d.view f = 0) (triple_get fun s hs => ⟨hs, fun f hf => ?_⟩)
      fun toDelete => ?_
    · have hzero : s.exists f = false := by
        have hp := (List.mem_filter.mp hf).2
        simp only [Bool.and_eq_true, Bool.not_eq_true'] at hp
        exact hp.2
      have hcount := hs.counted f
      rw [FileDeleter.exists, decide_eq_false_iff_not] at hzero
      omega
    · intro s hs
      exact deleteFiles_triple fx _ hs.2 s hs.1
  refine triple_conseq (triple_onFiles (v := d.view) hfiles) (fun d' hd' => ?_)
    (fun d' _ hd' => ?_) (fun d' hd' => ?_)
  · subst hd'
    exact ⟨rfl, hkept⟩
  all_goals
    have hcommits : d'.commits = d.commits := congrArg View.commits hd'.1
    refine ⟨hd'.1.symm ▸ hsound.1, ?_⟩
    rw [Kept, hd'.1, hcommits]
    exact hd'.2

theorem revisitPolicy_triple (hpins : ∀ c, pins c → c.generation ∈ rc) :
    Triple (Sound primary rc pins) (IndexFileDeleter.revisitPolicy fx)
      (fun d _ => Sound primary rc pins d) (Sound primary rc pins) := by
  intro d hd
  have hrun : IndexFileDeleter.revisitPolicy fx d =
      (if d.commits = [] then pure ()
        else do
          IndexFileDeleter.applyPolicy fx false
          Op.modify IndexFileDeleter.forgetDeadSegments :
        Op DeleterError IndexFileDeleter Unit) d := rfl
  rw [hrun]
  split
  · exact hd
  · refine triple_bind (applyPolicy_triple false hpins)
      (fun _ => triple_modify fun d' hd' => forgetDeadSegments_sound hd') d ?_
    exact ⟨⟨hd.1.toReady, hd.2⟩, hd.1.initCalled⟩

end calls

/-! ## Opening -/

section opening

variable {parseSi : SegmentCommitInfo → List U8 → Except String (List String)}
  {crc32 : List U8 → U32} {primary : Primary} {files : Files} {current : SegmentInfos}

/-- In the walk over the directory, with `n` files to come out of `total`: the
commits so far are counted, and nothing was deleted. -/
structure Scanning (primary : Primary) (files : Files) (total n : Nat) (d : IndexFileDeleter) :
    Prop where
  custom : d.custom = some primary
  snapshots : d.snapshots = SnapshotState.new
  lastFiles : d.lastFiles = []
  files : d.files = files
  nodup : ∀ c ∈ d.commits, c.files.Nodup
  bound : d.commits.length + n ≤ total
  counted : ∀ f, named d.commits f ≤ d.refCount f

theorem named_le_length {commits : List CommitPoint} (h : ∀ c ∈ commits, c.files.Nodup)
    (f : String) : named commits f ≤ commits.length := by
  induction commits with
  | nil => exact le_rfl
  | cons c commits ih =>
    have hc := List.nodup_iff_count_le_one.mp (h c List.mem_cons_self) f
    have hrest := ih fun c' hc' => h c' (List.mem_cons_of_mem c hc')
    rw [named] at hrest
    rw [named, List.map_cons, List.sum_cons, List.length_cons]
    omega

theorem Scanning.mono {total n m : Nat} {d : IndexFileDeleter} (hle : m ≤ n)
    (h : Scanning primary files total n d) : Scanning primary files total m d :=
  { h with bound := (Nat.add_le_add_left hle _).trans h.bound }

theorem Scanning.still {total n : Nat} {d d' : IndexFileDeleter}
    (h : Scanning primary files total n d) (hd' : Still d.view d.files d.refCounts d') :
    Scanning primary files total n d' := by
  have hcommits : d'.commits = d.commits := congrArg View.commits hd'.1
  refine ⟨(congrArg View.custom hd'.1).trans h.custom,
    (congrArg View.snapshots hd'.1).trans h.snapshots,
    (congrArg View.lastFiles hd'.1).trans h.lastFiles, hd'.2.1.trans h.files, ?_, ?_, fun f => ?_⟩
  · rw [hcommits]
    exact h.nodup
  · rw [hcommits]
    exact h.bound
  · rw [hcommits, FileDeleter.refCount, hd'.2.2]
    exact h.counted f

/-- A commit that was found. -/
theorem Scanning.push {total n : Nat} {d : IndexFileDeleter} {c : CommitPoint}
    (h : Scanning primary files total (n + 1) d) (htotal : total ≤ u32Max) (hc : c.files.Nodup) :
    Scanning primary files total n { d with
      toFileDeleter := d.incRefAll c.files
      commits := d.commits ++ [c] } := by
  refine ⟨h.custom, h.snapshots, h.lastFiles, ?_, fun c' hc' => ?_, ?_, fun f => ?_⟩
  · exact (files_incRefAll (s := d.toFileDeleter) c.files).trans h.files
  · rcases List.mem_append.mp hc' with hc' | hc'
    · exact h.nodup c' hc'
    · exact List.mem_singleton.mp hc' ▸ hc
  · have hbound := h.bound
    rw [List.length_append, List.length_singleton]
    omega
  · have hcov : Covers (named d.commits) (fun _ => False) d.toFileDeleter :=
      ⟨h.counted, fun _ hf => hf.elim, fun _ hf => hf.elim⟩
    refine le_trans (le_of_eq ?_) ((hcov.incRefAll c.files fun f => ?_).counted f)
    · change named (d.commits ++ [c]) f = _
      rw [named_append]
      simp [named]
    · have hle := named_le_length h.nodup f
      have hcount := List.nodup_iff_count_le_one.mp hc f
      have hbound := h.bound
      omega

theorem scanFile_returns {total n : Nat} (htotal : total ≤ u32Max) (fileName : String) :
    Returns (Scanning primary files total (n + 1))
      (IndexFileDeleter.scanFile fx parseSi crc32 fileName)
      (fun d _ => Scanning primary files total n d) := by
  rw [IndexFileDeleter.scanFile]
  split
  case isTrue =>
    exact (triple_pure (E := fun _ => True) fun d hd => hd.mono (Nat.le_succ n)).returns
  case isFalse =>
    refine returns_bind (Q := fun d _ => Scanning primary files total (n + 1) d)
      (returns_modify fun d hd => ?_) fun _ => ?_
    · split
      case isTrue => exact hd
      case isFalse hnot =>
        refine { hd with counted := fun f => ?_ }
        have hcounted := hd.counted f
        rw [FileDeleter.refCount] at hcounted ⊢
        by_cases hf : f = fileName
        · subst hf
          rw [AList.lookup_eq_none.mpr hnot] at hcounted
          exact hcounted.trans (Nat.zero_le _)
        · change _ ≤ ((d.refCounts.insert fileName 0).lookup f).getD 0
          rwa [AList.lookup_insert_ne hf]
    split
    case isTrue =>
      exact (triple_pure (E := fun _ => True) fun d hd => hd.mono (Nat.le_succ n)).returns
    case isFalse =>
      refine returns_bind (returns_lift fun d g hd _ => hd) fun generation => ?_
      refine returns_bind (Q := fun d _ => Scanning primary files total (n + 1) d) ?_
        fun bytes => ?_
      · intro d bytes d' hd hrun
        have hstill := (triple_onFiles (v := d.view) (openFile_triple fx fileName
          (F := d.files) (R := d.refCounts))).returns d bytes d' ⟨rfl, rfl, rfl⟩ hrun
        exact hd.still hstill
      refine returns_bind (returns_lift fun d sis hd _ => hd) fun sis => ?_
      refine returns_bind (Q := fun d files' => Scanning primary files total (n + 1) d ∧
        files'.Nodup) ?_ fun files' => ?_
      · intro d files' d' hd hrun
        obtain ⟨hstill, hnodup⟩ := (commitFiles_triple fx parseSi sis true (v := d.view)
          (F := d.files) (R := d.refCounts)).returns d files' d' ⟨rfl, rfl, rfl⟩ hrun
        exact ⟨hd.still hstill, hnodup⟩
      intro d u d' hd hrun
      have heq : d' = { d with
          toFileDeleter := d.incRefAll files'
          commits := d.commits ++ [{ IndexFileDeleter.newCommitPoint sis fileName files' with
            generation := generation }] } := (Prod.mk.inj hrun).2.symm
      rw [heq]
      exact hd.1.push htotal (show (CommitPoint.files { IndexFileDeleter.newCommitPoint sis
        fileName files' with generation := generation }).Nodup from hd.2)

/-- A walk over the directory finds the commits that are there. -/
theorem scan_returns (htotal : (listAll files).length ≤ u32Max) :
    Returns (· = IndexFileDeleter.new files primary) (IndexFileDeleter.scan fx parseSi crc32)
      (fun d _ => Scanning primary files (listAll files).length 0 d ∧
        d.commits.Pairwise fun a b => a.generation ≤ b.generation) := by
  have hnew : Scanning primary files (listAll files).length (listAll files).length
      (IndexFileDeleter.new files primary) := by
    refine ⟨rfl, rfl, rfl, rfl, ?_, by simp [IndexFileDeleter.new], fun f => Nat.zero_le _⟩
    intro c hc
    cases hc
  refine returns_bind (Q := fun d names =>
    names.length = (listAll files).length ∧
      Scanning primary files (listAll files).length (listAll files).length d) ?_ fun names => ?_
  · rintro d names d' rfl hrun
    have hlist : Triple (Frame files (IndexFileDeleter.new files primary).refCounts)
        (FileDeleter.listAll fx)
        (fun s names => Frame files (IndexFileDeleter.new files primary).refCounts s ∧
          names = listAll files) (fun _ => True) := by
      refine triple_bind (Q := fun s _ =>
        Frame files (IndexFileDeleter.new files primary).refCounts s) ?_
        fun _ => triple_get fun s hs => ⟨hs, by rw [hs.1]⟩
      exact triple_conseq readCall_triple (fun _ h => h) (fun _ _ h => h) (fun _ _ => trivial)
    obtain ⟨hv, hframe, rfl⟩ := (triple_onFiles (v := (IndexFileDeleter.new files primary).view)
      hlist).returns _ names d' ⟨rfl, rfl, rfl⟩ hrun
    exact ⟨rfl, hnew.still ⟨hv, hframe⟩⟩
  refine returns_bind (Q := fun d _ => Scanning primary files (listAll files).length 0 d) ?_
    fun _ => returns_modify fun d hd => ?_
  · rintro d u d' ⟨hlen, hd⟩ hrun
    rw [← hlen] at hd
    exact returns_forM (I := fun l d => Scanning primary files (listAll files).length l.length d)
      (fun name l => scanFile_returns htotal name) names d u d' (hlen ▸ hd) hrun
  · have hperm := sortCommits_perm d.commits
    refine ⟨⟨hd.custom, hd.snapshots, hd.lastFiles, hd.files, fun c hc => ?_, ?_, fun f => ?_⟩,
      sortCommits_sorted _⟩
    · exact hd.nodup c (hperm.mem_iff.mp hc)
    · change (sortCommits d.commits).length + 0 ≤ _
      rw [hperm.length_eq]
      exact hd.bound
    · change named (sortCommits d.commits) f ≤ _
      rw [named_perm hperm]
      exact hd.counted f

/-- What `open_inner` does behind the walk: files that no commit names are
deleted, the writer's view is protected, and the policy runs. -/
theorem openScanned_triple {d : IndexFileDeleter}
    (hready : Ready primary ∅ (fun _ => False) d.view) (hkept : Kept d)
    (hlast : d.view.snapshots.lastCommit = none)
    (hmax : ∀ f, references d.view f + 1 ≤ u32Max) :
    Triple (· = d) (IndexFileDeleter.openScanned fx parseSi current)
      (fun d _ => Sound primary ∅ (fun _ => False) d) (fun _ => True) := by
  refine triple_bind (Q := fun d' unrefed => d' = d ∧ unrefed = d.unrefedFiles)
    (triple_get fun d' hd' => ⟨hd', hd' ▸ rfl⟩) fun unrefed => ?_
  cases hfind : unrefed.find? isSegmentsFileName with
  | some name => exact triple_lift (by simp) (fun _ _ => trivial) (fun _ _ _ h => by cases h)
  | none =>
    refine triple_bind (Q := fun d' _ => d'.view = d.view ∧ Kept d') ?_ fun _ => ?_
    · rintro d' ⟨rfl, rfl⟩
      have hzero : ∀ f ∈ d'.unrefedFiles, references d'.view f = 0 := by
        intro f hf
        rw [FileDeleter.unrefedFiles, List.mem_insertionSort, List.mem_filter] at hf
        have hcount := hkept.counted f
        rw [FileDeleter.refCount, of_decide_eq_true hf.2] at hcount
        exact Nat.le_zero.mp hcount
      refine triple_conseq (triple_onFiles (v := d'.view) (deleteFiles_triple fx
        (keepOf d'.commits) hzero)) (fun _ h => h) (fun d₁ _ hd₁ => ⟨hd₁.1, ?_⟩)
        (fun _ _ => trivial) d' ⟨rfl, hkept⟩
      rw [Kept, hd₁.1, show d₁.commits = d'.commits from congrArg View.commits hd₁.1]
      exact hd₁.2
    refine triple_bind (Q := fun d' _ => SameCommits d.view d' ∧ Kept d') ?_ fun _ => ?_
    · rintro d' ⟨hv, hk⟩
      refine triple_conseq (checkpoint_view_triple fx parseSi current hk (hv ▸ hmax)) (fun _ h => h)
        (fun d₁ _ hd₁ => ⟨hv ▸ hd₁.1, hd₁.2⟩) (fun _ _ => trivial) d' rfl
    · refine triple_conseq (applyPolicy_triple true fun c hc => hc.elim)
        (fun d' hd' => ⟨⟨?_, hd'.2⟩, ?_⟩) (fun _ _ h => h) (fun _ _ => trivial)
      · obtain ⟨lastFiles, hv⟩ := hd'.1
        rw [hv]
        exact ⟨hready.custom, hready.counts, hready.sorted, hready.pinned⟩
      · obtain ⟨lastFiles, hv⟩ := hd'.1
        have hsnap : d'.snapshots = d.view.snapshots := congrArg View.snapshots hv
        rw [if_pos rfl, hsnap]
        exact hlast

/-- A deleter that is opened on a directory whose commits have all their
files. -/
theorem openInner_returns (htotal : (listAll files).length + 1 ≤ u32Max)
    (hthere : ∀ d, IndexFileDeleter.scan fx parseSi crc32 (IndexFileDeleter.new files primary) =
      (.ok (), d) → ∀ c ∈ d.commits, ∀ f ∈ c.files, f ∈ files) :
    Returns (· = IndexFileDeleter.new files primary)
      (IndexFileDeleter.openInner fx parseSi crc32 current)
      (fun d _ => Sound primary ∅ (fun _ => False) d) := by
  refine returns_bind (Q := fun d _ => (Scanning primary files (listAll files).length 0 d ∧
    d.commits.Pairwise fun a b => a.generation ≤ b.generation) ∧
      ∀ c ∈ d.commits, ∀ f ∈ c.files, f ∈ files) ?_ (fun _ => ?_)
  · rintro d u d' rfl hrun
    exact ⟨scan_returns (by omega) _ u d' rfl hrun, hthere d' hrun⟩
  intro d u d' ⟨⟨hscan, hsorted⟩, hall⟩ hrun
  have hrefs : ∀ f, references d.view f = named d.commits f := by
    intro f
    change named d.commits f + d.lastFiles.count f = _
    rw [hscan.lastFiles, List.count_nil, Nat.add_zero]
  have hkept : Kept d := by
    refine ⟨fun f => ?_, fun f hf => references_pos hf, fun f hf => ?_⟩
    · rw [hrefs]
      exact hscan.counted f
    · obtain ⟨c, hc, hcf⟩ := hf
      rw [hscan.files]
      exact hall c hc f hcf
  have hmax : ∀ f, references d.view f + 1 ≤ u32Max := by
    intro f
    have hle := named_le_length hscan.nodup f
    have hbound := hscan.bound
    rw [hrefs]
    omega
  have hready : Ready primary ∅ (fun _ => False) d.view :=
    ⟨hscan.custom, congrArg SnapshotState.refCounts hscan.snapshots, hsorted,
      fun c hc => hc.elim⟩
  have hlast : d.view.snapshots.lastCommit = none :=
    congrArg SnapshotState.lastCommit hscan.snapshots
  exact (openScanned_triple hready hkept hlast hmax).returns d u d' rfl hrun

end opening

end LuceneRust.Index
