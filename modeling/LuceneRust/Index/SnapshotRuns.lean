import LuceneRust.Index.IndexFileDeleterSpec
import LuceneRust.Index.TwoPhaseCommitSpec
import Mathlib.Algebra.Order.BigOperators.Group.Finset

/-!
# Snapshots keep their commits

`Session` is a deleter with a `SnapshotDeletionPolicy`, with a record of the
snapshots that were taken and released.  `Step` is one call on the deleter or
on the policy, or a file that the writer creates.  The calls of the deleter
exclude each other, and the policy is behind its lock, so that a run is a
sequence of them.

* `Step.inv` says that every call keeps the invariant `Inv`.
* `snapshots_hold` reads off what a user of snapshots relies on.
-/

namespace LuceneRust.Index

open RustSem
open StateHoare
open Store (Files)

/-- A deleter, and the snapshots of the user: the generations that were taken
and released, and the commits that are held. -/
structure Session where
  deleter : IndexFileDeleter
  taken : List Int
  released : List Int
  held : List IndexCommit

namespace Session

/-- The snapshots of a generation that are not released. -/
def difference (s : Session) (g : Int) : Nat := s.taken.count g - s.released.count g

/-- The snapshots that are not released. -/
def outstanding (s : Session) : Nat := ∑ g ∈ s.taken.toFinset, s.difference g

/-- The state of the policy. -/
def policy (s : Session) : SnapshotState := s.deleter.snapshots

/-- A snapshot of the commit `c`. -/
def take (s : Session) (policy : SnapshotState) (c : IndexCommit) : Session :=
  { deleter := { s.deleter with snapshots := policy }
    taken := c.generation :: s.taken
    released := s.released
    held := c :: s.held }

/-- A release of the generation `g`.  With the last one, its commits are not
held any more. -/
def giveBack (s : Session) (policy : SnapshotState) (g : Int) : Session :=
  { deleter := { s.deleter with snapshots := policy }
    taken := s.taken
    released := g :: s.released
    held := if s.difference g = 1 then s.held.filter fun c => c.generation ≠ g else s.held }

/-- The counters of the code hold the numbers that are counted. -/
structure Within (s : Session) : Prop where
  snapshots : (s.outstanding : Int) ≤ i32Max
  references : ∀ f, references s.deleter.view f + 1 ≤ u32Max

end Session

section runs

variable (fx : DirFaults) (parseSi : SegmentCommitInfo → List U8 → Except String (List String))
  (crc32 : List U8 → U32)

/-- One call.  A commit is published with its files in the directory. -/
inductive Step : Session → Session → Prop where
  | commit {s : Session} (infos : SegmentInfos)
      (hfiles : ∀ files d', IndexFileDeleter.commitFiles fx parseSi infos true s.deleter =
        (.ok files, d') → ∀ f ∈ files, f ∈ s.deleter.files) :
      Step s { s with
        deleter := (IndexFileDeleter.checkpoint fx parseSi infos true s.deleter).2 }
  | view {s : Session} (infos : SegmentInfos) :
      Step s { s with
        deleter := (IndexFileDeleter.checkpoint fx parseSi infos false s.deleter).2 }
  | refresh {s : Session} :
      Step s { s with deleter := (IndexFileDeleter.refresh fx s.deleter).2 }
  | revisitPolicy {s : Session} :
      Step s { s with deleter := (IndexFileDeleter.revisitPolicy fx s.deleter).2 }
  | snapshot {s : Session} {c : IndexCommit} {policy : SnapshotState}
      (h : s.policy.snapshot = (.ok c, policy)) : Step s (s.take policy c)
  | releaseGen {s : Session} {g : Int} {policy : SnapshotState}
      (h : s.policy.releaseGen g = (.ok (), policy)) : Step s (s.giveBack policy g)
  | create {s : Session} (name : String) (bytes : List U8) :
      Step s { s with
        deleter := { s.deleter with files := s.deleter.files.insert name bytes } }

/-- The deleter was opened over a policy that was not used before, in a
directory whose commits have all their files. -/
structure Opened (primary : Primary) (files : Files) (current : SegmentInfos) (s : Session) :
    Prop where
  count : (listAll files).length + 1 ≤ u32Max
  there : ∀ d, IndexFileDeleter.scan fx parseSi crc32 (IndexFileDeleter.new files primary) =
    (.ok (), d) → ∀ c ∈ d.commits, ∀ f ∈ c.files, f ∈ files
  opened : IndexFileDeleter.openInner fx parseSi crc32 current
    (IndexFileDeleter.new files primary) = (.ok (), s.deleter)
  fresh : s.taken = [] ∧ s.released = [] ∧ s.held = []

/-- The sessions that a run reaches, as long as they are in `W`. -/
inductive Run (W : Session → Prop) (primary : Primary) : Session → Prop where
  | start {files : Files} {current : SegmentInfos} {s : Session}
      (h : Opened fx parseSi crc32 primary files current s) (hw : W s) : Run W primary s
  | step {s t : Session} (h : Run W primary s) (hst : Step fx parseSi s t) (hw : W t) :
      Run W primary t

end runs

/-! ## The invariant -/

section invariant

variable {fx : DirFaults}
  {parseSi : SegmentCommitInfo → List U8 → Except String (List String)} {crc32 : List U8 → U32}
  {primary : Primary} {s t : Session} {g : Int}

/-- The commits that are held are live, and the policy counts them. -/
structure Inv (primary : Primary) (s : Session) : Prop where
  sound : Sound primary s.policy.refCounts (· ∈ s.held) s.deleter
  counts : SnapshotState.Counts s.policy s.difference
  balance : ∀ g, s.released.count g ≤ s.taken.count g
  held : ∀ c ∈ s.held, 0 < s.difference c.generation
  pinned : ∀ g, 0 < s.difference g → ∃ c ∈ s.held, c.generation = g

theorem Inv.gens (h : Inv primary s) : ∀ c ∈ s.held, c.generation ∈ s.policy.refCounts :=
  fun c hc => h.counts.mem_iff.mpr (h.held c hc)

theorem Sound.mono {rc : AList fun _ : Int => Int} {pins pins' : IndexCommit → Prop}
    {d : IndexFileDeleter} (h : Sound primary rc pins d) (hpins : ∀ c, pins' c → pins c) :
    Sound primary rc pins' d :=
  ⟨⟨⟨h.1.custom, h.1.counts, h.1.sorted, fun c hc => h.1.pinned c (hpins c hc)⟩,
    h.1.initCalled, h.1.last⟩, h.2⟩

/-- A call of the deleter does not touch the snapshots. -/
theorem Inv.ofDeleter (h : Inv primary s) {d : IndexFileDeleter}
    (hd : Sound primary s.policy.refCounts (· ∈ s.held) d) :
    Inv primary { s with deleter := d } := by
  have hcounts : d.snapshots.refCounts = s.policy.refCounts := hd.1.counts
  refine ⟨?_, fun g => ?_, h.balance, h.held, h.pinned⟩
  · change Sound primary d.snapshots.refCounts _ d
    rw [hcounts]
    exact hd
  · change d.snapshots.refCounts.lookup g = _
    rw [hcounts]
    exact h.counts g

/-- A call of the deleter that returns or fails. -/
theorem sat_snd {α ε σ : Type} {P : σ → Prop} {r : Outcome ε α × σ}
    (h : Sat (fun s _ => P s) P r) : P r.2 := by
  obtain ⟨a | e | -, s⟩ := r
  · exact h
  · exact h
  · exact absurd h id

@[simp] theorem taken_take (policy : SnapshotState) (c : IndexCommit) :
    (s.take policy c).taken = c.generation :: s.taken := rfl

@[simp] theorem released_take (policy : SnapshotState) (c : IndexCommit) :
    (s.take policy c).released = s.released := rfl

@[simp] theorem taken_giveBack (policy : SnapshotState) (g : Int) :
    (s.giveBack policy g).taken = s.taken := rfl

@[simp] theorem released_giveBack (policy : SnapshotState) (g : Int) :
    (s.giveBack policy g).released = g :: s.released := rfl

theorem difference_take (hbalance : ∀ g, s.released.count g ≤ s.taken.count g)
    (policy : SnapshotState) (c : IndexCommit) :
    (s.take policy c).difference =
      Function.update s.difference c.generation (s.difference c.generation + 1) := by
  funext g
  have hg := hbalance g
  rw [Session.difference, taken_take, released_take]
  by_cases heq : g = c.generation
  · subst heq
    rw [Function.update_self, Session.difference, List.count_cons_self]
    omega
  · rw [Function.update_of_ne heq, Session.difference, List.count_cons_of_ne (Ne.symm heq)]

theorem difference_giveBack (policy : SnapshotState) (g : Int) :
    (s.giveBack policy g).difference = Function.update s.difference g (s.difference g - 1) := by
  funext g'
  rw [Session.difference, taken_giveBack, released_giveBack]
  by_cases heq : g' = g
  · subst heq
    rw [Function.update_self, Session.difference, List.count_cons_self]
    omega
  · rw [Function.update_of_ne heq, Session.difference, List.count_cons_of_ne (Ne.symm heq)]

theorem difference_le_outstanding (g : Int) : s.difference g ≤ s.outstanding := by
  by_cases hg : g ∈ s.taken.toFinset
  · exact Finset.single_le_sum (fun _ _ => Nat.zero_le _) hg
  · have hzero : s.taken.count g = 0 := by
      rw [List.mem_toFinset] at hg
      exact List.count_eq_zero.mpr hg
    rw [Session.difference, hzero, Nat.zero_sub]
    exact Nat.zero_le _

/-- A snapshot pins the last commit. -/
theorem Inv.take (h : Inv primary s) {c : IndexCommit} {policy : SnapshotState}
    (hsnap : s.policy.snapshot = (.ok c, policy)) (hw : (s.take policy c).Within) :
    Inv primary (s.take policy c) := by
  have hinit : s.policy.initCalled = true := h.sound.1.initCalled
  have hlast : s.policy.lastCommit = s.deleter.indexCommits.getLast? := h.sound.1.last
  cases hl : s.policy.lastCommit with
  | none =>
    rw [SnapshotState.snapshot_of_none hinit hl] at hsnap
    cases hsnap
  | some last =>
    rw [SnapshotState.snapshot_of_last hinit hl] at hsnap
    obtain ⟨hc, rfl⟩ := Prod.mk.inj hsnap
    obtain rfl : last = c := Outcome.ok.inj hc
    have hmem : last ∈ s.deleter.indexCommits :=
      List.mem_of_getLast? (hlast.symm.trans hl)
    have hdiff := difference_take h.balance (s.policy.incRef last) last
    have hmax : (s.difference last.generation : Int) < i32Max := by
      have hle := difference_le_outstanding (s := s.take (s.policy.incRef last) last)
        last.generation
      rw [hdiff, Function.update_self] at hle
      have hwin := hw.snapshots
      omega
    have hkeep : (s.policy.incRef last).initCalled = true ∧
        (s.policy.incRef last).lastCommit = s.policy.lastCommit := by
      rw [SnapshotState.incRef]
      split
      · exact ⟨hinit, rfl⟩
      · exact ⟨hinit, rfl⟩
    refine ⟨⟨⟨⟨h.sound.1.custom, rfl, h.sound.1.sorted, fun c hc => ?_⟩, hkeep.1,
      hkeep.2.trans hlast⟩, h.sound.2⟩, ?_, fun g => ?_, fun c hc => ?_, fun g hg => ?_⟩
    · rcases List.mem_cons.mp hc with rfl | hc
      · exact hmem
      · exact h.sound.1.pinned c hc
    · rw [hdiff]
      exact SnapshotState.counts_incRef h.counts hmax
    · exact (h.balance g).trans List.count_le_count_cons
    · rw [hdiff]
      by_cases hgen : c.generation = last.generation
      · rw [hgen, Function.update_self]
        omega
      · rw [Function.update_of_ne hgen]
        rcases List.mem_cons.mp hc with rfl | hc
        · exact absurd rfl hgen
        · exact h.held c hc
    · by_cases hgen : g = last.generation
      · exact ⟨last, List.mem_cons_self, hgen.symm⟩
      · rw [hdiff, Function.update_of_ne hgen] at hg
        obtain ⟨c, hc, hcg⟩ := h.pinned g hg
        exact ⟨c, List.mem_cons_of_mem last hc, hcg⟩

/-- A release takes a snapshot back. -/
theorem Inv.giveBack (h : Inv primary s) (hw : s.Within) {policy : SnapshotState}
    (hrel : s.policy.releaseGen g = (.ok (), policy)) : Inv primary (s.giveBack policy g) := by
  have hinit : s.policy.initCalled = true := h.sound.1.initCalled
  have hpos : 0 < s.difference g := by
    refine Nat.pos_of_ne_zero fun hz => ?_
    rw [SnapshotState.releaseGen_of_zero hinit h.counts hz] at hrel
    cases hrel
  have hmax : (s.difference g : Int) ≤ i32Max :=
    le_trans (by exact_mod_cast difference_le_outstanding g) hw.snapshots
  obtain ⟨policy', hrel', hcounts, hlast, hinit'⟩ :=
    SnapshotState.counts_releaseGen hinit h.counts hpos hmax
  rw [hrel'] at hrel
  obtain ⟨-, rfl⟩ := Prod.mk.inj hrel
  have hdiff := difference_giveBack (s := s) policy' g
  have hsub : ∀ c ∈ (s.giveBack policy' g).held, c ∈ s.held ∧
      (s.difference g = 1 → c.generation ≠ g) := by
    intro c hc
    rw [Session.giveBack] at hc
    dsimp only at hc
    split at hc
    case isTrue h1 =>
      have hf := List.mem_filter.mp hc
      exact ⟨hf.1, fun _ => by simpa using hf.2⟩
    case isFalse h1 => exact ⟨hc, fun h2 => absurd h2 h1⟩
  refine ⟨⟨⟨⟨h.sound.1.custom, rfl, h.sound.1.sorted, fun c hc =>
    h.sound.1.pinned c (hsub c hc).1⟩, hinit'.trans hinit, hlast.trans h.sound.1.last⟩,
    h.sound.2⟩, ?_, fun g' => ?_, fun c hc => ?_, fun g' hg' => ?_⟩
  · rw [hdiff]
    exact hcounts
  · by_cases hgen : g' = g
    · subst hgen
      rw [released_giveBack, taken_giveBack, List.count_cons_self]
      rw [Session.difference] at hpos
      omega
    · rw [released_giveBack, taken_giveBack, List.count_cons_of_ne (Ne.symm hgen)]
      exact h.balance g'
  · obtain ⟨hmem, hne⟩ := hsub c hc
    have hheld := h.held c hmem
    rw [hdiff]
    by_cases hgen : c.generation = g
    · rw [hgen, Function.update_self]
      have hne1 : s.difference g ≠ 1 := fun h1 => hne h1 hgen
      omega
    · rw [Function.update_of_ne hgen]
      exact hheld
  · rw [hdiff] at hg'
    by_cases hgen : g' = g
    · subst hgen
      rw [Function.update_self] at hg'
      obtain ⟨c, hc, hcg⟩ := h.pinned g' hpos
      refine ⟨c, ?_, hcg⟩
      rw [Session.giveBack, if_neg (by omega)]
      exact hc
    · rw [Function.update_of_ne hgen] at hg'
      obtain ⟨c, hc, hcg⟩ := h.pinned g' hg'
      refine ⟨c, ?_, hcg⟩
      rw [Session.giveBack]
      dsimp only
      split
      · exact List.mem_filter.mpr ⟨hc, by simpa [hcg] using hgen⟩
      · exact hc

/-- A new file is no reason to lose one. -/
theorem Kept.insert {d : IndexFileDeleter} (h : Kept d) (name : String) (bytes : List U8) :
    Kept { d with files := d.files.insert name bytes } := by
  refine ⟨h.counted, h.needed, fun f hf => ?_⟩
  exact (AList.mem_insert _).mpr (.inr (h.there f hf))

theorem Step.inv (h : Inv primary s) (hw : s.Within) (hst : Step fx parseSi s t)
    (hwt : t.Within) : Inv primary t := by
  cases hst with
  | commit infos hfiles =>
    exact h.ofDeleter (sat_snd (checkpoint_commit_triple h.gens h.sound hfiles hw.references
      s.deleter rfl))
  | view infos =>
    have hrun := sat_snd (checkpoint_view_triple fx parseSi infos h.sound.2
      hw.references s.deleter rfl)
    obtain ⟨⟨lastFiles, hv⟩, hk⟩ := hrun
    refine h.ofDeleter ⟨?_, hk⟩
    rw [hv]
    exact ⟨⟨h.sound.1.custom, h.sound.1.counts, h.sound.1.sorted, h.sound.1.pinned⟩,
      h.sound.1.initCalled, h.sound.1.last⟩
  | refresh => exact h.ofDeleter (sat_snd (refresh_triple h.sound s.deleter rfl))
  | revisitPolicy => exact h.ofDeleter (sat_snd (revisitPolicy_triple h.gens s.deleter h.sound))
  | snapshot hsnap => exact h.take hsnap hwt
  | releaseGen hrel => exact h.giveBack hw hrel
  | create name bytes => exact h.ofDeleter ⟨h.sound.1, h.sound.2.insert name bytes⟩

theorem Opened.inv {files : Files} {current : SegmentInfos}
    (h : Opened fx parseSi crc32 primary files current s) : Inv primary s := by
  have hsound := openInner_returns h.count h.there _ () s.deleter rfl h.opened
  obtain ⟨ht, hr, hh⟩ := h.fresh
  have hdiff : s.difference = fun _ => 0 := by
    funext g
    rw [Session.difference, ht, List.count_nil, Nat.zero_sub]
  refine ⟨?_, ?_, fun g => ?_, fun c hc => ?_, fun g hg => ?_⟩
  · rw [hh, show s.policy.refCounts = ∅ from hsound.1.counts]
    exact hsound.mono fun c hc => absurd hc List.not_mem_nil
  · rw [hdiff]
    intro g
    rw [show s.policy.refCounts = ∅ from hsound.1.counts]
    rfl
  · rw [hr]
    exact Nat.zero_le _
  · rw [hh] at hc
    cases hc
  · rw [hdiff] at hg
    exact absurd hg (Nat.lt_irrefl 0)

theorem Run.inv (h : Run fx parseSi crc32 Session.Within primary s) :
    Inv primary s ∧ s.Within := by
  induction h with
  | start h hw => exact ⟨h.inv, hw⟩
  | step _ hst hw ih => exact ⟨Step.inv ih.1 ih.2 hst hw, hw⟩

/-! ## What a user relies on -/

/-- The commits that are held are live and have their files, and the calls of
the policy answer for them. -/
structure Holds (s : Session) : Prop where
  held : ∀ g, 0 < s.difference g → ∃ c ∈ s.held, c.generation = g
  live : ∀ c ∈ s.held, 0 < s.difference c.generation ∧ c ∈ s.deleter.indexCommits ∧
    ∀ f ∈ c.fileNames, f ∈ s.deleter.files
  count : s.policy.snapshotCount = (s.outstanding : Int)
  release : ∀ c, (∃ e, (s.policy.release c).1 = .err e) ↔ s.difference c.generation = 0
  snapshot : ∀ c, (s.policy.snapshot).1 = .ok c ↔ s.deleter.indexCommits.getLast? = some c
  newest : ∀ c, s.deleter.indexCommits.getLast? = some c →
    ∀ c' ∈ s.deleter.indexCommits, c'.generation ≤ c.generation

theorem Inv.newest (h : Inv primary s) {c : IndexCommit}
    (hc : s.deleter.indexCommits.getLast? = some c) :
    ∀ c' ∈ s.deleter.indexCommits, c'.generation ≤ c.generation := by
  have hsorted : s.deleter.indexCommits.Pairwise fun a b => a.generation ≤ b.generation := by
    rw [IndexFileDeleter.indexCommits, List.pairwise_map]
    exact h.sound.1.sorted
  obtain ⟨l, hl⟩ := List.getLast?_eq_some_iff.mp hc
  rw [hl] at hsorted ⊢
  intro c' hc'
  rcases List.mem_append.mp hc' with hc' | hc'
  · exact (List.pairwise_append.mp hsorted).2.2 c' hc' c (List.mem_singleton_self c)
  · rw [List.mem_singleton.mp hc']

theorem Inv.snapshot (h : Inv primary s) (c : IndexCommit) :
    (s.policy.snapshot).1 = .ok c ↔ s.deleter.indexCommits.getLast? = some c := by
  have hinit : s.policy.initCalled = true := h.sound.1.initCalled
  have hlast : s.policy.lastCommit = s.deleter.indexCommits.getLast? := h.sound.1.last
  rw [← hlast]
  cases hl : s.policy.lastCommit with
  | none => simp [SnapshotState.snapshot_of_none hinit hl]
  | some last => simp [SnapshotState.snapshot_of_last hinit hl]

theorem Inv.release (h : Inv primary s) (hw : s.Within) (c : IndexCommit) :
    (∃ e, (s.policy.release c).1 = .err e) ↔ s.difference c.generation = 0 := by
  have hinit : s.policy.initCalled = true := h.sound.1.initCalled
  constructor
  · rintro ⟨e, he⟩
    by_contra hne
    have hmax : (s.difference c.generation : Int) ≤ i32Max :=
      le_trans (by exact_mod_cast difference_le_outstanding _) hw.snapshots
    obtain ⟨policy', hrel, -⟩ := SnapshotState.counts_releaseGen hinit h.counts
      (Nat.pos_of_ne_zero hne) hmax
    rw [SnapshotState.release, hrel] at he
    cases he
  · intro hz
    exact ⟨_, congrArg Prod.fst (SnapshotState.releaseGen_of_zero hinit h.counts hz)⟩

/-- In every run, the commits of the snapshots that are not released keep
their files. -/
theorem snapshots_hold (fx : DirFaults)
    (parseSi : SegmentCommitInfo → List U8 → Except String (List String))
    (crc32 : List U8 → U32) (primary : Primary) (s : Session)
    (h : Run fx parseSi crc32 Session.Within primary s) : Holds s := by
  obtain ⟨hinv, hw⟩ := h.inv
  refine ⟨hinv.pinned, fun c hc => ⟨hinv.held c hc, hinv.sound.1.pinned c hc, fun f hf => ?_⟩,
    ?_, hinv.release hw, hinv.snapshot, fun c => hinv.newest⟩
  · obtain ⟨cp, hcp, rfl⟩ := List.mem_map.mp (hinv.sound.1.pinned c hc)
    exact hinv.sound.2.there f ⟨cp, hcp, hf⟩
  · refine SnapshotState.snapshotCount_eq hinv.counts s.taken.toFinset (fun g hg => ?_)
      hw.snapshots
    rw [List.mem_toFinset]
    by_contra hnot
    rw [Session.difference, List.count_eq_zero.mpr hnot, Nat.zero_sub] at hg
    exact absurd hg (Nat.lt_irrefl 0)

end invariant

/-! ## A session -/

section session

/-- Every call on the directory goes through. -/
def calm : DirFaults := ⟨fun _ => false, fun _ => false⟩

/-- An index without segments has no `.si` file. -/
def noSegments (_ : SegmentCommitInfo) (_ : List U8) : Except String (List String) :=
  .error "no segment"

/-- A deleter that is opened on an empty directory. -/
def emptySession : Session :=
  ⟨(IndexFileDeleter.openInner calm noSegments Store.crc32Hash (emptyCommit 0 10#32)
    (IndexFileDeleter.new ∅ .keepOnlyLastCommit)).2, [], [], []⟩

/-- The commit of an empty index is published. -/
def createdSession : Session :=
  { emptySession with
    deleter := { emptySession.deleter with
      files := emptySession.deleter.files.insert (commitFile 1) [] } }

/-- The deleter knows of it. -/
def committedSession : Session :=
  { createdSession with
    deleter := (IndexFileDeleter.checkpoint calm noSegments (emptyCommit 1 10#32) true
      createdSession.deleter).2 }

/-- The commit of the session. -/
def onlyCommit : IndexCommit := ⟨1, commitFile 1, [commitFile 1], 0, [], false⟩

theorem run_committedSession {W : Session → Prop} (hempty : W emptySession)
    (hcreated : W createdSession) (hcommitted : W committedSession) :
    Run calm noSegments Store.crc32Hash W .keepOnlyLastCommit committedSession := by
  have hopened : Opened calm noSegments Store.crc32Hash .keepOnlyLastCommit ∅
      (emptyCommit 0 10#32) emptySession := by
    refine ⟨by decide, fun d hd c hc => ?_, rfl, rfl, rfl, rfl⟩
    have hnone : (IndexFileDeleter.scan calm noSegments Store.crc32Hash
        (IndexFileDeleter.new ∅ .keepOnlyLastCommit)).2.commits = [] := rfl
    rw [hd] at hnone
    rw [hnone] at hc
    cases hc
  have hfiles : IndexFileDeleter.commitFiles calm noSegments (emptyCommit 1 10#32) true
      createdSession.deleter = (.ok [commitFile 1], createdSession.deleter) := rfl
  have hstep : Run calm noSegments Store.crc32Hash W .keepOnlyLastCommit createdSession :=
    .step (.start hopened hempty) (.create (commitFile 1) []) hcreated
  refine .step hstep (.commit (emptyCommit 1 10#32) fun files d' hrun f hf => ?_) hcommitted
  rw [hfiles] at hrun
  obtain ⟨h, -⟩ := Prod.mk.inj hrun
  rw [← Outcome.ok.inj h] at hf
  rw [List.mem_singleton.mp hf]
  exact (AList.mem_insert _).mpr (.inl rfl)

/-- A snapshot of the commit of the session. -/
def snapshotSession : Session :=
  committedSession.take (committedSession.policy.incRef onlyCommit) onlyCommit

theorem snapshots_hold_commit :
    snapshotSession.difference 1 = 1 ∧ Holds snapshotSession := by
  have hwithin : ∀ s : Session, s.taken = [] → s.deleter.view.lastFiles = [] →
      (s.deleter.view.commits = [] ∨ s.deleter.view.commits =
        [⟨1, commitFile 1, [commitFile 1], 0, []⟩]) → s.Within := by
    intro s ht hl hc
    refine ⟨?_, fun f => ?_⟩
    · rw [Session.outstanding, ht, List.toFinset_nil, Finset.sum_empty]
      decide
    · have hle : named s.deleter.view.commits f ≤ 1 := by
        rcases hc with hc | hc
        · rw [hc]
          exact Nat.zero_le _
        · rw [hc, named, List.map_singleton, List.sum_singleton]
          exact List.nodup_iff_count_le_one.mp (List.nodup_singleton _) f
      rw [references, hl, List.count_nil, u32Max]
      omega
  have hrun := run_committedSession (W := Session.Within) (hwithin _ rfl rfl (.inl rfl))
    (hwithin _ rfl rfl (.inl rfl)) (hwithin _ rfl rfl (.inr rfl))
  have hsnap : committedSession.policy.snapshot =
      (.ok onlyCommit, committedSession.policy.incRef onlyCommit) := rfl
  refine ⟨rfl, snapshots_hold calm noSegments Store.crc32Hash .keepOnlyLastCommit _
    (.step hrun (.snapshot hsnap) ⟨by decide, ?_⟩)⟩
  exact (hwithin committedSession rfl rfl (.inr rfl)).references

theorem saturatingAddI32_min (n : Nat) :
    saturatingAddI32 (min (n : Int) i32Max) 1 = min ((n + 1 : Nat) : Int) i32Max := by
  rw [saturatingAddI32, i32Max]
  omega

/-- The count of a generation stays at `i32::MAX`. -/
theorem run_snapshots (n : Nat) :
    ∃ s, Run calm noSegments Store.crc32Hash (fun _ => True) .keepOnlyLastCommit s ∧
      s.policy.initCalled = true ∧ s.policy.lastCommit = some onlyCommit ∧
      s.policy.refCounts = AList.singleton 1 (min ((n + 1 : Nat) : Int) i32Max) ∧
      s.taken = List.replicate (n + 1) 1 ∧ s.released = [] := by
  induction n with
  | zero =>
    have hsnap : committedSession.policy.snapshot =
        (.ok onlyCommit, committedSession.policy.incRef onlyCommit) := rfl
    exact ⟨snapshotSession, .step (run_committedSession trivial trivial trivial)
      (.snapshot hsnap) trivial, rfl, rfl, rfl, rfl, rfl⟩
  | succ n ih =>
    obtain ⟨s, hrun, hinit, hlast, hcounts, htaken, hreleased⟩ := ih
    have hlook : s.policy.refCounts.lookup 1 = some (min ((n + 1 : Nat) : Int) i32Max) := by
      rw [hcounts]
      rfl
    have hinc : s.policy.incRef onlyCommit = { s.policy with
        refCounts := s.policy.refCounts.insert 1
          (saturatingAddI32 (min ((n + 1 : Nat) : Int) i32Max) 1) } := by
      rw [SnapshotState.incRef, show s.policy.refCounts.lookup onlyCommit.generation = _ from hlook]
      rfl
    refine ⟨s.take (s.policy.incRef onlyCommit) onlyCommit,
      .step hrun (.snapshot (SnapshotState.snapshot_of_last hinit hlast)) trivial, ?_, ?_, ?_,
      ?_, hreleased⟩
    · change (s.policy.incRef onlyCommit).initCalled = true
      rw [hinc]
      exact hinit
    · change (s.policy.incRef onlyCommit).lastCommit = _
      rw [hinc]
      exact hlast
    · change (s.policy.incRef onlyCommit).refCounts = _
      rw [hinc, hcounts]
      dsimp only
      rw [AList.insert_singleton_eq, saturatingAddI32_min]
    · change (1 : Int) :: s.taken = _
      rw [htaken]
      rfl

/-- With more than `i32::MAX` snapshots of one commit, the count of the
snapshots is not their number. -/
theorem snapshotCount_saturates :
    ∃ s, Run calm noSegments Store.crc32Hash (fun _ => True) .keepOnlyLastCommit s ∧
      s.outstanding = 2 ^ 31 ∧ s.policy.snapshotCount = 2 ^ 31 - 1 := by
  obtain ⟨s, hrun, -, -, hcounts, htaken, hreleased⟩ := run_snapshots (2 ^ 31 - 1)
  refine ⟨s, hrun, ?_, ?_⟩
  · rw [Session.outstanding, htaken, List.toFinset_replicate_of_ne_zero (by omega),
      Finset.sum_singleton, Session.difference, htaken, hreleased, List.count_replicate_self,
      List.count_nil]
    omega
  · rw [SnapshotState.snapshotCount, hcounts]
    change saturatingAddI32 0 (min ((2 ^ 31 - 1 + 1 : Nat) : Int) i32Max) = _
    rw [saturatingAddI32, i32Max]
    omega

end session

end LuceneRust.Index
