import Mathlib.Algebra.BigOperators.Group.List.Basic
import Mathlib.Algebra.Order.BigOperators.Group.List
import Mathlib.Algebra.BigOperators.Ring.Finset
import Mathlib.Data.List.AList
import LuceneRust.RustSem.Outcome

/-!
# `lucene_index::deletion_policy`

A deletion policy is handed the live commits of an index, the oldest first,
and marks those that are to go.  `SnapshotDeletionPolicy` asks a primary
policy, and carries its marks back only for the commits that no snapshot
holds.  Its state is behind a lock: each of its functions is one step.

* `runPrimary_spec` says what a run of the policy marks.
* `Counts` ties the reference counts to the snapshots that are held, and
  `counts_incRef` and `counts_releaseGen` keep it.
* `snapshotCount_eq` adds the counts up.
-/

namespace LuceneRust.Index

open RustSem

/-- `deletion_policy::Error`, of the policies that have no file. -/
inductive PolicyError where
  | illegalArgument (message : String)
  | illegalState (message : String)
  deriving Repr, DecidableEq

/-- `IndexCommit`. -/
structure IndexCommit where
  generation : Int
  segmentsFileName : String
  fileNames : List String
  segmentCount : Nat
  userData : List (String × String)
  deleted : Bool
  deriving Repr, DecidableEq

/-- `IndexCommit::delete`. -/
def IndexCommit.delete (commit : IndexCommit) : IndexCommit := { commit with deleted := true }

/-- The primary policies: `KeepOnlyLastCommitDeletionPolicy`,
`NoDeletionPolicy` and `KeepLastNCommitsDeletionPolicy`. -/
inductive Primary where
  | keepOnlyLastCommit
  | noDeletion
  | keepLastNCommits (numCommitsToKeep : { n : Nat // 0 < n })
  deriving DecidableEq

/-- `KeepLastNCommitsDeletionPolicy::new`. -/
def Primary.newKeepLastNCommits (numCommitsToKeep : Int) : Outcome PolicyError Primary :=
  if h : numCommitsToKeep ≤ 0 then
    .err (.illegalArgument "number of recent commits to keep must be positive")
  else .ok (.keepLastNCommits ⟨numCommitsToKeep.toNat, by omega⟩)

/-- The loop over `commits[..doomed]`. -/
def deleteFirst (doomed : Nat) (commits : List IndexCommit) : List IndexCommit :=
  (commits.take doomed).map IndexCommit.delete ++ commits.drop doomed

/-- `on_commit` of a primary policy, which is also its `on_init`. -/
def Primary.onCommit (commits : List IndexCommit) : Primary → List IndexCommit
  | keepOnlyLastCommit => deleteFirst (commits.length - 1) commits
  | noDeletion => commits
  | keepLastNCommits n => deleteFirst (commits.length - n.1) commits

/-- `i32::MAX`. -/
def i32Max : Int := 2 ^ 31 - 1

/-- `i32::saturating_add`. -/
def saturatingAddI32 (a b : Int) : Int := max (-2 ^ 31) (min i32Max (a + b))

/-- `i32::saturating_sub`. -/
def saturatingSubI32 (a b : Int) : Int := max (-2 ^ 31) (min i32Max (a - b))

/-- `SnapshotState`. -/
structure SnapshotState where
  refCounts : AList fun _ : Int => Int
  indexCommits : AList fun _ : Int => IndexCommit
  lastCommit : Option IndexCommit
  initCalled : Bool

namespace SnapshotState

/-- `SnapshotState::default`. -/
def new : SnapshotState := ⟨∅, ∅, none, false⟩

/-- `NOT_USED_BY_WRITER`. -/
def notUsedByWriter : String :=
  "this instance is not being used by IndexWriter; be sure to use " ++
    "the instance returned from writer.getConfig().getIndexDeletionPolicy()"

/-- `run_primary`. -/
def runPrimary (state : SnapshotState) (primary : Primary) (commits : List IndexCommit) :
    List IndexCommit :=
  let wrapped := primary.onCommit commits
  commits.zipWith (fun commit decided =>
    if decided.deleted = true ∧ commit.generation ∉ state.refCounts then commit.delete
    else commit) wrapped

/-- `inc_ref`. -/
def incRef (state : SnapshotState) (commit : IndexCommit) : SnapshotState :=
  match state.refCounts.lookup commit.generation with
  | none =>
    { state with
      indexCommits := state.indexCommits.insert commit.generation commit
      refCounts := state.refCounts.insert commit.generation (saturatingAddI32 0 1) }
  | some c =>
    { state with
      refCounts := state.refCounts.insert commit.generation (saturatingAddI32 c 1) }

/-- `snapshot`. -/
def snapshot (state : SnapshotState) : Outcome PolicyError IndexCommit × SnapshotState :=
  if state.initCalled = false then (.err (.illegalState notUsedByWriter), state)
  else
    match state.lastCommit with
    | none => (.err (.illegalState "No index commit to snapshot"), state)
    | some last => (.ok last, state.incRef last)

/-- `release_gen`. -/
def releaseGen (state : SnapshotState) (gen : Int) : Outcome PolicyError Unit × SnapshotState :=
  if state.initCalled = false then (.err (.illegalState notUsedByWriter), state)
  else
    match state.refCounts.lookup gen with
    | none =>
      (.err (.illegalArgument
        ("commit gen=" ++ toString gen ++ " is not currently snapshotted")), state)
    | some count =>
      let count := saturatingSubI32 count 1
      if count = 0 then
        (.ok (), { state with
          refCounts := state.refCounts.erase gen
          indexCommits := state.indexCommits.erase gen })
      else (.ok (), { state with refCounts := state.refCounts.insert gen count })

/-- `release`. -/
def release (state : SnapshotState) (commit : IndexCommit) :
    Outcome PolicyError Unit × SnapshotState :=
  state.releaseGen commit.generation

/-- `snapshot_count`. -/
def snapshotCount (state : SnapshotState) : Int :=
  (state.refCounts.entries.map Sigma.snd).foldl saturatingAddI32 0

/-- `on_init`. -/
def onInit (state : SnapshotState) (primary : Primary) (commits : List IndexCommit) :
    List IndexCommit × SnapshotState :=
  let state := { state with initCalled := true }
  let commits := state.runPrimary primary commits
  let indexCommits := commits.foldl (fun map commit =>
    if commit.generation ∈ state.refCounts then map.insert commit.generation commit
    else map) state.indexCommits
  let lastCommit :=
    match commits.getLast? with
    | some last => some last
    | none => state.lastCommit
  (commits, { state with indexCommits := indexCommits, lastCommit := lastCommit })

/-- `on_commit`. -/
def onCommit (state : SnapshotState) (primary : Primary) (commits : List IndexCommit) :
    List IndexCommit × SnapshotState :=
  let commits := state.runPrimary primary commits
  (commits, { state with lastCommit := commits.getLast? })

/-! ## What a run of the policy marks -/

variable (state : SnapshotState) (primary : Primary) {commits : List IndexCommit} {g : Int}

theorem lastCommit_onInit :
    (state.onInit primary commits).2.lastCommit =
      (state.runPrimary primary commits).getLast?.or state.lastCommit := by
  rw [onInit]
  change (match (state.runPrimary primary commits).getLast? with
    | some last => some last
    | none => state.lastCommit) = _
  cases (state.runPrimary primary commits).getLast? <;> rfl

/-- A mark of the primary policy, carried back. -/
def carry (commit : IndexCommit) : IndexCommit :=
  if commit.generation ∉ state.refCounts then commit.delete else commit

theorem zipWith_deleteFirst (doomed : Nat) (hlive : ∀ c ∈ commits, c.deleted = false) :
    commits.zipWith (fun commit decided =>
      if decided.deleted = true ∧ commit.generation ∉ state.refCounts then commit.delete
      else commit) (deleteFirst doomed commits) =
      (commits.take doomed).map state.carry ++ commits.drop doomed := by
  induction commits generalizing doomed with
  | nil => simp
  | cons c commits ih =>
    have hlive' : ∀ c' ∈ commits, c'.deleted = false :=
      fun c' hc' => hlive c' (List.mem_cons_of_mem c hc')
    have hc := hlive c List.mem_cons_self
    cases doomed with
    | zero =>
      have hrest := ih 0 hlive'
      simp only [deleteFirst, List.take_zero, List.map_nil, List.drop_zero, List.nil_append]
        at hrest ⊢
      rw [List.zipWith_cons_cons, hrest, if_neg (by simp [hc])]
    | succ doomed =>
      have hcons : deleteFirst (doomed + 1) (c :: commits) =
          c.delete :: deleteFirst doomed commits := rfl
      have hmark : (c.delete.deleted = true ∧ c.generation ∉ state.refCounts) ↔
          c.generation ∉ state.refCounts := and_iff_right rfl
      rw [hcons, List.zipWith_cons_cons, ih doomed hlive', List.take_succ_cons, List.map_cons,
        List.drop_succ_cons, List.cons_append, carry, if_congr hmark rfl rfl]
/-- The policy marks commits at the front of the list, never the last one, and
none that a snapshot holds. -/
theorem runPrimary_spec (hlive : ∀ c ∈ commits, c.deleted = false) :
    ∃ doomed ≤ commits.length - 1, state.runPrimary primary commits =
      (commits.take doomed).map state.carry ++ commits.drop doomed := by
  cases primary with
  | keepOnlyLastCommit => exact ⟨_, le_rfl, zipWith_deleteFirst state _ hlive⟩
  | noDeletion =>
    refine ⟨0, Nat.zero_le _, ?_⟩
    have hnone := zipWith_deleteFirst state 0 hlive
    rwa [deleteFirst, List.take_zero, List.map_nil, List.nil_append, List.drop_zero] at hnone
  | keepLastNCommits n =>
    exact ⟨_, Nat.sub_le_sub_left n.2 _, zipWith_deleteFirst state _ hlive⟩

/-- A commit that a snapshot holds is not marked, and neither is the last
one. -/
theorem getElem?_runPrimary (hlive : ∀ c ∈ commits, c.deleted = false) {i : Nat}
    {c : IndexCommit} (hc : commits[i]? = some c)
    (hkeep : c.generation ∈ state.refCounts ∨ i + 1 = commits.length) :
    (state.runPrimary primary commits)[i]? = some c := by
  obtain ⟨doomed, hle, heq⟩ := runPrimary_spec state primary hlive
  obtain ⟨hi, -⟩ := List.getElem?_eq_some_iff.mp hc
  have hlen : ((commits.take doomed).map state.carry).length = doomed := by
    rw [List.length_map, List.length_take]
    omega
  rw [heq, List.getElem?_append, hlen]
  split
  case isTrue hlt =>
    have hheld := hkeep.resolve_right (by omega)
    rw [List.getElem?_map, List.getElem?_take_of_lt hlt, hc, Option.map_some, carry,
      if_neg (not_not_intro hheld)]
  case isFalse hge =>
    rw [List.getElem?_drop, Nat.add_sub_cancel' (by omega), hc]

theorem length_runPrimary (hlive : ∀ c ∈ commits, c.deleted = false) :
    (state.runPrimary primary commits).length = commits.length := by
  obtain ⟨doomed, hle, heq⟩ := runPrimary_spec state primary hlive
  rw [heq, List.length_append, List.length_map, List.length_take, List.length_drop]
  omega

theorem getLast?_runPrimary (hlive : ∀ c ∈ commits, c.deleted = false) :
    (state.runPrimary primary commits).getLast? = commits.getLast? := by
  obtain ⟨doomed, hle, heq⟩ := runPrimary_spec state primary hlive
  rw [heq]
  cases commits with
  | nil => simp
  | cons c commits =>
    rw [List.length_cons, Nat.add_sub_cancel] at hle
    have hdrop : (c :: commits).drop doomed ≠ [] := by
      simp only [ne_eq, List.drop_eq_nil_iff, List.length_cons, not_le]
      omega
    rw [List.getLast?_append_of_ne_nil _ hdrop, List.getLast?_drop, if_neg]
    simp only [List.length_cons]
    omega

/-! ## Snapshots that are held -/

variable {state}

/-- The counts of the snapshots that are held, of each generation. -/
def Counts (state : SnapshotState) (out : Int → Nat) : Prop :=
  ∀ g, state.refCounts.lookup g = if out g = 0 then none else some (out g : Int)

variable {out : Int → Nat}

theorem counts_new : Counts SnapshotState.new fun _ => 0 := fun _ => rfl

theorem Counts.mem_iff (h : Counts state out) : g ∈ state.refCounts ↔ 0 < out g := by
  rw [← AList.lookup_isSome, h g]
  split <;> simp_all [Nat.pos_iff_ne_zero]

theorem saturatingAddI32_of_le {a b : Int} (h0 : 0 ≤ a + b) (h : a + b ≤ i32Max) :
    saturatingAddI32 a b = a + b := by
  rw [saturatingAddI32, min_eq_right h, max_eq_right (by omega)]

theorem counts_incRef {commit : IndexCommit} (h : Counts state out)
    (hmax : (out commit.generation : Int) < i32Max) :
    Counts (state.incRef commit)
      (Function.update out commit.generation (out commit.generation + 1)) := by
  have hadd : saturatingAddI32 (out commit.generation) 1 =
      ((out commit.generation + 1 : Nat) : Int) := by
    rw [saturatingAddI32_of_le (by omega) (by omega)]
    rfl
  have hlook := h commit.generation
  have hinsert : (state.incRef commit).refCounts = state.refCounts.insert commit.generation
      ((out commit.generation + 1 : Nat) : Int) := by
    rw [incRef, hlook]
    split
    case h_1 hnone =>
      have hzero : out commit.generation = 0 := by
        by_contra hne
        rw [if_neg hne] at hnone
        cases hnone
      rw [← hadd, hzero]
      rfl
    case h_2 c hsome =>
      split at hsome
      · cases hsome
      · cases hsome
        rw [hadd]
  intro g
  rw [hinsert]
  by_cases hg : g = commit.generation
  · rw [hg, AList.lookup_insert, Function.update_self, if_neg (by omega)]
  · rw [AList.lookup_insert_ne hg, Function.update_of_ne hg]
    exact h g

theorem snapshot_of_last {last : IndexCommit} (hinit : state.initCalled = true)
    (hlast : state.lastCommit = some last) : state.snapshot = (.ok last, state.incRef last) := by
  rw [snapshot, hinit, hlast]
  rfl

theorem snapshot_of_none (hinit : state.initCalled = true) (hlast : state.lastCommit = none) :
    state.snapshot = (.err (.illegalState "No index commit to snapshot"), state) := by
  rw [snapshot, hinit, hlast]
  rfl

/-- A generation that is not held cannot be released. -/
theorem releaseGen_of_zero (hinit : state.initCalled = true) (h : Counts state out)
    (hg : out g = 0) :
    state.releaseGen g = (.err (.illegalArgument
      ("commit gen=" ++ toString g ++ " is not currently snapshotted")), state) := by
  rw [releaseGen, hinit, h g, if_pos hg]
  rfl

/-- One that is held can, and has one snapshot less. -/
theorem counts_releaseGen (hinit : state.initCalled = true) (h : Counts state out)
    (hg : 0 < out g) (hmax : (out g : Int) ≤ i32Max) :
    ∃ state', state.releaseGen g = (.ok (), state') ∧
      Counts state' (Function.update out g (out g - 1)) ∧
      state'.lastCommit = state.lastCommit ∧ state'.initCalled = state.initCalled := by
  have hsub : saturatingSubI32 (out g) 1 = ((out g - 1 : Nat) : Int) := by
    rw [saturatingSubI32, min_eq_right (by omega), max_eq_right (by omega)]
    omega
  rw [releaseGen, hinit, h g, if_neg (Nat.pos_iff_ne_zero.mp hg)]
  simp only [Bool.true_eq_false, if_false, hsub]
  split
  case isTrue hz =>
    refine ⟨_, rfl, fun g' => ?_, rfl, rfl⟩
    by_cases hg' : g' = g
    · rw [hg', AList.lookup_erase, Function.update_self, if_pos (by omega)]
    · rw [AList.lookup_erase_ne hg', Function.update_of_ne hg']
      exact h g'
  case isFalse hz =>
    refine ⟨_, rfl, fun g' => ?_, rfl, rfl⟩
    by_cases hg' : g' = g
    · rw [hg', AList.lookup_insert, Function.update_self, if_neg (by omega)]
    · rw [AList.lookup_insert_ne hg', Function.update_of_ne hg']
      exact h g'

theorem foldl_saturatingAddI32 (l : List Int) (hl : ∀ v ∈ l, 0 ≤ v) {a : Int} (ha : 0 ≤ a)
    (hsum : a + l.sum ≤ i32Max) : l.foldl saturatingAddI32 a = a + l.sum := by
  induction l generalizing a with
  | nil => simp
  | cons v l ih =>
    have hv := hl v List.mem_cons_self
    have hl' : ∀ v' ∈ l, 0 ≤ v' := fun v' hv' => hl v' (List.mem_cons_of_mem v hv')
    have hpos : 0 ≤ l.sum := List.sum_nonneg hl'
    rw [List.sum_cons] at hsum
    rw [List.foldl_cons, saturatingAddI32_of_le (by omega) (by omega),
      ih hl' (by omega) (by omega), List.sum_cons, add_assoc]

/-- The counts add up to the snapshots that are held, over any generations
that have all of them. -/
theorem snapshotCount_eq (h : Counts state out) (gens : Finset Int)
    (hgens : ∀ g, 0 < out g → g ∈ gens) (hmax : ((∑ g ∈ gens, out g : Nat) : Int) ≤ i32Max) :
    state.snapshotCount = ((∑ g ∈ gens, out g : Nat) : Int) := by
  have hvals : state.refCounts.entries.map Sigma.snd =
      state.refCounts.keys.map fun g => (out g : Int) := by
    rw [AList.keys, List.keys, List.map_map]
    refine List.map_congr_left fun e he => ?_
    have hlook := h e.1
    rw [(AList.mem_lookup_iff (s := state.refCounts)).mpr he] at hlook
    split at hlook
    · cases hlook
    · exact Option.some.inj hlook
  have hkeys : state.refCounts.keys.toFinset ⊆ gens := by
    intro g hg
    rw [List.mem_toFinset, ← AList.mem_keys, h.mem_iff] at hg
    exact hgens g hg
  have hsum : (state.refCounts.keys.map fun g => (out g : Int)).sum =
      ((∑ g ∈ gens, out g : Nat) : Int) := by
    rw [← List.sum_toFinset _ state.refCounts.keys_nodup, Nat.cast_sum]
    refine Finset.sum_subset hkeys fun g _ hg => ?_
    rw [List.mem_toFinset, ← AList.mem_keys, h.mem_iff] at hg
    simp only [not_lt, Nat.le_zero] at hg
    rw [hg]
    rfl
  rw [snapshotCount, hvals, foldl_saturatingAddI32 _ ?_ le_rfl (by rw [zero_add, hsum]; exact hmax),
    zero_add, hsum]
  simp

end SnapshotState

end LuceneRust.Index
