import LuceneRust.RustSem.F64
import LuceneRust.Store.SliceInput
import Mathlib.Data.List.Sort

/-!
# `lucene_index::merge_policy`

The decisions of `TieredMergePolicy`: which segments are merged next.  The
`i64` arithmetic saturates, and an `f64` is a `Float`.

At the end stand the loops of the `IndexWriter` that ask the policy until it
proposes nothing.  What a merge leaves in the place of its group is an
argument: the name and the size of the merged segment.
-/

namespace LuceneRust.Index.MergePolicy

open RustSem
open Store (Result)

/-! ## Saturating `i64` -/

/-- `i64::MAX`. -/
def i64Max : Int := 2 ^ 63 - 1

/-- `i64::MIN`. -/
def i64Min : Int := -2 ^ 63

/-- A number as near as an `i64` gets to it. -/
def clampI64 (n : Int) : Int := max i64Min (min n i64Max)

/-- `saturating_add`. -/
def saturatingAdd (a b : Int) : Int := clampI64 (a + b)

/-- `saturating_sub`. -/
def saturatingSub (a b : Int) : Int := clampI64 (a - b)

/-- `i64::try_from(n).unwrap_or(i64::MAX)`. -/
def toI64 (n : Nat) : Int := min n i64Max

/-- `checked_add` is above the bound, or has no result. -/
def exceeds (a b bound : Int) : Bool :=
  decide (a + b < i64Min) || decide (i64Max < a + b) || decide (bound < a + b)

/-! ## Segments -/

/-- `SegmentStat`. -/
structure SegmentStat where
  name : String
  docCount : Int
  delCount : Int
  sizeBytes : U64
  deriving DecidableEq, Repr

/-- `SegmentStat::del_ratio`. -/
def SegmentStat.delRatio (stat : SegmentStat) : Float :=
  if stat.docCount ≤ 0 then 0.0 else f64OfInt stat.delCount / f64OfInt stat.docCount

/-- `prorated_size`. -/
def proratedSize (stat : SegmentStat) : Nat :=
  if stat.docCount ≤ 0 then stat.sizeBytes.toNat
  else f64ToU64 (f64OfInt stat.sizeBytes.toNat * (1.0 - stat.delRatio))

/-- `MergePolicyConfig`, the fields that the decisions read. -/
structure MergePolicyConfig where
  maxMergeAtOnce : Nat
  segmentsPerTier : Float
  maxMergedSegmentSize : U64
  reclaimWeight : Float
  floorSegmentSize : U64
  forceMergeDeletesPctAllowed : Float
  deletesPctAllowed : Float
  targetSearchConcurrency : Nat

/-- `MergePolicyConfig::default`. -/
def MergePolicyConfig.default : MergePolicyConfig where
  maxMergeAtOnce := 10
  segmentsPerTier := 8.0
  maxMergedSegmentSize := BitVec.ofNat 64 (5 * 1024 * 1024 * 1024)
  reclaimWeight := 2.0
  floorSegmentSize := BitVec.ofNat 64 (16 * 1024 * 1024)
  forceMergeDeletesPctAllowed := 10.0
  deletesPctAllowed := 20.0
  targetSearchConcurrency := 1

/-- `segs_per_tier`. -/
def MergePolicyConfig.segsPerTier (config : MergePolicyConfig) : Float :=
  f64Max config.segmentsPerTier 2.0

/-- `merge_factor`. -/
def MergePolicyConfig.mergeFactor (config : MergePolicyConfig) : Nat :=
  max (min config.maxMergeAtOnce (f64ToU64 config.segsPerTier)) 1

/-- `floor_size`. -/
def floorSize (bytes : Nat) (floorSegmentSize : U64) : Nat := max bytes floorSegmentSize.toNat

/-- `max_allowed_docs`. -/
def maxAllowedDocs (totalMaxDoc totalDelDocs : Int) (targetSearchConcurrency : Nat) : Int :=
  let concurrency := max (toI64 targetSearchConcurrency) 1
  let live := saturatingSub totalMaxDoc totalDelDocs
  live / concurrency + if live % concurrency ≠ 0 then 1 else 0

/-- `pct_deletes`. -/
def pctDeletes (stat : SegmentStat) : Float := stat.delRatio * 100.0

/-- `SegmentSizeAndDocs`. -/
structure SegmentSizeAndDocs where
  stat : SegmentStat
  sizeInBytes : Nat
  deriving DecidableEq, Repr

namespace SegmentSizeAndDocs

/-- `name`. -/
def name (entry : SegmentSizeAndDocs) : String := entry.stat.name

/-- `del_count`. -/
def delCount (entry : SegmentSizeAndDocs) : Int := entry.stat.delCount

/-- `max_doc`. -/
def maxDoc (entry : SegmentSizeAndDocs) : Int := entry.stat.docCount

/-- `raw_size_in_bytes`. -/
def rawSizeInBytes (entry : SegmentSizeAndDocs) : Nat := entry.stat.sizeBytes.toNat

/-- `size_i64`. -/
def sizeI64 (entry : SegmentSizeAndDocs) : Int := toI64 entry.sizeInBytes

/-- `raw_size_i64`. -/
def rawSizeI64 (entry : SegmentSizeAndDocs) : Int := toI64 entry.rawSizeInBytes

/-- `live_doc_count`. -/
def liveDocCount (entry : SegmentSizeAndDocs) : Int := entry.maxDoc - entry.delCount

/-- A segment with its size. -/
def of (stat : SegmentStat) : SegmentSizeAndDocs := ⟨stat, proratedSize stat⟩

/-- The order of `sorted_by_segment_size`: the largest first, then by name. -/
def le (a b : SegmentSizeAndDocs) : Bool :=
  decide (b.sizeInBytes < a.sizeInBytes) ||
    (decide (a.sizeInBytes = b.sizeInBytes) && decide (a.name ≤ b.name))

end SegmentSizeAndDocs

/-- `sorted_by_segment_size`. -/
def sortedBySegmentSize (segments : List SegmentStat) : List SegmentSizeAndDocs :=
  (segments.map SegmentSizeAndDocs.of).insertionSort fun a b => a.le b

/-! ## `do_find_merges` -/

/-- `MergeType`. -/
inductive MergeType where
  | natural
  | forceMergeDeletes
  deriving DecidableEq, Repr

/-- `MergeBudget`. -/
structure MergeBudget where
  mergeFactor : Nat
  allowedSegCount : Int
  allowedDelCount : Int
  allowedDocCount : Int
  mergeType : MergeType
  maxMergeIsRunning : Bool

/-- `merge_score`. -/
def mergeScore (candidate : List SegmentSizeAndDocs) (hitTooLarge : Bool)
    (config : MergePolicyConfig) : Float :=
  let totAfter := candidate.foldl (fun t e => t + f64OfInt e.sizeInBytes) 0.0
  let totAfterFloored := candidate.foldl
    (fun t e => t + f64OfInt (floorSize e.sizeInBytes config.floorSegmentSize)) 0.0
  let totBefore := candidate.foldl (fun t e => t + f64OfInt e.rawSizeInBytes) 0.0
  let skew :=
    if hitTooLarge then 1.0 / f64OfInt config.mergeFactor
    else if totAfterFloored > 0.0 then
      f64OfInt (floorSize ((candidate.map (·.sizeInBytes)).headD 0) config.floorSegmentSize)
        / totAfterFloored
    else 1.0
  let nonDelRatio := if totBefore > 0.0 then totAfter / totBefore else 1.0
  skew * totAfter.pow 0.05 * nonDelRatio.pow config.reclaimWeight

/-- A candidate merge: its segments, their bytes and documents, and whether a
segment did not fit. -/
structure Candidate where
  segments : List SegmentSizeAndDocs := []
  bytes : Int := 0
  docs : Int := 0
  hitTooLarge : Bool := false

section

variable (config : MergePolicyConfig) (budget : MergeBudget)

/-- The `while` loop over the segments from the start of a candidate on. -/
def packCandidate : List SegmentSizeAndDocs → Candidate → Candidate
  | [], c => c
  | entry :: rest, c =>
    let maxMerged := toI64 config.maxMergedSegmentSize.toNat
    let floor := toI64 config.floorSegmentSize.toNat
    if c.segments.length < config.maxMergeAtOnce
        ∧ (c.segments.length < budget.mergeFactor ∨ c.bytes < floor)
        ∧ c.bytes < maxMerged
        ∧ (c.bytes < floor ∨ c.docs ≤ budget.allowedDocCount) then
      let wouldExceedBytes := exceeds c.bytes entry.sizeI64 maxMerged
      let wouldExceedDocs := exceeds c.docs entry.liveDocCount budget.allowedDocCount
      let tooLarge := wouldExceedBytes || (decide (floor < c.bytes) && wouldExceedDocs)
      let c := if tooLarge then { c with hitTooLarge := c.hitTooLarge || wouldExceedBytes } else c
      if tooLarge ∧ c.segments ≠ [] then packCandidate rest c
      else packCandidate rest { c with
        segments := c.segments ++ [entry]
        bytes := saturatingAdd c.bytes entry.sizeI64
        docs := saturatingAdd c.docs entry.liveDocCount }
    else c

/-- `best`, `best_score` and `best_too_large`. -/
structure Best where
  segments : Option (List SegmentSizeAndDocs)
  score : Float
  tooLarge : Bool

/-- The `for` loop over the starts of a candidate. -/
def bestCandidate (remaining : List SegmentSizeAndDocs) : List Nat → Best → Best
  | [], best => best
  | start :: starts, best =>
    let c := packCandidate config budget (remaining.drop start) {}
    match c.segments with
    | [] => bestCandidate remaining starts best
    | biggest :: others =>
      if !c.hitTooLarge ∧ budget.mergeType = .natural
          ∧ f64OfInt c.bytes < f64OfInt biggest.sizeInBytes * 1.5
          ∧ f64OfInt biggest.delCount <
            f64OfInt biggest.maxDoc * config.deletesPctAllowed / 100.0 then
        bestCandidate remaining starts best
      else if others = [] ∧ biggest.delCount = 0 then bestCandidate remaining starts best
      else if best.segments.isSome ∧ !c.hitTooLarge ∧ c.segments.length < budget.mergeFactor then
        best
      else
        let score := mergeScore c.segments c.hitTooLarge config
        if (best.segments.isNone ∨ score < best.score)
            ∧ (!c.hitTooLarge ∨ !budget.maxMergeIsRunning) then
          bestCandidate remaining starts ⟨some c.segments, score, c.hitTooLarge⟩
        else bestCandidate remaining starts best

/-- The state of the outer loop: `spec`, `to_be_merged`,
`have_one_large_merge` and `remaining`. -/
structure Search where
  spec : List (List String)
  toBeMerged : List String
  haveOneLargeMerge : Bool
  remaining : List SegmentSizeAndDocs

/-- A turn of the outer loop. -/
def searchPass (s : Search) : Result (Search ⊕ List (List String)) :=
  let remaining := s.remaining.filter fun e => e.name ∉ s.toBeMerged
  if remaining = [] then .ok (.inr s.spec)
  else
    let remainingDelCount := remaining.foldl (fun acc e => saturatingAdd acc e.delCount) 0
    if budget.mergeType = .natural ∧ (remaining.length : Int) ≤ budget.allowedSegCount
        ∧ remainingDelCount ≤ budget.allowedDelCount then
      .ok (.inr s.spec)
    else
      let best := bestCandidate config budget remaining (List.range remaining.length)
        ⟨none, 1.0 / 0.0, false⟩
      match best.segments with
      | none => .ok (.inr s.spec)
      | some segments =>
        let names := segments.map (·.name)
        let propose := !s.haveOneLargeMerge || !best.tooLarge
          || budget.mergeType = .forceMergeDeletes
        .ok (.inl {
          spec := if propose then s.spec ++ [names] else s.spec
          toBeMerged := s.toBeMerged ++ names
          haveOneLargeMerge := s.haveOneLargeMerge || (propose && best.tooLarge)
          remaining })

/-- `do_find_merges`. -/
def doFindMerges (sortedEligible : List SegmentSizeAndDocs) : Result (List (List String)) :=
  iterate (searchPass config budget) (sortedEligible.length + 1) ⟨[], [], false, sortedEligible⟩

end

/-! ## `find_merges` -/

/-- The accumulators of the first step of `find_merges_excluding`. -/
structure Totals where
  indexBytes : Int
  minSegmentBytes : Nat
  delDocs : Int
  maxDoc : Int
  mergingBytes : Nat
  kept : List SegmentSizeAndDocs

/-- The first step, for a segment. -/
def Totals.add (merging : List String) (t : Totals) (entry : SegmentSizeAndDocs) : Totals :=
  let t :=
    if entry.name ∈ merging then
      { t with
        mergingBytes := min (t.mergingBytes + entry.sizeInBytes) (2 ^ 64 - 1)
        maxDoc := saturatingAdd t.maxDoc entry.liveDocCount }
    else
      { t with
        delDocs := saturatingAdd t.delDocs entry.delCount
        maxDoc := saturatingAdd t.maxDoc entry.maxDoc
        kept := t.kept ++ [entry] }
  { t with
    minSegmentBytes := min t.minSegmentBytes entry.sizeInBytes
    indexBytes := saturatingAdd t.indexBytes entry.sizeI64 }

/-- The accumulators of the second step. -/
structure Eligible where
  tooBigCount : Int
  concurrencyCount : Int
  allowedSegCount : Float
  indexBytes : Int
  allowedDelCount : Int
  eligible : List SegmentSizeAndDocs

/-- The second step, for a segment. -/
def Eligible.add (config : MergePolicyConfig) (totalDelPct : Float) (targetConcurrency : Int)
    (s : Eligible) (entry : SegmentSizeAndDocs) : Eligible :=
  let segDelPct :=
    if 0 < entry.maxDoc then 100.0 * f64OfInt entry.delCount / f64OfInt entry.maxDoc else 0.0
  if config.maxMergedSegmentSize.toNat / 2 < entry.sizeInBytes
      ∧ (totalDelPct ≤ config.deletesPctAllowed ∨ segDelPct ≤ config.deletesPctAllowed) then
    { s with
      tooBigCount := s.tooBigCount + 1
      indexBytes := saturatingSub s.indexBytes entry.sizeI64
      allowedDelCount := saturatingSub s.allowedDelCount entry.delCount }
  else
    let s :=
      if s.concurrencyCount + s.tooBigCount < targetConcurrency - 1 then
        { s with
          concurrencyCount := s.concurrencyCount + 1
          allowedSegCount := s.allowedSegCount + 1.0
          indexBytes := saturatingSub s.indexBytes entry.sizeI64 }
      else s
    { s with eligible := s.eligible ++ [entry] }

/-- A turn of the level walk: `allowed_seg_count`, `bytes_left` and
`level_size`. -/
def levelPass (config : MergePolicyConfig) (s : Float × Int × Nat) :
    Result ((Float × Int × Nat) ⊕ Float) :=
  let (allowed, bytesLeft, levelSize) := s
  let segsPerTier := config.segsPerTier
  let segCountLevel := f64OfInt bytesLeft / f64OfInt levelSize
  if segCountLevel < segsPerTier ∨ levelSize = config.maxMergedSegmentSize.toNat then
    .ok (.inr (allowed + segCountLevel.ceil))
  else
    .ok (.inl (allowed + segsPerTier,
      saturatingSub bytesLeft (f64ToI64 (segsPerTier * f64OfInt levelSize)),
      min config.maxMergedSegmentSize.toNat (min (levelSize * config.mergeFactor) (2 ^ 64 - 1))))

/-- `find_merges_excluding`. -/
def findMergesExcluding (segments : List SegmentStat) (merging : List String)
    (config : MergePolicyConfig) : Result (List (List String)) := do
  let t := (sortedBySegmentSize segments).foldl (Totals.add merging)
    ⟨0, 2 ^ 64 - 1, 0, 0, 0, []⟩
  if t.kept = [] then .ok []
  else
    let totalDelPct :=
      if 0 < t.maxDoc then 100.0 * f64OfInt t.delDocs / f64OfInt t.maxDoc else 0.0
    let allowedDelCount := f64ToI64 (config.deletesPctAllowed * f64OfInt t.maxDoc / 100.0)
    let targetConcurrency := max (toI64 config.targetSearchConcurrency) 1
    let e := t.kept.foldl (Eligible.add config totalDelPct targetConcurrency)
      ⟨0, 0, 0.0, t.indexBytes, allowedDelCount, []⟩
    let levelSize := max (max t.minSegmentBytes config.floorSegmentSize.toNat) 1
    let allowedSegCount ← iterate (levelPass config) (e.indexBytes.toNat + 1)
      (e.allowedSegCount, e.indexBytes, levelSize)
    let allowedSegCount := f64Max allowedSegCount config.segsPerTier
    let allowedSegCount :=
      f64Max allowedSegCount (f64OfInt (saturatingSub targetConcurrency e.tooBigCount))
    doFindMerges config {
      mergeFactor := config.mergeFactor
      allowedSegCount := f64ToI64 allowedSegCount
      allowedDelCount := max e.allowedDelCount 0
      allowedDocCount := maxAllowedDocs t.maxDoc t.delDocs config.targetSearchConcurrency
      mergeType := .natural
      maxMergeIsRunning := config.maxMergedSegmentSize.toNat ≤ t.mergingBytes } e.eligible

/-- `find_merges`. -/
def findMerges (config : MergePolicyConfig) (segments : List SegmentStat) :
    Result (List (List String)) :=
  findMergesExcluding segments [] config

/-! ## `find_forced_delete_merges` -/

/-- `find_forced_delete_merges_excluding`. -/
def findForcedDeleteMergesExcluding (segments : List SegmentStat) (merging : List String)
    (config : MergePolicyConfig) : Result (List (List String)) :=
  let totalDelCount := segments.foldl (fun acc s => saturatingAdd acc s.delCount) 0
  let totalMaxDoc := segments.foldl (fun acc s => saturatingAdd acc s.docCount) 0
  if segments.any fun s =>
      decide (config.forceMergeDeletesPctAllowed < pctDeletes s) && decide (s.name ∉ merging) then
    doFindMerges config {
      mergeFactor := 2 ^ 64 - 1
      allowedSegCount := i64Max
      allowedDelCount := 0
      allowedDocCount := maxAllowedDocs totalMaxDoc totalDelCount config.targetSearchConcurrency
      mergeType := .forceMergeDeletes
      maxMergeIsRunning := false }
      ((sortedBySegmentSize segments).filter fun entry =>
        decide (entry.name ∉ merging)
          && decide (config.forceMergeDeletesPctAllowed < pctDeletes entry.stat))
  else .ok []

/-- `find_forced_delete_merges`. -/
def findForcedDeleteMerges (config : MergePolicyConfig) (segments : List SegmentStat) :
    Result (List (List String)) :=
  findForcedDeleteMergesExcluding segments [] config

/-! ## `find_forced_merges` -/

/-- `UNLIMITED_SEGMENT_COUNT`. -/
def unlimitedSegmentCount : Nat := 2 ^ 64 - 1

/-- `total_merge_bytes`, of the segments to merge. -/
def totalMergeBytes (sorted : List SegmentSizeAndDocs) : Int :=
  sorted.foldl (fun acc e => saturatingAdd acc e.sizeI64) 0

/-- `max_merge_bytes`, of the segments to merge. -/
def maxMergeBytes (sorted : List SegmentSizeAndDocs) (maxSegmentCount : Nat)
    (config : MergePolicyConfig) : Int :=
  let maxMergedSegmentSize := toI64 config.maxMergedSegmentSize.toNat
  if maxSegmentCount = 1 then i64Max
  else if maxSegmentCount ≠ unlimitedSegmentCount then
    let divisor := max (toI64 maxSegmentCount) 1
    let bytes := max ((totalMergeBytes sorted).tdiv divisor) maxMergedSegmentSize
    f64ToI64 (f64OfInt bytes * 1.25)
  else maxMergedSegmentSize

/-- The segments that a forced merge looks at. -/
def forcedCandidates (sorted : List SegmentSizeAndDocs) (segmentsToMerge : String → Option Bool)
    (maxSegmentCount : Nat) (maxBytes : Int) : List SegmentSizeAndDocs :=
  sorted.filter fun entry =>
    if entry.delCount ≠ 0 then true
    else if maxSegmentCount = unlimitedSegmentCount ∧ segmentsToMerge entry.name = some false then
      false
    else !(decide (maxSegmentCount ≠ unlimitedSegmentCount) && decide (maxBytes ≤ entry.sizeI64))

/-- The inner `while` loop: the next bin, off the segments from the smallest
on.  The result is the bin, the segments that are left and
`resulting_segments`. -/
def fillBin (maxSegmentCount : Nat) (maxBytes : Int) :
    List SegmentSizeAndDocs → List String → Int → Nat →
      List String × List SegmentSizeAndDocs × Nat
  | [], candidate, _, resulting => (candidate, [], resulting)
  | current :: rest, candidate, bytes, resulting =>
    if maxSegmentCount < resulting then
      if !exceeds bytes current.rawSizeI64 maxBytes ∨ candidate.length < 2 then
        fillBin maxSegmentCount maxBytes rest (candidate ++ [current.name])
          (saturatingAdd bytes current.rawSizeI64)
          (if 0 < candidate.length then resulting - 1 else resulting)
      else (candidate, current :: rest, resulting)
    else (candidate, current :: rest, resulting)

/-- A turn of the outer loop: the segments that are left,
`resulting_segments` and `spec`. -/
def binPass (maxSegmentCount : Nat) (maxBytes : Int)
    (s : List SegmentSizeAndDocs × Nat × List (List String)) :
    Result ((List SegmentSizeAndDocs × Nat × List (List String)) ⊕ List (List String)) :=
  let (segments, resulting, spec) := s
  let (candidate, rest, resulting) := fillBin maxSegmentCount maxBytes segments [] 0 resulting
  if 1 < candidate.length then .ok (.inl (rest, resulting, spec ++ [candidate]))
  else .ok (.inr spec)

/-- `forced_merges_full`. -/
def forcedMergesFull (segments : List SegmentStat) (maxSegmentCount : Nat)
    (segmentsToMerge : String → Option Bool) (merging : List String)
    (isMerged : String → Result Bool) (config : MergePolicyConfig) :
    Result (List (List String)) := do
  let maxSegmentCount := max maxSegmentCount 1
  let wanted := (sortedBySegmentSize segments).filter fun e => (segmentsToMerge e.name).isSome
  let forceMergeRunning := wanted.any fun e => e.name ∈ merging
  let sorted := wanted.filter fun e => e.name ∉ merging
  if sorted = [] then .ok []
  else
    let maxBytes := maxMergeBytes sorted maxSegmentCount config
    let foundDeletes := sorted.any fun e =>
      decide (e.delCount ≠ 0) && decide (segmentsToMerge e.name = some true)
    match forcedCandidates sorted segmentsToMerge maxSegmentCount maxBytes with
    | [] => .ok []
    | first :: others =>
      let alreadyMerged ←
        if foundDeletes then .ok false
        else if maxSegmentCount ≠ unlimitedSegmentCount ∧ 1 < maxSegmentCount
            ∧ others.length + 1 ≤ maxSegmentCount then .ok true
        else if maxSegmentCount = 1 ∧ others = [] then
          if (segmentsToMerge first.name).isSome then .ok true else isMerged first.name
        else .ok false
      if alreadyMerged then .ok []
      else if forceMergeRunning then .ok []
      else if maxSegmentCount = 1 ∧ totalMergeBytes sorted < maxBytes then
        .ok [(first :: others).map (·.name)]
      else
        iterate (binPass maxSegmentCount maxBytes) (others.length + 2)
          ((first :: others).reverse, others.length + 1, [])

/-- `find_forced_merges`. -/
def findForcedMerges (maxSegmentCount : Nat) (config : MergePolicyConfig)
    (segments : List SegmentStat) : Result (List (List String)) :=
  forcedMergesFull segments maxSegmentCount
    (fun name => if segments.any (·.name = name) then some true else none) []
    (fun name => .ok (segments.any fun s => decide (s.name = name) && decide (s.delCount = 0)))
    config

/-! ## The loops of the `IndexWriter` -/

/-- The order of the keys of `split_by`. -/
def keyLt : Option String → Option String → Bool
  | none, some _ => true
  | some a, some b => decide (a < b)
  | _, none => false

/-- `parts.entry(key).or_default().push(item)`. -/
def addToPart (key : Option String) (item : SegmentStat) :
    List (Option String × List SegmentStat) → List (Option String × List SegmentStat)
  | [] => [(key, [item])]
  | (k, part) :: parts =>
    if key = k then (k, part ++ [item]) :: parts
    else if keyLt key k then (key, [item]) :: (k, part) :: parts
    else (k, part) :: addToPart key item parts

/-- `split_by`. -/
def splitBy (items : List SegmentStat) (key : SegmentStat → Option String) :
    List (List SegmentStat) :=
  (items.foldl (fun parts item => addToPart (key item) item parts) []).map (·.2)

/-- The segments that `find` is asked about together: all of them, or those of
a partition. -/
def partitionsOf (partition : Option (String → Option String)) (stats : List SegmentStat) :
    List (List SegmentStat) :=
  match partition with
  | none => [stats]
  | some partitions => splitBy stats fun s => partitions s.name

/-- `per_partition_stats`. -/
def perPartitionStats (partition : Option (String → Option String))
    (find : List SegmentStat → Result (List (List String))) (stats : List SegmentStat) :
    Result (List (List String)) :=
  (partitionsOf partition stats).foldlM (fun out part => do
    let groups ← find part
    .ok (out ++ groups)) []

/-- A merge of a group, `execute_merge`: one segment of the live documents
replaces the group, if there are any.  `merged` names the segments and sizes
them, in the order of the merges.  The policy sorts the segments, so that the
new one is simply the last of the list. -/
def executeMerge (merged : Nat → String × U64) (s : Nat × List SegmentStat) (group : List String) :
    Nat × List SegmentStat :=
  let (count, segments) := s
  let liveDocs := ((segments.filter (·.name ∈ group)).map fun s => s.docCount - s.delCount).sum
  let others := segments.filter (·.name ∉ group)
  (count + 1,
    if 0 < liveDocs then others ++ [⟨(merged count).1, liveDocs, 0, (merged count).2⟩] else others)

/-- A turn of `auto_merge` and of `run_forced_merges`. -/
def mergeRound (partition : Option (String → Option String))
    (find : List SegmentStat → Result (List (List String))) (merged : Nat → String × U64)
    (s : Nat × List SegmentStat) :
    Result ((Nat × List SegmentStat) ⊕ (Nat × List SegmentStat)) := do
  let groups ← perPartitionStats partition find s.2
  if groups = [] then .ok (.inr s) else .ok (.inl (groups.foldl (executeMerge merged) s))

/-- `run_forced_merges`, which is the loop of `auto_merge` too: the number of
merges and the segments at the end. -/
def runMerges (partition : Option (String → Option String))
    (find : List SegmentStat → Result (List (List String))) (merged : Nat → String × U64)
    (fuel : Nat) (segments : List SegmentStat) : Result (Nat × List SegmentStat) :=
  iterate (mergeRound partition find merged) fuel (0, segments)

end LuceneRust.Index.MergePolicy
