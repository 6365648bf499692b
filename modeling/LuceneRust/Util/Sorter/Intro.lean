import LuceneRust.Lib.StateHoare
import LuceneRust.Util.SplittableRandom

/-!
# `lucene_util::sorter`: sorting and selecting by comparisons

`insertion_sort`, `heap_sort`, `intro_sort` and `intro_select`, which see the
entries through the hooks of a target only.  A range `from..to` is `lo` and `hi`
here.

The positions are those of a slice, so the casts between `usize` and `i64` keep
them.  The casts to `i32` in the shuffle of `intro_select` are modelled.
-/

namespace LuceneRust.Util.Sorter

open RustSem StateHoare

variable {σ : Type}

/-- A program over a target with the state `σ`. -/
abbrev Run (σ α : Type) := Op Empty σ α

/-- `IntroTarget`: the hooks of a target with the state `σ`. -/
structure IntroTarget (σ : Type) where
  swap : Nat → Nat → Run σ Unit
  setPivot : Nat → Run σ Unit
  comparePivot : Nat → Run σ Int
  compare : Nat → Nat → Run σ Int

/-- The default body of `compare`. -/
def defaultCompare (setPivot : Nat → Run σ Unit) (comparePivot : Nat → Run σ Int) (i j : Nat) :
    Run σ Int := do
  setPivot i
  comparePivot j

/-- `INSERTION_SORT_THRESHOLD`. -/
def insertionSortThreshold : Nat := 16

/-- `SINGLE_MEDIAN_THRESHOLD`. -/
def singleMedianThreshold : Nat := 40

/-- `log2`. -/
def log2 (x : Nat) : Nat := if x = 0 then 0 else Nat.log2 x

variable (t : IntroTarget σ)

/-! ## Insertion sort -/

/-- The inner loop of `insertion_sort`, with `current` as the argument. -/
def sink (lo : Nat) : Nat → Run σ Unit
  | 0 => Op.lift .panic
  | previous + 1 => do
    let c ← t.compare previous (previous + 1)
    if 0 < c then do
      t.swap previous (previous + 1)
      if previous = lo then pure () else sink lo previous
    else pure ()

/-- `insertion_sort`. -/
def insertionSort (lo hi : Nat) : Run σ Unit :=
  (List.range' (lo + 1) (hi - (lo + 1))).forM fun i => sink t lo i

/-! ## Heap sort -/

/-- `heap_parent`. -/
def heapParent (lo i : Nat) : Nat := (i - 1 - lo) / 2 + lo

/-- `heap_child`. -/
def heapChild (lo i : Nat) : Nat := (i - lo) * 2 + 1 + lo

/-- `right < to && t.compare(i, right) < 0`. -/
def lessThanRight (i right hi : Nat) : Run σ Bool :=
  if right < hi then do
    let c ← t.compare i right
    pure (decide (c < 0))
  else pure false

/-- The loop body of `sift_down`. -/
def siftPass (lo hi i : Nat) : Run σ (Nat ⊕ Unit) := do
  let left := heapChild lo i
  if left < hi then do
    let right := left + 1
    let c ← t.compare i left
    if c < 0 then do
      let less ← lessThanRight t left right hi
      if less then do
        t.swap i right
        pure (.inl right)
      else do
        t.swap i left
        pure (.inl left)
    else do
      let less ← lessThanRight t i right hi
      if less then do
        t.swap i right
        pure (.inl right)
      else pure (.inr ())
  else pure (.inr ())

/-- `sift_down`. -/
def siftDown (i lo hi : Nat) : Run σ Unit := Op.iterate (siftPass t lo hi) (hi + 1) i

/-- `heap_sort`. -/
def heapSort (lo hi : Nat) : Run σ Unit :=
  if hi - lo ≤ 1 then pure ()
  else do
    (List.range' lo (heapParent lo (hi - 1) + 1 - lo)).reverse.forM fun i => siftDown t i lo hi
    (List.range' (lo + 1) (hi - 1 - lo)).reverse.forM fun last => do
      t.swap lo last
      siftDown t lo lo last

/-! ## Intro sort -/

/-- `median`. -/
def median (i j k : Nat) : Run σ Nat := do
  let c ← t.compare i j
  if c < 0 then do
    let c ← t.compare j k
    if c ≤ 0 then pure j
    else do
      let c ← t.compare i k
      pure (if c < 0 then k else i)
  else do
    let c ← t.compare j k
    if 0 ≤ c then pure j
    else do
      let c ← t.compare i k
      pure (if c < 0 then i else k)

/-- The first inner loop of `three_way_partition`: the next place whose entry the
pivot does not exceed, and the comparison. -/
def scanUpPass (i : Nat) : Run σ (Nat ⊕ (Nat × Int)) := do
  let i := i + 1
  let leftCmp ← t.comparePivot i
  pure (if leftCmp ≤ 0 then .inr (i, leftCmp) else .inl i)

/-- The second inner loop, with `j` as the argument. -/
def scanDown : Nat → Run σ (Nat × Int)
  | 0 => Op.lift .panic
  | j + 1 => do
    let rightCmp ← t.comparePivot j
    if 0 ≤ rightCmp then pure (j, rightCmp) else scanDown j

/-- The cursors of `three_way_partition`. -/
structure Cursors where
  i : Nat
  j : Nat
  p : Nat
  q : Nat

/-- The loop body of `three_way_partition`. -/
def partitionPass (hi : Nat) (c : Cursors) : Run σ (Cursors ⊕ Cursors) := do
  let (i, leftCmp) ← Op.iterate (scanUpPass t) hi c.i
  let (j, rightCmp) ← scanDown t c.j
  if j ≤ i then do
    Op.when (i = j ∧ rightCmp = 0) (t.swap i c.p)
    pure (.inr { c with i, j })
  else do
    t.swap i j
    Op.when (rightCmp = 0) (t.swap i c.p)
    Op.when (leftCmp = 0) (t.swap j c.q)
    pure (.inl {
      i, j
      p := if rightCmp = 0 then c.p + 1 else c.p
      q := if leftCmp = 0 then c.q - 1 else c.q })

/-- `three_way_partition`. -/
def threeWayPartition (lo hi pivot : Nat) : Run σ (Int × Int) := do
  let last := hi - 1
  t.setPivot pivot
  t.swap lo pivot
  let c ← Op.iterate (partitionPass t hi) (hi + 1) { i := lo, j := hi, p := lo + 1, q := last }
  -- the entries equal to the pivot go from the two ends to the middle
  (List.range (c.p - lo)).forM fun n => t.swap (lo + n) (c.j - n)
  (List.range (last - c.q)).forM fun n => t.swap (last - n) (c.j + 1 + n)
  pure (c.j - (c.p - lo : Nat), c.j + 1 + (last - c.q : Nat))

/-- The medians of three parts of a range of more than `SINGLE_MEDIAN_THRESHOLD`
entries. -/
def medians (lo hi : Nat) : Run σ (Nat × Nat × Nat) := do
  let last := hi - 1
  let mid := (lo + last) / 2
  let range := (hi - lo) / 8
  let doubleRange := range * 2
  let first ← median t lo (lo + range) (lo + doubleRange)
  let middle ← median t (mid - range) mid (mid + range)
  let lastM ← median t (last - doubleRange) (last - range) last
  pure (first, middle, lastM)

/-- The median of a range of at most `SINGLE_MEDIAN_THRESHOLD` entries. -/
def singleMedian (lo hi : Nat) : Run σ Nat :=
  let mid := (lo + (hi - 1)) / 2
  let range := (hi - lo) / 4
  median t (mid - range) mid (mid + range)

/-- The pivot of `intro_sort_depth`. -/
def sortPivot (lo hi : Nat) : Run σ Nat :=
  if hi - lo ≤ singleMedianThreshold then singleMedian t lo hi
  else do
    let (first, middle, lastM) ← medians t lo hi
    median t first middle lastM

/-- `intro_sort_depth`: the loop continues as the last call, and the argument is
`max_depth`. -/
def introSortDepth : Nat → Nat → Nat → Run σ Unit
  | maxDepth, lo, hi =>
    if hi - lo > insertionSortThreshold then
      match maxDepth with
      | 0 => heapSort t lo hi
      | maxDepth + 1 => do
        let last := hi - 1
        let pivot ← sortPivot t lo hi
        let (j, i) ← threeWayPartition t lo hi pivot
        if j - lo < last - i then do
          introSortDepth maxDepth lo (j + 1).toNat
          introSortDepth maxDepth i.toNat hi
        else do
          introSortDepth maxDepth i.toNat hi
          introSortDepth maxDepth lo (j + 1).toNat
    else insertionSort t lo hi

/-- `intro_sort`. -/
def introSort (lo hi : Nat) : Run σ Unit :=
  if lo ≤ hi then introSortDepth t (2 * log2 (hi - lo)) lo hi else Op.lift .panic

/-! ## Intro select -/

/-- `min3`. -/
def min3 (i j k : Nat) : Run σ Nat := do
  let c ← t.compare i j
  if c ≤ 0 then do
    let c ← t.compare i k
    pure (if c ≤ 0 then i else k)
  else do
    let c ← t.compare j k
    pure (if c ≤ 0 then j else k)

/-- `max3`. -/
def max3 (i j k : Nat) : Run σ Nat := do
  let c ← t.compare i j
  if c ≤ 0 then do
    let c ← t.compare j k
    pure (if c < 0 then k else j)
  else do
    let c ← t.compare i k
    pure (if c < 0 then k else i)

/-- `sort3`. -/
def sort3 (lo : Nat) : Run σ Unit := do
  let mid := lo + 1
  let last := lo + 2
  let c ← t.compare lo mid
  if c ≤ 0 then do
    let c ← t.compare mid last
    if 0 < c then do
      t.swap mid last
      let c ← t.compare lo mid
      if 0 < c then t.swap lo mid else pure ()
    else pure ()
  else do
    let c ← t.compare mid last
    if 0 ≤ c then t.swap lo last
    else do
      t.swap lo mid
      let c ← t.compare mid last
      if 0 < c then t.swap mid last else pure ()

/-- The shuffle of `intro_select_depth`, with `i` as the argument.  The drawn
`i32` is sign-extended by the cast to `usize`. -/
def shuffle (lo : Nat) : Nat → SplittableRandom → Run σ SplittableRandom
  | 0, random => pure random
  | i + 1, random =>
    if lo < i + 1 then do
      let (r, random) ← Op.lift
        (random.nextIntRange (BitVec.ofNat 32 lo) (BitVec.ofNat 32 (i + 1) + 1))
      t.swap (i + 1) (r.signExtend 64).toNat
      shuffle lo i random
    else pure random

/-- The check for a spent budget in the loop of `intro_select_depth`. -/
def shuffleIfSpent (maxDepth : Int) (lo hi : Nat) (random : SplittableRandom) :
    Run σ SplittableRandom :=
  if maxDepth = -1 then shuffle t lo (hi - 1) random else pure random

/-- The pivot of `intro_select_depth`. -/
def selectPivot (lo hi k : Nat) : Run σ Nat :=
  if hi - lo ≤ singleMedianThreshold then singleMedian t lo hi
  else do
    let range := (hi - lo) / 8
    let (first, middle, lastM) ← medians t lo hi
    if k - lo < range then min3 t first middle lastM
    else if hi - k ≤ range then max3 t first middle lastM
    else median t first middle lastM

/-- The variables of the loop of `intro_select_depth`. -/
structure Selecting where
  lo : Nat
  hi : Nat
  maxDepth : Int
  random : SplittableRandom

/-- What follows the loop of `intro_select_depth`. -/
def selectShort (lo hi : Nat) : Run σ Unit :=
  if hi - lo = 2 then do
    let c ← t.compare lo (lo + 1)
    if 0 < c then t.swap lo (lo + 1) else pure ()
  else if hi - lo = 3 then sort3 t lo
  else pure ()

/-- The loop body of `intro_select_depth`, and what follows the loop. -/
def selectPass (k : Nat) (c : Selecting) : Run σ (Selecting ⊕ SplittableRandom) := do
  if c.hi - c.lo > 3 then do
    let maxDepth := c.maxDepth - 1
    let random ← shuffleIfSpent t maxDepth c.lo c.hi c.random
    let pivot ← selectPivot t c.lo c.hi k
    let (j, i) ← threeWayPartition t c.lo c.hi pivot
    pure (
      if (k : Int) ≤ j then .inl { c with hi := (j + 1).toNat, maxDepth, random }
      else if i ≤ (k : Int) then .inl { c with lo := i.toNat, maxDepth, random }
      else .inr random)
  else do
    selectShort t c.lo c.hi
    pure (.inr c.random)

/-- `intro_select`.  It returns the generator that it was lent. -/
def introSelect (lo hi k : Nat) (random : SplittableRandom) : Run σ SplittableRandom :=
  if lo ≤ k ∧ k < hi then
    Op.iterate (selectPass t k) (hi + 1) { lo, hi, maxDepth := 2 * log2 (hi - lo), random }
  else Op.lift .panic

end LuceneRust.Util.Sorter
