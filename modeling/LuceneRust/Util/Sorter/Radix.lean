import LuceneRust.RustSem.Bytes
import LuceneRust.Util.Sorter.Intro

/-!
# `lucene_util::sorter`: sorting and selecting by the bytes of keys

`radix_select` and `msb_radix_sort`, over a target that shows the bytes of its
keys, with -1 past the end of a key.  The fallback is a parameter, as in the
source.

A histogram is the function of its 257 indices; `bucketOf` panics at another one.
The recursion counts down from `max_length`: a call that does not get further in
the keys would end in a panic.
-/

namespace LuceneRust.Util.Sorter

open RustSem StateHoare

variable {σ : Type}

/-- `RadixTarget`: the hooks of a target with the state `σ`. -/
structure RadixTarget (σ : Type) where
  swap : Nat → Nat → Run σ Unit
  byteAt : Nat → Nat → Run σ Int

/-- `RADIX_LEVEL_THRESHOLD`. -/
def radixLevelThreshold : Nat := 8

/-- `RADIX_HISTOGRAM_SIZE`. -/
def radixHistogramSize : Nat := 257

/-- `RADIX_LENGTH_THRESHOLD`. -/
def radixLengthThreshold : Nat := 100

/-- A histogram, with an entry for each byte and one for the end of a key. -/
abbrev Histogram := Nat → Nat

/-- The histogram with one entry replaced. -/
def Histogram.set (h : Histogram) (b n : Nat) : Histogram := fun c => if c = b then n else h c

/-- The histogram with one entry counted up. -/
def Histogram.incr (h : Histogram) (b : Nat) : Histogram := h.set b (h b + 1)

/-- `(byte + 1) as usize`, as an index of a histogram. -/
def bucketOf (byte : Int) : Run σ Nat :=
  if 0 ≤ byte + 1 ∧ byte + 1 < radixHistogramSize then pure (byte + 1).toNat else Op.lift .panic

variable (t : RadixTarget σ)

/-! ## The common prefix and the histogram -/

/-- The loop that fills `common_prefix`, for the `n` bytes from `j` on. -/
def readCommon (lo k : Nat) : Nat → Nat → Run σ (List Int)
  | 0, _ => pure []
  | n + 1, j => do
    let b ← t.byteAt lo (k + j)
    if b = -1 then pure [b]
    else do
      let rest ← readCommon lo k n (j + 1)
      pure (b :: rest)

/-- The loop that compares the entry `i` with the rest of `common_prefix` from `j`
on: where it differs, and the byte there. -/
def mismatch (i k : Nat) : List Int → Nat → Run σ (Option (Nat × Int))
  | [], _ => pure none
  | c :: rest, j => do
    let b ← t.byteAt i (k + j)
    if b ≠ c then pure (some (j, b)) else mismatch i k rest (j + 1)

/-- The loop over the entries, of which `n` are left: `len`, `i`, and the byte that
has brought `len` to 0. -/
def compareEntries (k : Nat) : Nat → Nat → List Int → Run σ (Nat × Nat × Option Int)
  | 0, i, common => pure (common.length, i, none)
  | n + 1, i, common => do
    let found ← mismatch t i k common 0
    match found with
    | none => compareEntries k n (i + 1) common
    | some (0, b) => pure (0, i, some b)
    | some (j + 1, _) => compareEntries k n (i + 1) (common.take (j + 1))

/-- The loop that counts the `n` entries from `x` on. -/
def countBytes (k : Nat) : Nat → Nat → Histogram → Run σ Histogram
  | 0, _, histogram => pure histogram
  | n + 1, x, histogram => do
    let b ← t.byteAt x k
    let b ← bucketOf b
    countBytes k n (x + 1) (histogram.incr b)

/-- `prefix_and_histogram`, on a histogram of zeros. -/
def prefixAndHistogram (maxLength lo hi k : Nat) (msbStyle : Bool) : Run σ (Nat × Histogram) := do
  let cap := min maxLength 24
  let common ← readCommon t lo k (min cap (maxLength - k)) 0
  let (len, i, stop) ← compareEntries t k (hi - (lo + 1)) (lo + 1) common
  let first ← bucketOf (common.headD 0)
  let zeros : Histogram := fun _ => 0
  match stop with
  | none => pure (len, zeros.set first (hi - lo))
  | some b =>
    if msbStyle then do
      let histogram ← countBytes t k (hi - i) i (zeros.set first (i - lo))
      pure (len, histogram)
    else do
      let b ← bucketOf b
      let histogram ← countBytes t k (hi - (i + 1)) (i + 1) ((zeros.set first (i - lo)).set b 1)
      pure (len, histogram)

/-! ## Radix select -/

/-- The loop over the histogram: the bucket that `k` falls into, and its range. -/
def findBucket (histogram : Histogram) (k : Nat) : List Nat → Nat → Option (Nat × Nat × Nat)
  | [], _ => none
  | bucket :: rest, bucketFrom =>
    let bucketTo := bucketFrom + histogram bucket
    if k < bucketTo then some (bucket, bucketFrom, bucketTo)
    else findBucket histogram k rest bucketTo

/-- The first inner loop of `radix_partition`. -/
def leftPass (bucket bucketFrom d : Nat) (c : Nat × Nat × Int) :
    Run σ ((Nat × Nat × Int) ⊕ (Nat × Nat × Int)) :=
  let (left, slot, leftBucket) := c
  if leftBucket ≤ bucket ∧ left < bucketFrom then
    if leftBucket = bucket then do
      t.swap left slot
      let b ← t.byteAt left d
      pure (.inl (left, slot + 1, b + 1))
    else do
      let b ← t.byteAt (left + 1) d
      pure (.inl (left + 1, slot, b + 1))
  else pure (.inr (left, slot, leftBucket))

/-- The second inner loop of `radix_partition`. -/
def rightPass (bucket bucketTo d : Nat) (c : Nat × Nat × Int) :
    Run σ ((Nat × Nat × Int) ⊕ (Nat × Nat × Int)) :=
  let (right, slot, rightBucket) := c
  if rightBucket ≥ bucket ∧ right ≥ bucketTo then
    if rightBucket = bucket then do
      t.swap right slot
      let b ← t.byteAt right d
      pure (.inl (right, slot + 1, b + 1))
    else do
      let b ← t.byteAt (right - 1) d
      pure (.inl (right - 1, slot, b + 1))
  else pure (.inr (right, slot, rightBucket))

/-- The loop body of `radix_partition`, with `left`, `right` and `slot`. -/
def radixPartitionPass (hi bucket bucketFrom bucketTo d : Nat) (c : Nat × Nat × Nat) :
    Run σ ((Nat × Nat × Nat) ⊕ Unit) := do
  let (left, right, slot) := c
  let leftByte ← t.byteAt left d
  let rightByte ← t.byteAt right d
  let (left, slot, _) ←
    Op.iterate (leftPass t bucket bucketFrom d) (hi + 1) (left, slot, leftByte + 1)
  let (right, slot, _) ←
    Op.iterate (rightPass t bucket bucketTo d) (hi + 1) (right, slot, rightByte + 1)
  if left < bucketFrom ∧ right ≥ bucketTo then do
    t.swap left right
    pure (.inl (left + 1, right - 1, slot))
  else pure (.inr ())

/-- `radix_partition`. -/
def radixPartition (lo hi bucket bucketFrom bucketTo d : Nat) : Run σ Unit :=
  Op.iterate (radixPartitionPass t hi bucket bucketFrom bucketTo d) (hi + 1)
    (lo, hi - 1, bucketFrom)

/-- `radix_select_level`, with what it calls for a long range and for a short one. -/
def radixSelectLevel (step fallback : Nat → Nat → Nat → Nat → Run σ Unit) (lo hi k d l : Nat) :
    Run σ Unit :=
  if hi - lo ≤ radixLengthThreshold ∨ radixLevelThreshold ≤ l then fallback d lo hi k
  else step lo hi d l

/-- `radix_select_step`. -/
def radixSelectStep (maxLength k : Nat) (fallback : Nat → Nat → Nat → Nat → Run σ Unit) :
    Nat → Nat → Nat → Nat → Nat → Run σ Unit
  | 0, _, _, _, _ => Op.lift .panic
  | fuel + 1, lo, hi, d, l => do
    let (common, histogram) ← prefixAndHistogram t maxLength lo hi d false
    if 0 < common then
      if d + common < maxLength ∧ histogram 0 < hi - lo then
        radixSelectStep maxLength k fallback fuel lo hi (d + common) l
      else pure ()
    else
      match findBucket histogram k (List.range radixHistogramSize) lo with
      | none => Op.lift .panic
      | some (bucket, bucketFrom, bucketTo) => do
        radixPartition t lo hi bucket bucketFrom bucketTo d
        if bucket ≠ 0 ∧ d + 1 < maxLength then
          radixSelectLevel (radixSelectStep maxLength k fallback fuel) fallback
            bucketFrom bucketTo k (d + 1) (l + 1)
        else pure ()

/-- `radix_select`. -/
def radixSelect (maxLength lo hi k : Nat) (fallback : Nat → Nat → Nat → Nat → Run σ Unit) :
    Run σ Unit :=
  if lo ≤ k ∧ k < hi then
    radixSelectLevel (radixSelectStep t maxLength k fallback (maxLength + 1)) fallback lo hi k 0 0
  else Op.lift .panic

/-! ## MSB radix sort -/

/-- `accum` in front of the bucket `b`, in the loop that sums up the histogram. -/
def sumBelow (histogram : Histogram) : Nat → Nat
  | 0 => 0
  | b + 1 => sumBelow histogram b + histogram b

/-- The inner loop of the reordering, for the bucket `i`. -/
def reorderPass (lo k i limit : Nat) (histogram : Histogram) : Run σ (Histogram ⊕ Histogram) :=
  let h1 := histogram i
  if h1 < limit then do
    let b ← t.byteAt (lo + h1) k
    let b ← bucketOf b
    let h2 := histogram b
    t.swap (lo + h1) (lo + h2)
    pure (.inl (histogram.incr b))
  else pure (.inr histogram)

/-- The reordering, for the buckets that are left. -/
def reorder (lo hi k : Nat) (endOffsets : Histogram) : List Nat → Histogram → Run σ Histogram
  | [], histogram => pure histogram
  | i :: rest, histogram => do
    let histogram ← Op.iterate (reorderPass t lo k i (endOffsets i)) (hi - lo + 1) histogram
    reorder lo hi k endOffsets rest histogram

/-- `msb_sort_level`, with what it calls for a long range and for a short one. -/
def msbSortLevel (step : Nat → Nat → Nat → Nat → Run σ Unit)
    (fallback : Nat → Nat → Nat → Run σ Unit) (lo hi k l : Nat) : Run σ Unit :=
  if hi - lo ≤ radixLengthThreshold ∨ radixLevelThreshold ≤ l then fallback k lo hi
  else step lo hi k l

/-- `msb_radix_step`. -/
def msbRadixStep (maxLength : Nat) (fallback : Nat → Nat → Nat → Run σ Unit) :
    Nat → Nat → Nat → Nat → Nat → Run σ Unit
  | 0, _, _, _, _ => Op.lift .panic
  | fuel + 1, lo, hi, k, l => do
    let (common, counts) ← prefixAndHistogram t maxLength lo hi k true
    if 0 < common then
      if k + common < maxLength ∧ counts 0 < hi - lo then
        msbRadixStep maxLength fallback fuel lo hi (k + common) l
      else pure ()
    else do
      let histogram ← reorder t lo hi k (fun b => sumBelow counts (b + 1))
        (List.range radixHistogramSize) (sumBelow counts)
      if k + 1 < maxLength then
        (List.range' 1 (radixHistogramSize - 1)).forM fun b =>
          let prev := histogram (b - 1)
          let h := histogram b
          if h - prev > 1 then
            msbSortLevel (msbRadixStep maxLength fallback fuel) fallback (lo + prev) (lo + h)
              (k + 1) (l + 1)
          else pure ()
      else pure ()

/-- `msb_radix_sort`. -/
def msbRadixSort (maxLength lo hi : Nat) (fallback : Nat → Nat → Nat → Run σ Unit) : Run σ Unit :=
  if lo ≤ hi then
    msbSortLevel (msbRadixStep t maxLength fallback (maxLength + 1)) fallback lo hi 0 0
  else Op.lift .panic

end LuceneRust.Util.Sorter
