import LuceneRust.Util.Sorter.RadixAccess

/-!
# MSB radix sort

`msbRadixSort_spec`: `msb_radix_sort` leaves the range in the order of the keys,
given a fallback that does so for ranges whose keys agree on the bytes in front.

The reordering counts: an entry that is not at its place yet leaves room in its
bucket (`Reordering.room`), so no exchange leaves the range.
-/

namespace LuceneRust.Util.Sorter

open RustSem StateHoare Rearrange SliceView RadixAccess

variable {σ α : Type} {t : RadixTarget σ} {maxLength lo hi : Nat}
  {acc : RadixAccess t α maxLength lo hi} {a b k : Nat} {s : σ} {v w : Nat → α}

/-! ## The buckets of a range -/

theorem bucket_lt (acc : RadixAccess t α maxLength lo hi) (v : Nat → α) (k x : Nat) :
    acc.bucket v k x < radixHistogramSize := bucketAt_lt _ _

theorem sumBelow_succ (h : Histogram) (c : Nat) : sumBelow h (c + 1) = sumBelow h c + h c := rfl

theorem sumBelow_mono {h : Histogram} {c c' : Nat} (hle : c ≤ c') :
    sumBelow h c ≤ sumBelow h c' := by
  induction c', hle using Nat.le_induction with
  | base => exact Nat.le_refl _
  | succ n _ ih => exact Nat.le_trans ih (Nat.le_add_right _ _)

theorem sumBelow_le (h h' : Histogram) {n : Nat} (hle : ∀ c, c < n → h c ≤ h' c) :
    sumBelow h n ≤ sumBelow h' n := by
  induction n with
  | zero => exact Nat.le_refl _
  | succ n ih => exact Nat.add_le_add (ih fun c hc => hle c (by omega)) (hle n (Nat.lt_succ_self n))

theorem sumBelow_incr_of_le (h : Histogram) {c n : Nat} (hle : n ≤ c) :
    sumBelow (h.incr c) n = sumBelow h n := by
  induction n with
  | zero => rfl
  | succ n ih =>
    unfold sumBelow
    rw [ih (by omega)]
    unfold Histogram.incr Histogram.set
    rw [if_neg (by omega)]

theorem sumBelow_incr (h : Histogram) {c n : Nat} (hlt : c < n) :
    sumBelow (h.incr c) n = sumBelow h n + 1 := by
  induction n, hlt using Nat.le_induction with
  | base =>
    unfold sumBelow
    rw [sumBelow_incr_of_le h (Nat.le_refl c)]
    unfold Histogram.incr Histogram.set
    rw [if_pos rfl]
    omega
  | succ n hcn ih =>
    have hne : n ≠ c := by
      have : c + 1 ≤ n := hcn
      omega
    unfold sumBelow
    rw [ih]
    unfold Histogram.incr Histogram.set
    rw [if_neg hne]
    omega

/-- The sums of the starts and of the ends of the buckets. -/
theorem sumBelow_shift {h : Histogram} (hzero : h 0 = 0) (n : Nat) :
    sumBelow (fun c => h (c + 1)) n = sumBelow h n + h n := by
  induction n with
  | zero =>
    rw [hzero]
    rfl
  | succ n ih =>
    unfold sumBelow
    rw [ih]

theorem sumBelow_bucket {h : Histogram} {x n : Nat} (hx : x < sumBelow h n) :
    ∃ c, c < n ∧ sumBelow h c ≤ x ∧ x < sumBelow h (c + 1) := by
  induction n with
  | zero => exact absurd hx (Nat.not_lt_zero x)
  | succ n ih =>
    rcases Nat.lt_or_ge x (sumBelow h n) with hlt | hge
    · obtain ⟨c, hc, hlow, hhigh⟩ := ih hlt
      exact ⟨c, by omega, hlow, hhigh⟩
    · exact ⟨n, Nat.lt_succ_self n, hge, hx⟩

/-- The sum is the number of the entries in the buckets that are summed up. -/
theorem sumBelow_counts (c : Nat) :
    sumBelow (bucketCounts acc a b k v) c =
      ((Finset.Ico a b).filter fun x => acc.bucket v k x < c).card := by
  induction c with
  | zero =>
    rw [Finset.filter_false_of_mem fun x _ => Nat.not_lt_zero _, Finset.card_empty]
    rfl
  | succ c ih =>
    have hsplit : (Finset.Ico a b).filter (fun x => acc.bucket v k x < c + 1) =
        (Finset.Ico a b).filter (fun x => acc.bucket v k x < c) ∪
          (Finset.Ico a b).filter fun x => acc.bucket v k x = c := by
      rw [← Finset.filter_or]
      apply Finset.filter_congr
      intro x _
      omega
    have hdisjoint : Disjoint ((Finset.Ico a b).filter fun x => acc.bucket v k x < c)
        ((Finset.Ico a b).filter fun x => acc.bucket v k x = c) := by
      apply Finset.disjoint_filter.2
      intro x _ hlt heq
      omega
    rw [hsplit, Finset.card_union_of_disjoint hdisjoint, ← ih]
    rfl

theorem sumBelow_all : sumBelow (bucketCounts acc a b k v) radixHistogramSize = b - a := by
  rw [sumBelow_counts, Finset.filter_true_of_mem fun x _ => bucket_lt acc v k x, Nat.card_Ico]

/-- The buckets stand one behind the other. -/
def Bucketed (acc : RadixAccess t α maxLength lo hi) (a k : Nat) (starts : Histogram)
    (v : Nat → α) : Prop :=
  ∀ c x, c < radixHistogramSize → starts c ≤ x → x < starts (c + 1) → acc.bucket v k (a + x) = c

/-! ## The reordering -/

/-- The buckets are filled up to `histogram`, which has not passed their ends. -/
structure Reordering (acc : RadixAccess t α maxLength lo hi) (a k : Nat)
    (starts histogram : Histogram) (v : Nat → α) : Prop where
  low : ∀ c, starts c ≤ histogram c
  high : ∀ c, c < radixHistogramSize → histogram c ≤ starts (c + 1)
  placed : ∀ c x, c < radixHistogramSize → starts c ≤ x → x < histogram c →
    acc.bucket v k (a + x) = c

section Reorder

variable {histogram : Histogram} {i : Nat}

/-- Two places in different buckets. -/
theorem bucket_apart {counts : Histogram} {c c' x : Nat} (hlow : sumBelow counts c ≤ x)
    (hhigh : x < sumBelow counts (c + 1)) (hlow' : sumBelow counts c' ≤ x)
    (hhigh' : x < sumBelow counts (c' + 1)) : c = c' := by
  rcases Nat.lt_trichotomy c c' with hlt | heq | hgt
  · have : sumBelow counts (c + 1) ≤ sumBelow counts c' := sumBelow_mono hlt
    omega
  · exact heq
  · have : sumBelow counts (c' + 1) ≤ sumBelow counts c := sumBelow_mono hgt
    omega

/-- The bucket of an entry that is not at its place has room. -/
theorem Reordering.room
    (h : Reordering acc a k (sumBelow (bucketCounts acc a b k v)) histogram v)
    (hi' : i < radixHistogramSize)
    (hlt : histogram i < sumBelow (bucketCounts acc a b k v) (i + 1)) :
    histogram (acc.bucket v k (a + histogram i)) <
      sumBelow (bucketCounts acc a b k v) (acc.bucket v k (a + histogram i) + 1) := by
  have hend : sumBelow (bucketCounts acc a b k v) radixHistogramSize = b - a := sumBelow_all
  have hall : ∀ c, c ≤ radixHistogramSize → sumBelow (bucketCounts acc a b k v) c ≤ b - a := by
    intro c hc
    rw [← hend]
    exact sumBelow_mono hc
  generalize hc : acc.bucket v k (a + histogram i) = c
  have hc' : c < radixHistogramSize := hc ▸ bucket_lt acc v k _
  by_contra hfull
  -- otherwise the bucket would be full without this entry
  have hsubset : Finset.Ico (a + sumBelow (bucketCounts acc a b k v) c)
      (a + sumBelow (bucketCounts acc a b k v) (c + 1)) ⊆ acc.inBucket a b k v c := by
    intro x hx
    rw [Finset.mem_Ico] at hx
    have hend := hall (c + 1) (by omega)
    have hx' := h.placed c (x - a) hc' (by omega) (by omega)
    rw [show a + (x - a) = x by omega] at hx'
    unfold inBucket
    rw [Finset.mem_filter, Finset.mem_Ico]
    exact ⟨by omega, hx'⟩
  have hcard : (acc.inBucket a b k v c).card ≤
      (Finset.Ico (a + sumBelow (bucketCounts acc a b k v) c)
        (a + sumBelow (bucketCounts acc a b k v) (c + 1))).card := by
    rw [Nat.card_Ico]
    rw [sumBelow_succ]
    change bucketCounts acc a b k v c ≤ _
    omega
  have heq := Finset.eq_of_subset_of_card_le hsubset hcard
  have hmem : a + histogram i ∈ acc.inBucket a b k v c := by
    have hend := hall (i + 1) (by omega)
    unfold inBucket
    rw [Finset.mem_filter, Finset.mem_Ico]
    exact ⟨by omega, hc⟩
  rw [← heq, Finset.mem_Ico] at hmem
  have hrange : sumBelow (bucketCounts acc a b k v) c ≤ histogram i ∧
      histogram i < sumBelow (bucketCounts acc a b k v) (c + 1) := by omega
  have := bucket_apart (h.low i) hlt hrange.1 hrange.2
  rw [this] at hlt
  exact hfull hlt

/-- An entry goes to its bucket. -/
theorem Reordering.step {counts : Histogram} (h : Reordering acc a k (sumBelow counts) histogram v)
    (hlt : histogram i < sumBelow counts (i + 1))
    (hroom : histogram (acc.bucket v k (a + histogram i)) <
      sumBelow counts (acc.bucket v k (a + histogram i) + 1)) :
    Reordering acc a k (sumBelow counts) (histogram.incr (acc.bucket v k (a + histogram i)))
      (swapAt v (a + histogram i) (a + histogram (acc.bucket v k (a + histogram i)))) := by
  generalize hc : acc.bucket v k (a + histogram i) = c at hroom ⊢
  have hc' : c < radixHistogramSize := hc ▸ bucket_lt acc v k _
  constructor
  · intro c₁
    have := h.low c₁
    unfold Histogram.incr Histogram.set
    split
    next heq =>
      rw [heq] at this ⊢
      omega
    next => exact this
  · intro c₁ hc₁
    have := h.high c₁ hc₁
    unfold Histogram.incr Histogram.set
    split
    next heq =>
      rw [heq]
      exact hroom
    next => exact this
  · intro c₁ x hc₁ hlow hx
    have hbucket : ∀ y, y = a + x → acc.bucket (swapAt v (a + histogram i) (a + histogram c)) k y =
        bucketAt (acc.key (swapAt v (a + histogram i) (a + histogram c) y)) k := fun _ _ => rfl
    rw [hbucket _ rfl]
    have hlowc := h.low c
    have hlowi := h.low i
    by_cases hnew : x = histogram c
    · rw [hnew, swapAt_right]
      change acc.bucket v k (a + histogram i) = c₁
      rw [hc]
      rw [hnew] at hx hlow
      unfold Histogram.incr Histogram.set at hx
      split at hx
      next heq => exact heq.symm
      next hne =>
        have := h.high c₁ hc₁
        exact bucket_apart hlowc hroom hlow (by omega)
    · have hold : x < histogram c₁ := by
        unfold Histogram.incr Histogram.set at hx
        split at hx
        next heq =>
          rw [heq]
          omega
        next => exact hx
      have hne : x ≠ histogram i := by
        intro heq
        have hhigh := h.high c₁ hc₁
        have := bucket_apart hlow (by omega) (by omega : sumBelow counts i ≤ x) (by omega)
        rw [this] at hold
        omega
      rw [swapAt_of_ne (by omega) (by omega)]
      exact h.placed c₁ x hc₁ hlow hold

end Reorder

/-- One exchange of the reordering, or the bucket is full. -/
theorem reorderPass_spec {i : Nat} (histogram : Histogram) (ha : lo ≤ a) (hb : b ≤ hi)
    (hk : k < max maxLength 1) (hi' : i < radixHistogramSize) (hv : acc.At v s)
    (h : Reordering acc a k (sumBelow (bucketCounts acc a b k v)) histogram v) :
    Yields (reorderPass t a k i (sumBelow (bucketCounts acc a b k v) (i + 1)) histogram) s
      fun r s' => match r with
        | .inl histogram' =>
          (∃ c, c < radixHistogramSize ∧ histogram' = histogram.incr c) ∧
            acc.Leaves a b v
              (Reordering acc a k (sumBelow (bucketCounts acc a b k v)) histogram') s'
        | .inr histogram' => histogram' = histogram ∧ acc.At v s' ∧
            histogram i = sumBelow (bucketCounts acc a b k v) (i + 1) := by
  have hend : sumBelow (bucketCounts acc a b k v) radixHistogramSize = b - a := sumBelow_all
  have hall : ∀ c, c ≤ radixHistogramSize → sumBelow (bucketCounts acc a b k v) c ≤ b - a := by
    intro c hc
    rw [← hend]
    exact sumBelow_mono hc
  unfold reorderPass
  dsimp only
  split
  next hlt =>
    have hend := hall (i + 1) (by omega)
    apply (hv.byteAt (i := a + histogram i) (by omega) hk).bind
    intro byte s₁ ⟨hs₁, hbyte⟩
    rw [hbyte]
    apply (bucketOf_spec _ k s₁).bind
    intro c s₂ ⟨hs₂, hc⟩
    change c = acc.bucket v k (a + histogram i) at hc
    have hc' : c < radixHistogramSize := hc ▸ bucket_lt acc v k _
    have hroom := h.room hi' hlt
    have hend' := hall (c + 1) (by omega)
    rw [hs₂]
    rw [← hc] at hroom
    apply (hs₁.exchange (i := a + histogram i) (j := a + histogram c) (by omega) (by omega)).bind
    intro _ s₃ hs₃
    apply Yields.pure
    refine ⟨⟨c, hc', rfl⟩, .intro hs₃ (.swap (by omega) (by omega) v) ?_⟩
    rw [hc] at hroom ⊢
    exact h.step hlt hroom
  next hge =>
    have := h.high i hi'
    exact Yields.pure ⟨rfl, hv, by omega⟩

/-- The reordering fills the buckets that are left. -/
theorem reorder_spec (ha : lo ≤ a) (hab : a ≤ b) (hb : b ≤ hi) (hk : k < max maxLength 1) :
    ∀ (rest : List Nat), (∀ i ∈ rest, i < radixHistogramSize) →
      ∀ histogram s, acc.Leaves a b v
        (Reordering acc a k (sumBelow (bucketCounts acc a b k v)) histogram) s →
      Yields (reorder t a b k (fun c => sumBelow (bucketCounts acc a b k v) (c + 1)) rest histogram)
        s fun histogram' s' => (∀ c, histogram c ≤ histogram' c) ∧
          (∀ i ∈ rest, sumBelow (bucketCounts acc a b k v) (i + 1) ≤ histogram' i) ∧
          acc.Leaves a b v
            (Reordering acc a k (sumBelow (bucketCounts acc a b k v)) histogram') s' := by
  intro rest
  induction rest with
  | nil =>
    intro _ histogram s hs
    exact Yields.pure ⟨fun c => Nat.le_refl _, fun i hi' => absurd hi' List.not_mem_nil, hs⟩
  | cons i rest ih =>
    intro hrest histogram s hs
    have hi' := hrest i List.mem_cons_self
    unfold reorder
    generalize hcounts : bucketCounts acc a b k v = counts at *
    have hloop : Yields (Op.iterate (reorderPass t a k i (sumBelow counts (i + 1))) (b - a + 1)
        histogram) s fun histogram' s' => (∀ c, histogram c ≤ histogram' c) ∧
          sumBelow counts (i + 1) ≤ histogram' i ∧
          acc.Leaves a b v (Reordering acc a k (sumBelow counts) histogram') s' := by
      apply Yields.iterate (I := fun histogram' s' => (∀ c, histogram c ≤ histogram' c) ∧
        acc.Leaves a b v (Reordering acc a k (sumBelow counts) histogram') s')
        (fun histogram' => sumBelow (fun c => sumBelow counts (c + 1)) radixHistogramSize -
          sumBelow histogram' radixHistogramSize)
      · intro histogram' s' ⟨hle, w, hw, hre, hr⟩
        have hsame : bucketCounts acc a b k w = counts := by
          rw [← hcounts]
          exact funext fun c => bucketCounts_rearranged hre c
        have hpass := reorderPass_spec (b := b) (i := i) histogram' ha hb hk hi' hw
          (by rw [hsame]; exact hr)
        rw [hsame] at hpass
        apply hpass.mono
        intro r s'' hr'
        match r, hr' with
        | .inl h', ⟨⟨c, hc, hincr⟩, hleaves⟩ =>
          have hgrow : ∀ c₁, histogram' c₁ ≤ h' c₁ := by
            intro c₁
            rw [hincr]
            unfold Histogram.incr Histogram.set
            split
            next heq =>
              rw [heq]
              omega
            next => exact Nat.le_refl _
          refine ⟨⟨fun c₁ => Nat.le_trans (hle c₁) (hgrow c₁), hleaves.after hre⟩, ?_⟩
          obtain ⟨w', _, _, hr''⟩ := hleaves
          have hbelow := sumBelow_le h' (fun c => sumBelow counts (c + 1)) hr''.high
          rw [hincr, sumBelow_incr _ hc] at hbelow ⊢
          omega
        | .inr h', ⟨heq, hs'', hfull⟩ =>
          rw [heq]
          exact ⟨hle, by omega, w, hs'', hre, hr⟩
      · obtain ⟨w, _, _, hr⟩ := hs
        have hlow := sumBelow_le (sumBelow counts) histogram
          (n := radixHistogramSize) fun c _ => hr.low c
        rw [sumBelow_shift rfl, ← hcounts, sumBelow_all, hcounts]
        omega
      · exact ⟨fun c => Nat.le_refl _, hs⟩
    apply hloop.bind
    intro histogram₁ s₁ ⟨hle₁, hfull₁, hs₁⟩
    apply (ih (fun j hj => hrest j (List.mem_cons_of_mem _ hj)) histogram₁ s₁ hs₁).mono
    intro histogram₂ s₂ ⟨hle₂, hfull₂, hs₂⟩
    refine ⟨fun c => Nat.le_trans (hle₁ c) (hle₂ c), fun j hj => ?_, hs₂⟩
    rcases List.mem_cons.1 hj with rfl | hj'
    · exact Nat.le_trans hfull₁ (hle₂ j)
    · exact hfull₂ j hj'

/-! ## The recursion -/

/-- A program for the range `a..b` whose keys agree on the first `k` bytes. -/
def SortsRange (acc : RadixAccess t α maxLength lo hi) (sort : Nat → Nat → Nat → Run σ Unit) :
    Prop :=
  ∀ {k a b s v}, lo ≤ a → a ≤ b → b ≤ hi → k ≤ maxLength → acc.At v s → acc.Agree a b k v →
    Yields (sort k a b) s fun _ => acc.Leaves a b v fun w => SortedOn a b (acc.keys w)

theorem RadixAccess.Agree.sorted (h : acc.Agree a b maxLength v) : SortedOn a b (acc.keys v) :=
  fun _ _ hx hxy hy =>
    le_of_eq (h.keys_eq (Nat.le_refl _) hx (by omega) (by omega) hy)

/-- More bytes that all keys of a range have in common. -/
theorem AgreeWithFirst.agree {len : Nat} (h : AgreeWithFirst acc a b k len v)
    (hagree : acc.Agree a b k v) : acc.Agree a b (k + len) v := by
  intro x y hx hxb hy hyb j hj
  rcases Nat.lt_or_ge j k with hlt | hge
  · exact hagree x y hx hxb hy hyb j hlt
  · have hx' := h x hx hxb (j - k) (by omega)
    have hy' := h y hy hyb (j - k) (by omega)
    rw [show k + (j - k) = j by omega] at hx' hy'
    rw [hx', hy']

/-- There is nothing left to sort where the keys agree up to their end. -/
theorem AgreeWithFirst.done {len : Nat} {histogram : Histogram} (hab : a < b)
    (h : AgreeWithFirst acc a b k len v) (hlen : 0 < len) (hagree : acc.Agree a b k v)
    (hzero : histogram 0 = if acc.bucket v k a = 0 then b - a else 0)
    (hstop : ¬ (k + len < maxLength ∧ histogram 0 < b - a)) : acc.Agree a b maxLength v := by
  by_cases hend : k + len < maxLength
  · have hfirst : acc.bucket v k a = 0 := by
      by_contra hne
      rw [if_neg hne] at hzero
      omega
    apply hagree.ended
    intro x hx hxb
    rw [← hfirst]
    exact h x hx hxb 0 hlen
  · exact (h.agree hagree).mono (Nat.le_refl a) (Nat.le_refl b) (by omega)

/-- Buckets that are in order make up a range that is. -/
theorem Bucketed.sorted {counts : Histogram} (h : Bucketed acc a k (sumBelow counts) v)
    (hk : k < maxLength) (hall : sumBelow counts radixHistogramSize = b - a)
    (hagree : acc.Agree a b k v)
    (hsorted : ∀ c, c < radixHistogramSize →
      SortedOn (a + sumBelow counts c) (a + sumBelow counts (c + 1)) (acc.keys v)) :
    SortedOn a b (acc.keys v) := by
  intro x y hx hxy hy
  obtain ⟨c, hc, hlow, hhigh⟩ :=
    sumBelow_bucket (h := counts) (x := x - a) (n := radixHistogramSize) (by omega)
  obtain ⟨c', hc', hlow', hhigh'⟩ :=
    sumBelow_bucket (h := counts) (x := y - a) (n := radixHistogramSize) (by omega)
  rcases Nat.lt_trichotomy c c' with hlt | heq | hgt
  · have hcx := h c (x - a) hc hlow hhigh
    have hcy := h c' (y - a) hc' hlow' hhigh'
    rw [show a + (x - a) = x by omega] at hcx
    rw [show a + (y - a) = y by omega] at hcy
    exact hagree.keys_le hk hx (by omega) (by omega) hy (by omega)
  · rw [← heq] at hhigh'
    exact hsorted c hc x y (by omega) hxy (by omega)
  · have : sumBelow counts (c' + 1) ≤ sumBelow counts c := sumBelow_mono hgt
    omega

/-- A change inside one bucket. -/
theorem Bucketed.rearranged {counts : Histogram} {c : Nat}
    (h : Bucketed acc a k (sumBelow counts) v) (hc : c < radixHistogramSize)
    (hre : Rearranged (a + sumBelow counts c) (a + sumBelow counts (c + 1)) v w) :
    Bucketed acc a k (sumBelow counts) w := by
  intro c' x hc' hlow hhigh
  unfold bucket
  by_cases hin : sumBelow counts c ≤ x ∧ x < sumBelow counts (c + 1)
  · have heq := bucket_apart hlow hhigh hin.1 hin.2
    rw [heq]
    apply hre.forall_range (P := fun z => bucketAt (acc.key z) k = c)
    · intro y hy hyb
      have := h c (y - a) hc (by omega) (by omega)
      rwa [show a + (y - a) = y by omega] at this
    · omega
    · omega
  · rw [hre.outside (by omega)]
    exact h c' x hc' hlow hhigh

section Step

variable {fallback : Nat → Nat → Nat → Run σ Unit} {counts histogram : Histogram}

/-- The calls for the buckets, in order. -/
theorem sortBuckets_spec {step : Nat → Nat → Nat → Nat → Run σ Unit} (l : Nat)
    (ha : lo ≤ a) (hab : a ≤ b) (hb : b ≤ hi) (hk : k + 1 < maxLength)
    (hfallback : SortsRange acc fallback)
    (hstep : ∀ {a b s v}, lo ≤ a → a < b → b ≤ hi → acc.At v s → acc.Agree a b (k + 1) v →
      Yields (step a b (k + 1) (l + 1)) s fun _ => acc.Leaves a b v fun w =>
        SortedOn a b (acc.keys w))
    (hall : sumBelow counts radixHistogramSize = b - a)
    (hends : ∀ c, c < radixHistogramSize → histogram c = sumBelow counts (c + 1))
    (hv : acc.At v s) (hagree : acc.Agree a b k v) (h : Bucketed acc a k (sumBelow counts) v) :
    Yields ((List.range' 1 (radixHistogramSize - 1)).forM fun c =>
        let prev := histogram (c - 1)
        let h := histogram c
        if h - prev > 1 then
          msbSortLevel step fallback (a + prev) (a + h) (k + 1) (l + 1)
        else pure ()) s fun _ => acc.Leaves a b v fun w => SortedOn a b (acc.keys w) := by
  have hbound : ∀ c, c < radixHistogramSize → sumBelow counts (c + 1) ≤ b - a := by
    intro c hc
    rw [← hall]
    exact sumBelow_mono hc
  have hcAgree : ∀ c w, c < radixHistogramSize → acc.Agree a b k w →
      Bucketed acc a k (sumBelow counts) w →
      acc.Agree (a + sumBelow counts c) (a + sumBelow counts (c + 1)) (k + 1) w := by
    intro c w hc hw hbucketed
    have := hbound c hc
    apply (hw.mono (by omega) (by omega) (Nat.le_refl k)).succ (c := c)
    intro x hx hxb
    have := hbucketed c (x - a) hc (by omega) (by omega)
    rwa [show a + (x - a) = x by omega] at this
  have hloop := Yields.forM_range' (g := fun c =>
      let prev := histogram (c - 1)
      let h := histogram c
      if h - prev > 1 then
        msbSortLevel step fallback (a + prev) (a + h) (k + 1) (l + 1)
      else pure ())
    (I := fun c => acc.Leaves a b v fun w => Bucketed acc a k (sumBelow counts) w ∧
      ∀ c', c' < c →
        SortedOn (a + sumBelow counts c') (a + sumBelow counts (c' + 1)) (acc.keys w))
    (radixHistogramSize - 1) 1 s ?_ ?_
  · apply hloop.mono
    intro _ s' h'
    apply h'.mono
    intro w hre ⟨hbucketed, hsorted⟩
    exact hbucketed.sorted (by omega) hall (hagree.rearranged hre) hsorted
  · intro c s' hc hc' ⟨w, hw, hre, hbucketed, hsorted⟩
    have hlt : c < radixHistogramSize := by
      unfold radixHistogramSize at hc' ⊢
      omega
    have hprev := hends (c - 1) (by omega)
    rw [show c - 1 + 1 = c by omega] at hprev
    dsimp only
    rw [hprev, hends c hlt]
    have hend := hbound c hlt
    -- the bucket `c` is sorted, and the others stay as they are
    have hdone : ∀ s'', acc.Leaves (a + sumBelow counts c) (a + sumBelow counts (c + 1)) w
        (fun w' => SortedOn (a + sumBelow counts c) (a + sumBelow counts (c + 1)) (acc.keys w')) s'' →
        acc.Leaves a b v (fun w' => Bucketed acc a k (sumBelow counts) w' ∧ ∀ c', c' < c + 1 →
          SortedOn (a + sumBelow counts c') (a + sumBelow counts (c' + 1)) (acc.keys w')) s'' := by
      intro s'' ⟨w', hw', hre', hsorted'⟩
      refine ⟨w', hw', hre.trans (hre'.mono (by omega) (by omega)),
        hbucketed.rearranged hlt hre', fun c' hc' => ?_⟩
      rcases Nat.eq_or_lt_of_le (Nat.le_of_lt_succ hc') with rfl | hlt'
      · exact hsorted'
      · apply (hsorted c' hlt').congr
        intro x hx hxb
        have : sumBelow counts (c' + 1) ≤ sumBelow counts c := sumBelow_mono hlt'
        unfold keys
        rw [hre'.outside (by omega)]
    split
    next hlong =>
      unfold msbSortLevel
      split
      · exact (hfallback (by omega) (by omega) (by omega) (by omega) hw
          (hcAgree c w hlt (hagree.rearranged hre) hbucketed)).mono fun _ s'' h' => hdone s'' h'
      · exact (hstep (by omega) (by omega) (by omega) hw
          (hcAgree c w hlt (hagree.rearranged hre) hbucketed)).mono fun _ s'' h' => hdone s'' h'
    next hshort =>
      apply Yields.pure
      exact hdone s' (hw.leaves (SortedOn.of_short _ (by omega)))
  · apply hv.leaves
    refine ⟨h, fun c' hc' => ?_⟩
    have hc0 : c' = 0 := by omega
    have := hbound 0 (by decide)
    rw [hc0]
    intro x y hx hxy hy
    apply le_of_eq
    have hended : acc.Agree (a + sumBelow counts 0) (a + sumBelow counts (0 + 1)) maxLength v := by
      apply RadixAccess.Agree.ended (k := k)
      · exact hagree.mono (by omega) (by omega) (Nat.le_refl k)
      · intro z hz hzb
        have := h 0 (z - a) (by decide) (by omega) (by omega)
        rwa [show a + (z - a) = z by omega] at this
    exact hended.keys_eq (Nat.le_refl _) hx (by omega) (by omega) hy

theorem msbRadixStep_spec (hfallback : SortsRange acc fallback) :
    ∀ (fuel a b k l : Nat) (s : σ) (v : Nat → α), maxLength - k < fuel → k < maxLength →
      lo ≤ a → a < b → b ≤ hi → acc.At v s → acc.Agree a b k v →
      Yields (msbRadixStep t maxLength fallback fuel a b k l) s fun _ =>
        acc.Leaves a b v fun w => SortedOn a b (acc.keys w) := by
  intro fuel
  induction fuel with
  | zero => exact fun a b k l s v hfuel => absurd hfuel (Nat.not_lt_zero _)
  | succ fuel ih =>
    intro a b k l s v hfuel hk ha hab hb hv hagree
    unfold msbRadixStep
    apply (prefixAndHistogram_spec true ha hb hab hk hv).bind
    intro ⟨common, counts⟩ s₁ ⟨hs₁, hfound⟩
    dsimp only
    rcases hfound with ⟨hpos, hend, hfirst, hzero⟩ | ⟨hnone, hcounts⟩
    · rw [if_pos hpos]
      split
      next hgo =>
        exact ih a b (k + common) l s₁ v (by omega) hgo.1 ha hab hb hs₁ (hfirst.agree hagree)
      next hstop =>
        apply Yields.pure
        exact hs₁.leaves (hfirst.done hab hpos hagree hzero hstop).sorted
    · dsimp only at hnone hcounts
      rw [if_neg (by omega)]
      have heq : counts = bucketCounts acc a b k v := funext hcounts
      rw [heq]
      have hstart : Reordering acc a k (sumBelow (bucketCounts acc a b k v))
          (sumBelow (bucketCounts acc a b k v)) v :=
        ⟨fun c => Nat.le_refl _, fun c _ => Nat.le_add_right _ _, fun c x _ hlow hhigh => by omega⟩
      apply (reorder_spec ha (by omega) hb (by omega) (List.range radixHistogramSize)
        (fun i hi' => List.mem_range.1 hi') _ s₁ (hs₁.leaves hstart)).bind
      intro histogram s₂ ⟨_, hfull, w, hw, hre, hr⟩
      have hends : ∀ c, c < radixHistogramSize →
          histogram c = sumBelow (bucketCounts acc a b k v) (c + 1) := fun c hc =>
        Nat.le_antisymm (hr.high c hc) (hfull c (List.mem_range.2 hc))
      have hbucketed : Bucketed acc a k (sumBelow (bucketCounts acc a b k v)) w := by
        intro c x hc hlow hhigh
        exact hr.placed c x hc hlow (by rw [hends c hc]; exact hhigh)
      have hagree' := hagree.rearranged hre
      have hall : sumBelow (bucketCounts acc a b k v) radixHistogramSize = b - a := sumBelow_all
      split
      next hmore =>
        apply (sortBuckets_spec l ha (by omega) hb hmore hfallback ?_ hall hends hw hagree' hbucketed).mono
        · exact fun _ s₃ h => h.after hre
        · intro a' b' s' v' ha' hab' hb' hv' hagree''
          exact ih a' b' (k + 1) (l + 1) s' v' (by omega) hmore ha' hab' hb' hv' hagree''
      next hlast =>
        apply Yields.pure
        refine ⟨w, hw, hre, hbucketed.sorted hk hall hagree' fun c hc => ?_⟩
        have hcend : sumBelow (bucketCounts acc a b k v) (c + 1) ≤ b - a := by
          rw [← hall]
          exact sumBelow_mono hc
        apply RadixAccess.Agree.sorted
        apply RadixAccess.Agree.mono (k := k + 1) _ (Nat.le_refl _) (Nat.le_refl _) (by omega)
        apply (hagree'.mono (by omega) (by omega) (Nat.le_refl k)).succ (c := c)
        intro x hx hxb
        have := hbucketed c (x - a) hc (by omega) (by omega)
        rwa [show a + (x - a) = x by omega] at this

/-- `msb_radix_sort` leaves the range in order. -/
theorem msbRadixSort_spec (hfallback : SortsRange acc fallback) (ha : lo ≤ a) (hab : a ≤ b)
    (hb : b ≤ hi) (hlen : 0 < maxLength ∨ b - a ≤ radixLengthThreshold) (hv : acc.At v s) :
    Yields (msbRadixSort t maxLength a b fallback) s fun _ =>
      acc.Leaves a b v fun w => SortedOn a b (acc.keys w) := by
  unfold msbRadixSort msbSortLevel
  rw [if_pos hab]
  split
  · exact hfallback ha hab hb (Nat.zero_le _) hv (.zero acc a b v)
  next hlong =>
    unfold radixLengthThreshold at hlong hlen
    exact msbRadixStep_spec hfallback (maxLength + 1) a b 0 0 s v (by omega) (by omega) ha (by omega)
      hb hv (.zero acc a b v)

end Step

end LuceneRust.Util.Sorter
