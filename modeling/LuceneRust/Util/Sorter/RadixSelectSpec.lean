import LuceneRust.Util.Sorter.IntroSpec
import LuceneRust.Util.Sorter.RadixSortSpec

/-!
# Radix select

`radixSelect_spec`: `radix_select` leaves at `k` what the order of the keys puts
there, given a fallback that does so for ranges whose keys agree on the bytes in
front.

The partition counts too: as many entries belong in front of the bucket as there
are places, so neither of its cursors leaves the range.
-/

namespace LuceneRust.Util.Sorter

open RustSem StateHoare Rearrange SliceView RadixAccess

variable {σ α : Type} {t : RadixTarget σ} {maxLength lo hi : Nat}
  {acc : RadixAccess t α maxLength lo hi} {a b k : Nat} {s : σ} {v w : Nat → α}

/-! ## The bucket that is looked for -/

theorem findBucket_spec (counts : Histogram) (p : Nat) :
    ∀ n i, a + sumBelow counts i ≤ p → p < a + sumBelow counts (i + n) →
      ∃ c, c < i + n ∧ findBucket counts p (List.range' i n) (a + sumBelow counts i) =
          some (c, a + sumBelow counts c, a + sumBelow counts (c + 1)) ∧
        a + sumBelow counts c ≤ p ∧ p < a + sumBelow counts (c + 1) := by
  intro n
  induction n with
  | zero =>
    intro i hlow hhigh
    rw [Nat.add_zero] at hhigh
    omega
  | succ n ih =>
    intro i hlow hhigh
    rw [List.range'_succ]
    unfold findBucket
    dsimp only
    rw [Nat.add_assoc, ← sumBelow_succ]
    split
    next hlt => exact ⟨i, by omega, rfl, hlow, hlt⟩
    next hge =>
      obtain ⟨c, hc, hfind, hc'⟩ := ih (i + 1) (by omega)
        (by rwa [show i + 1 + n = i + (n + 1) by omega])
      exact ⟨c, by omega, hfind, hc'⟩

/-- `f..g` is where the entries of the bucket `c` belong. -/
structure BucketRange (acc : RadixAccess t α maxLength lo hi) (a b k c f g : Nat) (v : Nat → α) :
    Prop where
  start : f = a + ((Finset.Ico a b).filter fun x => acc.bucket v k x < c).card
  stop : g = f + ((Finset.Ico a b).filter fun x => acc.bucket v k x = c).card
  nonempty : f < g

section Partition

variable {c f g : Nat}

theorem BucketRange.rearranged (h : BucketRange acc a b k c f g v) (hre : Rearranged a b v w) :
    BucketRange acc a b k c f g w where
  start := by
    rw [h.start]
    exact congrArg (a + ·) (hre.card_filter fun z => bucketAt (acc.key z) k < c).symm
  stop := by
    rw [h.stop]
    exact congrArg (f + ·) (hre.card_filter fun z => bucketAt (acc.key z) k = c).symm
  nonempty := h.nonempty

/-- The entries that do not belong behind the bucket. -/
theorem BucketRange.card_le (h : BucketRange acc a b k c f g v) :
    ((Finset.Ico a b).filter fun x => acc.bucket v k x ≤ c).card = g - a := by
  have hsplit : (Finset.Ico a b).filter (fun x => acc.bucket v k x ≤ c) =
      (Finset.Ico a b).filter (fun x => acc.bucket v k x < c) ∪
        (Finset.Ico a b).filter fun x => acc.bucket v k x = c := by
    rw [← Finset.filter_or]
    apply Finset.filter_congr
    intro x _
    omega
  have hdisjoint : Disjoint ((Finset.Ico a b).filter fun x => acc.bucket v k x < c)
      ((Finset.Ico a b).filter fun x => acc.bucket v k x = c) := by
    apply Finset.disjoint_filter.2
    intro x _ hlt heq
    omega
  have hstart := h.start
  have hstop := h.stop
  rw [hsplit, Finset.card_union_of_disjoint hdisjoint]
  omega

theorem BucketRange.le_end (h : BucketRange acc a b k c f g v) (hab : a ≤ b) : g ≤ b := by
  have hcard := h.card_le
  have hle := Finset.card_filter_le (Finset.Ico a b) fun x => acc.bucket v k x ≤ c
  rw [Nat.card_Ico] at hle
  omega

theorem BucketRange.le_start (h : BucketRange acc a b k c f g v) : a ≤ f := by
  rw [h.start]
  exact Nat.le_add_right _ _

/-! ## The partition -/

/-- What the cursors of the partition have passed. -/
structure Splitting (acc : RadixAccess t α maxLength lo hi) (a b k c f g left right slot : Nat)
    (v : Nat → α) : Prop where
  bounds : a ≤ left ∧ left ≤ f ∧ g ≤ right + 1 ∧ right < b ∧ f ≤ slot ∧ slot ≤ g
  less : ∀ x, a ≤ x → x < left → acc.bucket v k x < c
  equal : ∀ x, f ≤ x → x < slot → acc.bucket v k x = c
  greater : ∀ x, right < x → x < b → c < acc.bucket v k x

variable {left right slot : Nat}

/-- While an entry of the bucket is outside, there is room for it. -/
theorem Splitting.room (h : Splitting acc a b k c f g left right slot v)
    (hr : BucketRange acc a b k c f g v) {x : Nat} (hx : a ≤ x ∧ x < b) (hout : x < f ∨ g ≤ x)
    (hxc : acc.bucket v k x = c) : slot < g := by
  have hbounds := h.bounds
  by_contra hfull
  have hsubset : Finset.Ico f g ⊆ (Finset.Ico a b).filter fun x => acc.bucket v k x = c := by
    intro y hy
    rw [Finset.mem_Ico] at hy
    rw [Finset.mem_filter, Finset.mem_Ico]
    exact ⟨by omega, h.equal y hy.1 (by omega)⟩
  have hstop := hr.stop
  have heq := Finset.eq_of_subset_of_card_le hsubset (by rw [Nat.card_Ico]; omega)
  have hmem : x ∈ Finset.Ico f g := by
    rw [heq, Finset.mem_filter, Finset.mem_Ico]
    exact ⟨hx, hxc⟩
  rw [Finset.mem_Ico] at hmem
  omega

theorem bucket_congr {x y : Nat} (h : w x = v y) : acc.bucket w k x = acc.bucket v k y := by
  unfold bucket
  rw [h]

/-- An entry of the bucket goes into it. -/
theorem Splitting.fill (h : Splitting acc a b k c f g left right slot v) {x : Nat}
    (hx : (left ≤ x ∧ x < f) ∨ (g ≤ x ∧ x ≤ right)) (hslot : slot < g)
    (hxc : acc.bucket v k x = c) :
    Splitting acc a b k c f g left right (slot + 1) (swapAt v x slot) := by
  have hbounds := h.bounds
  refine ⟨by omega, fun y hy hyl => ?_, fun y hy hys => ?_, fun y hy hyb => ?_⟩
  · rw [bucket_congr (swapAt_of_ne (v := v) (i := x) (j := slot) (x := y) (by omega) (by omega))]
    exact h.less y hy hyl
  · rcases Nat.eq_or_lt_of_le (Nat.le_of_lt_succ hys) with rfl | hlt
    · rw [bucket_congr (swapAt_right v x y)]
      exact hxc
    · rw [bucket_congr (swapAt_of_ne (v := v) (i := x) (j := slot) (x := y) (by omega) (by omega))]
      exact h.equal y hy hlt
  · rw [bucket_congr (swapAt_of_ne (v := v) (i := x) (j := slot) (x := y) (by omega) (by omega))]
    exact h.greater y hy hyb

/-- Two entries that are on the wrong sides. -/
theorem Splitting.exchange (h : Splitting acc a b k c f g left right slot v) (hleft : left < f)
    (hright : g ≤ right) (hfg : f < g) (hl : c < acc.bucket v k left)
    (hr : acc.bucket v k right < c) :
    Splitting acc a b k c f g (left + 1) (right - 1) slot (swapAt v left right) := by
  have hbounds := h.bounds
  refine ⟨by omega, fun y hy hyl => ?_, fun y hy hys => ?_, fun y hy hyb => ?_⟩
  · rcases Nat.eq_or_lt_of_le (Nat.le_of_lt_succ hyl) with rfl | hlt
    · rw [bucket_congr (swapAt_left v y right)]
      exact hr
    · rw [bucket_congr (swapAt_of_ne (v := v) (i := left) (j := right) (x := y) (by omega)
        (by omega))]
      exact h.less y hy hlt
  · rw [bucket_congr (swapAt_of_ne (v := v) (i := left) (j := right) (x := y) (by omega)
      (by omega))]
    exact h.equal y hy hys
  · by_cases heq : y = right
    · rw [heq, bucket_congr (swapAt_right v left right)]
      exact hl
    · rw [bucket_congr (swapAt_of_ne (v := v) (i := left) (j := right) (x := y) (by omega)
        (by omega))]
      exact h.greater y (by omega) hyb

/-- The entries are on their sides. -/
structure Split (acc : RadixAccess t α maxLength lo hi) (a b k c f g : Nat) (v : Nat → α) : Prop where
  less : ∀ x, a ≤ x → x < f → acc.bucket v k x < c
  equal : ∀ x, f ≤ x → x < g → acc.bucket v k x = c
  greater : ∀ x, g ≤ x → x < b → c < acc.bucket v k x

/-- Where one cursor has arrived the other one has too. -/
theorem Splitting.split (h : Splitting acc a b k c f g left right slot v)
    (hr : BucketRange acc a b k c f g v) (hl : left < f → c < acc.bucket v k left)
    (hr' : g ≤ right → acc.bucket v k right < c) (hstop : ¬ (left < f ∧ right ≥ g)) :
    Split acc a b k c f g v := by
  have hbounds := h.bounds
  have hfg := hr.nonempty
  have hleft : left = f := by
    by_contra hne
    -- the entry at `left` is one too many behind the bucket
    have hsubset : ((Finset.Ico a b).filter fun x => acc.bucket v k x ≤ c) ⊆
        (Finset.Ico a g).erase left := by
      intro x hx
      rw [Finset.mem_filter, Finset.mem_Ico] at hx
      rw [Finset.mem_erase, Finset.mem_Ico]
      refine ⟨?_, hx.1.1, ?_⟩
      · rintro rfl
        have := hl (by omega)
        omega
      · by_contra hge
        have := h.greater x (by omega) hx.1.2
        omega
    have hcard := Finset.card_le_card hsubset
    rw [hr.card_le, Finset.card_erase_of_mem (Finset.mem_Ico.2 (by omega)), Nat.card_Ico] at hcard
    omega
  have hless : ∀ x, a ≤ x → x < f → acc.bucket v k x < c := by
    rw [← hleft]
    exact h.less
  have hstart := hr.start
  have hfront : Finset.Ico a f = (Finset.Ico a b).filter fun x => acc.bucket v k x < c := by
    apply Finset.eq_of_subset_of_card_le
    · intro x hx
      rw [Finset.mem_Ico] at hx
      rw [Finset.mem_filter, Finset.mem_Ico]
      exact ⟨by omega, hless x hx.1 hx.2⟩
    · rw [Nat.card_Ico]
      omega
  have hright : right + 1 = g := by
    by_contra hne
    have hmem : right ∈ Finset.Ico a f := by
      rw [hfront, Finset.mem_filter, Finset.mem_Ico]
      exact ⟨by omega, hr' (by omega)⟩
    rw [Finset.mem_Ico] at hmem
    omega
  have hgreater : ∀ x, g ≤ x → x < b → c < acc.bucket v k x :=
    fun x hx hxb => h.greater x (by omega) hxb
  have hmiddle : ((Finset.Ico a b).filter fun x => acc.bucket v k x = c) = Finset.Ico f g := by
    apply Finset.eq_of_subset_of_card_le
    · intro x hx
      rw [Finset.mem_filter, Finset.mem_Ico] at hx
      rw [Finset.mem_Ico]
      constructor
      · by_contra hlt
        have := hless x hx.1.1 (by omega)
        omega
      · by_contra hge
        have := hgreater x (by omega) hx.1.2
        omega
    · have hstop' := hr.stop
      rw [Nat.card_Ico]
      omega
  refine ⟨hless, fun x hx hxg => ?_, hgreater⟩
  have hmem : x ∈ (Finset.Ico a b).filter fun x => acc.bucket v k x = c := by
    rw [hmiddle, Finset.mem_Ico]
    exact ⟨hx, hxg⟩
  exact (Finset.mem_filter.1 hmem).2

end Partition

/-! ## The loops of the partition -/

section Loops

variable {c f g left right slot : Nat}

/-- What byte a bucket stands for, as the loops compare it. -/
theorem byteOf_bucket (v : Nat → α) (k x : Nat) :
    byteOf (acc.key (v x)) k + 1 = (acc.bucket v k x : Int) := by
  rw [byteOf_eq]
  unfold bucket
  omega

theorem leftLoop_spec (ha : lo ≤ a) (hb : b ≤ hi) (hk : k < max maxLength 1) (hab : a ≤ b)
    (hv : acc.At v s) (hr : BucketRange acc a b k c f g v)
    (h : Splitting acc a b k c f g left right slot v) :
    Yields (Op.iterate (leftPass t c f k) (b + 1) (left, slot, (acc.bucket v k left : Int))) s
      fun r s' => left ≤ r.1 ∧ acc.Leaves a g v (fun w => Splitting acc a b k c f g r.1 right r.2.1 w ∧
        (r.1 < f → c < acc.bucket w k r.1)) s' := by
  have hgb := hr.le_end hab
  have hfg := hr.nonempty
  apply Yields.iterate (I := fun p s' => left ≤ p.1 ∧ acc.Leaves a g v (fun w =>
    Splitting acc a b k c f g p.1 right p.2.1 w ∧ p.2.2 = (acc.bucket w k p.1 : Int)) s')
    (fun p => (f - p.1) + (g - p.2.1))
  · intro ⟨left', slot, leftBucket⟩ s₁ ⟨hle, w, hw, hre, hs, hbucket⟩
    dsimp only at hle hs hbucket
    have hbounds := hs.bounds
    unfold leftPass
    dsimp only
    rw [hbucket]
    split
    next hgo =>
      split
      next heq =>
        have hxc : acc.bucket w k left' = c := by omega
        have hslot := hs.room (hr.rearranged (hre.mono (Nat.le_refl a) hgb)) (x := left') (by omega) (by omega) hxc
        apply (hw.exchange (i := left') (j := slot) (by omega) (by omega)).bind
        intro _ s₂ hs₂
        apply (hs₂.byteAt (i := left') (by omega) hk).bind
        intro byte s₃ ⟨hs₃, hbyte⟩
        apply Yields.pure
        refine ⟨⟨hle, .intro hs₃ (hre.trans (.swap (by omega) (by omega) w))
          ⟨hs.fill (by omega) hslot hxc, ?_⟩⟩, by dsimp only; omega⟩
        dsimp only
        rw [hbyte, byteOf_bucket]
      next hne =>
        apply (hw.byteAt (i := left' + 1) (by omega) hk).bind
        intro byte s₃ ⟨hs₃, hbyte⟩
        apply Yields.pure
        refine ⟨⟨by dsimp only; omega, .intro hs₃ hre ⟨⟨by dsimp only; omega, fun x hx hxl => ?_,
          hs.equal, hs.greater⟩, ?_⟩⟩, by dsimp only; omega⟩
        · rcases Nat.eq_or_lt_of_le (Nat.le_of_lt_succ hxl) with rfl | hlt
          · omega
          · exact hs.less x hx hlt
        · dsimp only
          rw [hbyte, byteOf_bucket]
    next hstop =>
      apply Yields.pure
      exact ⟨hle, .intro hw hre ⟨hs, fun hlt => by dsimp only at hlt ⊢; omega⟩⟩
  · have hbounds := h.bounds
    dsimp only
    omega
  · exact ⟨Nat.le_refl left, hv.leaves ⟨h, rfl⟩⟩

theorem rightLoop_spec (ha : lo ≤ a) (hb : b ≤ hi) (hk : k < max maxLength 1) (hab : a ≤ b)
    (hv : acc.At v s) (hr : BucketRange acc a b k c f g v)
    (h : Splitting acc a b k c f g left right slot v) (hl : left < f → c < acc.bucket v k left)
    {rightBucket : Int} (hbucket : g ≤ right → rightBucket = (acc.bucket v k right : Int)) :
    Yields (Op.iterate (rightPass t c g k) (b + 1) (right, slot, rightBucket)) s
      fun r s' => acc.Leaves a b v (fun w => Splitting acc a b k c f g left r.1 r.2.1 w ∧
        (left < f → c < acc.bucket w k left) ∧ (g ≤ r.1 → acc.bucket w k r.1 < c)) s' := by
  have hgb := hr.le_end hab
  have hfg := hr.nonempty
  have hstart := hr.le_start
  apply Yields.iterate (I := fun p s' => acc.Leaves a b v (fun w =>
    Splitting acc a b k c f g left p.1 p.2.1 w ∧ (left < f → c < acc.bucket w k left) ∧
      (g ≤ p.1 → p.2.2 = (acc.bucket w k p.1 : Int))) s') (fun p => (p.1 + 1 - g) + (g - p.2.1))
  · intro ⟨right, slot, rightBucket⟩ s₁ ⟨w, hw, hre, hs, hlw, hbucket⟩
    dsimp only at hs hbucket
    have hbounds := hs.bounds
    unfold rightPass
    dsimp only
    split
    next hgo =>
      rw [hbucket hgo.2] at hgo ⊢
      split
      next heq =>
        have hxc : acc.bucket w k right = c := by omega
        have hslot := hs.room (hr.rearranged hre) (x := right) (by omega) (by omega) hxc
        apply (hw.exchange (i := right) (j := slot) (by omega) (by omega)).bind
        intro _ s₂ hs₂
        apply (hs₂.byteAt (i := right) (by omega) hk).bind
        intro byte s₃ ⟨hs₃, hbyte⟩
        apply Yields.pure
        refine ⟨.intro hs₃ (hre.trans (.swap (by omega) (by omega) w))
          ⟨hs.fill (by omega) hslot hxc, ?_, ?_⟩, by dsimp only; omega⟩
        · intro hlt
          rw [bucket_congr (swapAt_of_ne (v := w) (i := right) (j := slot) (x := left) (by omega)
            (by omega))]
          exact hlw hlt
        · intro _
          dsimp only
          rw [hbyte, byteOf_bucket]
      next hne =>
        apply (hw.byteAt (i := right - 1) (by omega) hk).bind
        intro byte s₃ ⟨hs₃, hbyte⟩
        apply Yields.pure
        refine ⟨.intro hs₃ hre ⟨⟨by dsimp only; omega, hs.less, hs.equal, fun x hx hxb => ?_⟩,
          hlw, ?_⟩,
          by dsimp only; omega⟩
        · by_cases hxr : x = right
          · rw [hxr]
            omega
          · exact hs.greater x (by omega) hxb
        · intro _
          dsimp only
          rw [hbyte, byteOf_bucket]
    next hstop =>
      apply Yields.pure
      refine .intro hw hre ⟨hs, hlw, fun hge => ?_⟩
      have := hbucket hge
      dsimp only at hge ⊢
      omega
  · have hbounds := h.bounds
    dsimp only
    omega
  · exact hv.leaves ⟨h, hl, hbucket⟩

/-- `radix_partition` brings the bucket to its range. -/
theorem radixPartition_spec (ha : lo ≤ a) (hb : b ≤ hi) (hk : k < max maxLength 1) (hab : a < b)
    (hv : acc.At v s) (hr : BucketRange acc a b k c f g v) :
    Yields (radixPartition t a b c f g k) s fun _ =>
      acc.Leaves a b v (Split acc a b k c f g) := by
  have hgb := hr.le_end (by omega)
  have hfg := hr.nonempty
  have hstart := hr.le_start
  apply Yields.iterate (I := fun p s' => acc.Leaves a b v
    (Splitting acc a b k c f g p.1 p.2.1 p.2.2) s') (fun p => f - p.1)
  · intro ⟨left, right, slot⟩ s₁ ⟨w, hw, hre, hs⟩
    dsimp only at hs
    have hbounds := hs.bounds
    unfold radixPartitionPass
    dsimp only
    apply (hw.byteAt (i := left) (by omega) hk).bind
    intro leftByte s₂ ⟨hs₂, hleft⟩
    apply (hs₂.byteAt (i := right) (by omega) hk).bind
    intro rightByte s₃ ⟨hs₃, hright⟩
    rw [hleft, hright, byteOf_bucket, byteOf_bucket]
    apply (leftLoop_spec ha hb hk (by omega) hs₃ (hr.rearranged hre) hs).bind
    intro ⟨left₁, slot₁, _⟩ s₄ ⟨hle₁, w₁, hw₁, hre₁, hs₁, hl₁⟩
    have hre₁' : Rearranged a b v w₁ := hre.trans (hre₁.mono (Nat.le_refl a) hgb)
    -- the byte at `right` that was read first is still there, if it counts
    have hsame : g ≤ right → (acc.bucket w k right : Int) = (acc.bucket w₁ k right : Int) := by
      intro hge
      rw [bucket_congr (hre₁.outside (x := right) (by omega))]
    apply (rightLoop_spec ha hb hk (by omega) hw₁ (hr.rearranged hre₁') hs₁ hl₁ hsame).bind
    intro ⟨right₂, slot₂, _⟩ s₅ ⟨w₂, hw₂, hre₂, hs₂, hl₂, hr₂⟩
    dsimp only at hs₂ hl₂ hr₂ ⊢
    have hre₂' := hre₁'.trans hre₂
    have hbounds₁ := hs₁.bounds
    have hbounds₂ := hs₂.bounds
    dsimp only at hle₁ hbounds₁
    split
    next hgo =>
      apply (hw₂.exchange (i := left₁) (j := right₂) (by omega) (by omega)).bind
      intro _ s₆ hs₆
      apply Yields.pure
      exact ⟨.intro hs₆ (hre₂'.trans (.swap (by omega) (by omega) w₂))
        (hs₂.exchange hgo.1 hgo.2 hfg (hl₂ hgo.1) (hr₂ hgo.2)), by dsimp only; omega⟩
    next hstop =>
      apply Yields.pure
      exact .intro hw₂ hre₂' (hs₂.split (hr.rearranged hre₂') hl₂ hr₂ hstop)
  · dsimp only
    omega
  · apply hv.leaves
    exact ⟨by dsimp only; omega, fun x hx hxl => by dsimp only at hxl; omega,
      fun x hx hxs => by dsimp only at hxs; omega, fun x hx hxb => by dsimp only at hx; omega⟩

end Loops

/-! ## The recursion -/

/-- A program for a range with the place `p` whose keys agree on the first `k`
bytes. -/
def SelectsRange (acc : RadixAccess t α maxLength lo hi)
    (select : Nat → Nat → Nat → Nat → Run σ Unit) (p : Nat) : Prop :=
  ∀ {k a b s v}, lo ≤ a → a ≤ p → p < b → b ≤ hi → k ≤ maxLength → acc.At v s →
    acc.Agree a b k v →
    Yields (select k a b p) s fun _ => acc.Leaves a b v fun w => SelectedAt a b p (acc.keys w)

section Step

variable {fallback : Nat → Nat → Nat → Nat → Run σ Unit} {p c f g : Nat}

/-- What is looked for is in the bucket. -/
theorem Split.narrowed (h : Split acc a b k c f g v) (hk : k < maxLength) (ha : a ≤ f)
    (hfp : f ≤ p) (hpg : p < g) (hg : g ≤ b) (hagree : acc.Agree a b k v) :
    Narrowed a b p f g (acc.keys v) := by
  refine ⟨by omega, fun x y hx hxf hy hyb => ?_, fun x y hx hxg hy hyb => ?_⟩
  · have hlt : acc.bucket v k x < acc.bucket v k y := by
      apply Nat.lt_of_lt_of_le (h.less x hx hxf)
      rcases Nat.lt_or_ge y g with hyg | hyg
      · exact Nat.le_of_eq (h.equal y hy hyg).symm
      · exact Nat.le_of_lt (h.greater y hyg hyb)
    exact hagree.keys_le hk hx (by omega) (by omega) hyb hlt
  · have hlt : acc.bucket v k x < acc.bucket v k y := by
      apply Nat.lt_of_le_of_lt _ (h.greater y hy hyb)
      rcases Nat.lt_or_ge x f with hxf | hxf
      · exact Nat.le_of_lt (h.less x hx hxf)
      · exact Nat.le_of_eq (h.equal x hxf hxg)
    exact hagree.keys_le hk hx (by omega) (by omega) hyb hlt

theorem radixSelectStep_spec (hfallback : SelectsRange acc fallback p) :
    ∀ (fuel a b k l : Nat) (s : σ) (v : Nat → α), maxLength - k < fuel → k < maxLength →
      lo ≤ a → a ≤ p → p < b → b ≤ hi → acc.At v s → acc.Agree a b k v →
      Yields (radixSelectStep t maxLength p fallback fuel a b k l) s fun _ =>
        acc.Leaves a b v fun w => SelectedAt a b p (acc.keys w) := by
  intro fuel
  induction fuel with
  | zero => exact fun a b k l s v hfuel => absurd hfuel (Nat.not_lt_zero _)
  | succ fuel ih =>
    intro a b k l s v hfuel hk ha hap hpb hb hv hagree
    unfold radixSelectStep
    apply (prefixAndHistogram_spec false ha hb (by omega) hk hv).bind
    intro ⟨common, counts⟩ s₁ ⟨hs₁, hfound⟩
    dsimp only
    rcases hfound with ⟨hpos, hend, hfirst, hzero⟩ | ⟨hnone, hcounts⟩
    · rw [if_pos hpos]
      split
      next hgo =>
        exact ih a b (k + common) l s₁ v (by omega) hgo.1 ha hap hpb hb hs₁ (hfirst.agree hagree)
      next hstop =>
        apply Yields.pure
        have hdone := hfirst.done (by omega) hpos hagree hzero hstop
        exact hs₁.leaves (hdone.sorted.selectedAt hap hpb)
    · dsimp only at hnone hcounts
      rw [if_neg (by omega)]
      have heq : counts = bucketCounts acc a b k v := funext hcounts
      have hall : sumBelow counts radixHistogramSize = b - a := by
        rw [heq]
        exact sumBelow_all
      obtain ⟨c, hc, hfind, hfp, hpg⟩ := findBucket_spec (a := a) counts p radixHistogramSize 0
        (Nat.le_trans (Nat.le_refl a) hap) (by rw [Nat.zero_add, hall]; omega)
      rw [show a + sumBelow counts 0 = a from rfl, ← List.range_eq_range'] at hfind
      rw [hfind]
      dsimp only
      have hr : BucketRange acc a b k c (a + sumBelow counts c) (a + sumBelow counts (c + 1)) v := by
        rw [heq]
        refine ⟨by rw [sumBelow_counts], by rw [sumBelow_succ, Nat.add_assoc]; rfl, ?_⟩
        rw [← heq]
        omega
      have hgb := hr.le_end (by omega)
      apply leaves_bind (radixPartition_spec ha hb (by omega) (by omega) hs₁ hr)
      intro _ s₂ w hw hre hsplit
      have hagree' := hagree.rearranged hre
      have hn := hsplit.narrowed hk (Nat.le_add_right a _) hfp hpg hgb hagree'
      have hin : acc.Agree (a + sumBelow counts c) (a + sumBelow counts (c + 1)) (k + 1) w :=
        (hagree'.mono (Nat.le_add_right a _) hgb (Nat.le_refl k)).succ hsplit.equal
      split
      next hmore =>
        have hdone : ∀ s', acc.Leaves (a + sumBelow counts c) (a + sumBelow counts (c + 1)) w
            (fun w' => SelectedAt (a + sumBelow counts c) (a + sumBelow counts (c + 1)) p
              (acc.keys w')) s' →
            acc.Leaves a b w (fun w' => SelectedAt a b p (acc.keys w')) s' := by
          intro s' ⟨w', hw', hre', hsel⟩
          exact .intro hw' (hre'.mono (Nat.le_add_right a _) hgb)
            ((hn.rearranged (hre'.comp fun z => sortKey maxLength (acc.key z))).selected hsel)
        unfold radixSelectLevel
        split
        · exact (hfallback (by omega) hfp hpg (by omega) (by omega) hw hin).mono
            fun _ s' h => hdone s' h
        · exact (ih _ _ (k + 1) (l + 1) s₂ w (by omega) hmore.2 (by omega) hfp hpg (by omega) hw
            hin).mono fun _ s' h => hdone s' h
      next hlast =>
        apply Yields.pure
        have hsame : acc.Agree (a + sumBelow counts c) (a + sumBelow counts (c + 1)) maxLength w := by
          by_cases hc0 : c = 0
          · rw [hc0] at hin hsplit ⊢
            exact RadixAccess.Agree.ended (hin.mono (Nat.le_refl _) (Nat.le_refl _) (Nat.le_succ k))
              hsplit.equal maxLength
          · exact hin.mono (Nat.le_refl _) (Nat.le_refl _) (by omega)
        exact hw.leaves (hn.sorted hsame.sorted)

/-- Where no key has a byte, one bucket holds everything and nothing moves. -/
theorem radixSelectStep_zero {acc : RadixAccess t α 0 lo hi} (fuel l : Nat) (ha : lo ≤ a)
    (hap : a ≤ p) (hpb : p < b) (hb : b ≤ hi) (hv : acc.At v s) :
    Yields (radixSelectStep t 0 p fallback (fuel + 1) a b 0 l) s fun _ =>
      acc.Leaves a b v fun w => SelectedAt a b p (acc.keys w) := by
  have hpart : ∀ {s'}, acc.At v s' →
      Yields (radixPartition t a b 1 a b 0) s' fun _ => acc.At v := by
    have hpass : ∀ {s'}, acc.At v s' → Yields (radixPartitionPass t b 1 a b 0 (a, b - 1, a)) s'
        fun r s'' => r = .inr () ∧ acc.At v s'' := by
      intro s' hs'
      unfold radixPartitionPass
      dsimp only
      apply (hs'.byteAt (i := a) (k := 0) (by omega) (by decide)).bind
      intro leftByte s₁ ⟨hs₁, _⟩
      apply (hs₁.byteAt (i := b - 1) (k := 0) (by omega) (by decide)).bind
      intro rightByte s₂ ⟨hs₂, _⟩
      have hleft : leftPass t 1 a 0 (a, a, leftByte + 1) = pure (.inr (a, a, leftByte + 1)) :=
        if_neg fun h => absurd h.2 (Nat.lt_irrefl a)
      have hright : rightPass t 1 b 0 (b - 1, a, rightByte + 1) =
          pure (.inr (b - 1, a, rightByte + 1)) := if_neg fun h => absurd h.2 (by omega)
      have hlrun : Op.iterate (leftPass t 1 a 0) (b + 1) (a, a, leftByte + 1) s₂ =
          (.ok (a, a, leftByte + 1), s₂) := Op.iterate_leave (by rw [hleft]; rfl)
      have hrrun : Op.iterate (rightPass t 1 b 0) (b + 1) (b - 1, a, rightByte + 1) s₂ =
          (.ok (b - 1, a, rightByte + 1), s₂) := Op.iterate_leave (by rw [hright]; rfl)
      apply Yields.bind (Q := fun r s' => r = (a, a, leftByte + 1) ∧ s' = s₂)
        ⟨_, _, hlrun, rfl, rfl⟩
      intro r s' ⟨hr, hs'⟩
      rw [hr, hs']
      apply Yields.bind (Q := fun r s' => r = (b - 1, a, rightByte + 1) ∧ s' = s₂)
        ⟨_, _, hrrun, rfl, rfl⟩
      intro r s' ⟨hr, hs'⟩
      rw [hr, hs']
      dsimp only
      rw [if_neg (by omega)]
      exact Yields.pure ⟨rfl, hs₂⟩
    intro s' hs'
    obtain ⟨r, s'', hrun, hr, hs''⟩ := hpass hs'
    rw [hr] at hrun
    exact ⟨(), s'', Op.iterate_leave hrun, hs''⟩
  unfold radixSelectStep
  apply (prefixAndHistogram_zero false hv).bind
  intro r s₁ ⟨hs₁, hr⟩
  rw [hr]
  dsimp only
  rw [if_neg (Nat.lt_irrefl 0)]
  have hempty : Histogram.set (fun _ => 0) 1 (b - a) 0 = 0 := rfl
  have hfull : Histogram.set (fun _ => 0) 1 (b - a) 1 = b - a := rfl
  have hfind : findBucket (Histogram.set (fun _ => 0) 1 (b - a)) p (List.range radixHistogramSize) a =
      some (1, a, b) := by
    rw [List.range_eq_range', radixHistogramSize, List.range'_succ, List.range'_succ, findBucket,
      hempty]
    rw [if_neg (by omega), findBucket, hfull]
    rw [Nat.add_zero, if_pos (by omega), show a + (b - a) = b by omega]
  rw [hfind]
  dsimp only
  apply (hpart hs₁).bind
  intro _ s₂ hs₂
  rw [if_neg fun h => absurd h.2 (Nat.not_lt_zero _)]
  exact Yields.pure (hs₂.leaves ⟨fun x _ _ => le_of_eq rfl, fun x _ _ => le_of_eq rfl⟩)

/-- `radix_select` leaves at `k` what the order of the keys puts there. -/
theorem radixSelect_spec (hfallback : SelectsRange acc fallback p) (ha : lo ≤ a)
    (hp : a ≤ p ∧ p < b) (hb : b ≤ hi) (hv : acc.At v s) :
    Yields (radixSelect t maxLength a b p fallback) s fun _ =>
      acc.Leaves a b v fun w => SelectedAt a b p (acc.keys w) := by
  unfold radixSelect radixSelectLevel
  rw [if_pos hp]
  split
  · exact hfallback ha hp.1 hp.2 hb (Nat.zero_le _) hv (.zero acc a b v)
  next hlong =>
    cases maxLength with
    | zero => exact radixSelectStep_zero _ 0 ha hp.1 hp.2 hb hv
    | succ m =>
      exact radixSelectStep_spec hfallback (m + 1 + 1) a b 0 0 s v (by omega) (by omega) ha hp.1 hp.2
        hb hv (.zero acc a b v)

end Step

end LuceneRust.Util.Sorter
