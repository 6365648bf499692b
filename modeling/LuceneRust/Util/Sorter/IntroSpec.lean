import LuceneRust.Util.Sorter.PartitionSpec

/-!
# Sorting and selecting by comparisons

* `introSort_spec`: `intro_sort` leaves the range in order, whether it ends in the
  insertion sort or, with the depth budget spent, in the heap sort.
* `introSelect_spec`: `intro_select` leaves at `k` what order puts there.
-/

namespace LuceneRust.Util.Sorter

open RustSem StateHoare Rearrange SliceView

variable {σ α : Type} [Preorder α] {t : IntroTarget σ} {lo hi : Nat} {acc : SliceAccess t α lo hi}
  {a b : Nat} {s : σ} {v w : Nat → α}

/-! ## Intro sort -/

/-- The parts of a partition stay apart when the entries of one of them move. -/
theorem ThreeParts.front {j i : Nat} (h : ThreeParts a j i b v) (hji : j ≤ i)
    (hre : Rearranged a j v w) : ThreeParts a j i b w := by
  obtain ⟨P, hleft, hmid, hright⟩ := h
  refine ⟨P, hre.forall_range (P := fun z => z ≤ P) hleft, fun x hx hxi => ?_, fun x hx hxb => ?_⟩
  · rw [hre.outside (by omega)]
    exact hmid x hx hxi
  · rw [hre.outside (by omega)]
    exact hright x hx hxb

theorem ThreeParts.back {j i : Nat} (h : ThreeParts a j i b v) (hji : j ≤ i)
    (hre : Rearranged i b v w) : ThreeParts a j i b w := by
  obtain ⟨P, hleft, hmid, hright⟩ := h
  refine ⟨P, fun x hx hxj => ?_, fun x hx hxi => ?_, hre.forall_range (P := fun z => P ≤ z) hright⟩
  · rw [hre.outside (by omega)]
    exact hleft x hx hxj
  · rw [hre.outside (by omega)]
    exact hmid x hx hxi

theorem ThreeParts.sorted {j i : Nat} (h : ThreeParts a j i b v)
    (hleft : SortedOn a j v) (hright : SortedOn i b v) : SortedOn a b v := by
  obtain ⟨P, hl, hm, hr⟩ := h
  have hmid : SortedOn j i v := fun x y hx hxy hy =>
    le_trans (hm x hx (by omega)).1 (hm y (by omega) hy).2
  apply (hleft.append hmid ?_).append hright
  · intro x y hx hxi hy hyb
    rcases Nat.lt_or_ge x j with hlt | hge
    · exact le_trans (hl x hx hlt) (hr y hy hyb)
    · exact le_trans (hm x hge hxi).1 (hr y hy hyb)
  · intro x y hx hxj hy hyi
    exact le_trans (hl x hx hxj) (hm y hy hyi).2

theorem introSortDepth_spec : ∀ (maxDepth a b : Nat) (s : σ) (v : Nat → α), lo ≤ a → b ≤ hi →
    acc.At v s →
      Yields (introSortDepth t maxDepth a b) s fun _ => acc.Leaves a b v (SortedOn a b) := by
  intro maxDepth
  induction maxDepth with
  | zero =>
    intro a b s v ha hb hv
    unfold introSortDepth
    split
    · exact heapSort_spec ha hb hv
    · exact insertionSort_spec ha hb hv
  | succ maxDepth ih =>
    intro a b s v ha hb hv
    unfold introSortDepth insertionSortThreshold
    dsimp only
    split
    next hlong =>
      apply (sortPivot_spec ha hb hv (by omega)).bind
      intro pivot s ⟨hs, hpivot⟩
      apply (threeWayPartition_spec ha hb hs hpivot).bind
      intro ⟨j', i'⟩ s ⟨j, i, hr, hbounds, u, hu, hre, hparts⟩
      obtain ⟨rfl, rfl⟩ := Prod.mk.inj hr
      dsimp only
      rw [show ((j : Int) - 1 + 1).toNat = j by omega, Int.toNat_natCast]
      -- either part is sorted first
      split
      · apply (ih a j s u ha (by omega) hu).bind
        intro _ s ⟨w₁, hw₁, hre₁, hsorted₁⟩
        apply (ih i b s w₁ (by omega) hb hw₁).mono
        intro _ s ⟨w₂, hw₂, hre₂, hsorted₂⟩
        refine ⟨w₂, hw₂, (hre.trans (hre₁.mono (Nat.le_refl a) (by omega))).trans
          (hre₂.mono (by omega) (Nat.le_refl b)), ?_⟩
        apply ((hparts.front (by omega) hre₁).back (by omega) hre₂).sorted ?_ hsorted₂
        exact hsorted₁.congr fun x _ hxj => hre₂.outside (by omega)
      · apply (ih i b s u (by omega) hb hu).bind
        intro _ s ⟨w₁, hw₁, hre₁, hsorted₁⟩
        apply (ih a j s w₁ ha (by omega) hw₁).mono
        intro _ s ⟨w₂, hw₂, hre₂, hsorted₂⟩
        refine ⟨w₂, hw₂, (hre.trans (hre₁.mono (by omega) (Nat.le_refl b))).trans
          (hre₂.mono (Nat.le_refl a) (by omega)), ?_⟩
        apply ((hparts.back (by omega) hre₁).front (by omega) hre₂).sorted hsorted₂
        exact hsorted₁.congr fun x hix _ => hre₂.outside (by omega)
    next => exact insertionSort_spec ha hb hv

/-- `intro_sort` leaves the range in order. -/
theorem introSort_spec (ha : lo ≤ a) (hb : b ≤ hi) (hab : a ≤ b) (hv : acc.At v s) :
    Yields (introSort t a b) s fun _ => acc.Leaves a b v (SortedOn a b) := by
  unfold introSort
  rw [if_pos hab]
  exact introSortDepth_spec _ a b s v ha hb hv

/-! ## Intro select -/

/-- What order puts at `k` is in `c..d`: nothing in front is greater than what is
in the range or behind it, and nothing behind is less. -/
structure Narrowed (a b k c d : Nat) (v : Nat → α) : Prop where
  bounds : a ≤ c ∧ c ≤ k ∧ k < d ∧ d ≤ b
  front : ∀ x y, a ≤ x → x < c → c ≤ y → y < b → v x ≤ v y
  back : ∀ x y, a ≤ x → x < d → d ≤ y → y < b → v x ≤ v y

theorem Narrowed.rearranged {k c d : Nat} (h : Narrowed a b k c d v)
    (hre : Rearranged c d v w) : Narrowed a b k c d w := by
  obtain ⟨hbounds, hfront, hback⟩ := h
  have hin := hre.forall_range (P := fun z => (∀ x, a ≤ x → x < c → v x ≤ z) ∧
    ∀ y, d ≤ y → y < b → z ≤ v y) fun x hx hxd =>
      ⟨fun y hy hyc => hfront y x hy hyc hx (by omega), fun y hy hyb =>
        hback x y (by omega) hxd hy hyb⟩
  refine ⟨hbounds, fun x y hx hxc hy hyb => ?_, fun x y hx hxd hy hyb => ?_⟩
  · rw [hre.outside (x := x) (by omega)]
    rcases Nat.lt_or_ge y d with hlt | hge
    · exact (hin y hy hlt).1 x hx hxc
    · rw [hre.outside (x := y) (by omega)]
      exact hfront x y hx hxc hy hyb
  · rw [hre.outside (x := y) (by omega)]
    rcases Nat.lt_or_ge x c with hlt | hge
    · rw [hre.outside (x := x) (by omega)]
      exact hback x y hx hxd hy hyb
    · exact (hin x hge hxd).2 y hy hyb

/-- The part in front of the pivot. -/
theorem Narrowed.front_part {k c d j i : Nat} (h : Narrowed a b k c d v)
    (hparts : ThreeParts c j i d v) (hkj : k < j) (hji : j < i) (hid : i ≤ d) :
    Narrowed a b k c j v := by
  obtain ⟨P, hl, hm, hr⟩ := hparts
  have hbounds := h.bounds
  refine ⟨by omega, h.front, fun x y hx hxj hy hyb => ?_⟩
  rcases Nat.lt_or_ge y d with hyd | hyd
  · rcases Nat.lt_or_ge x c with hxc | hxc
    · exact h.front x y hx hxc (by omega) hyb
    · apply le_trans (hl x hxc hxj)
      rcases Nat.lt_or_ge y i with hyi | hyi
      · exact (hm y hy hyi).2
      · exact hr y hyi hyd
  · exact h.back x y hx (by omega) hyd hyb

/-- The part behind the pivot. -/
theorem Narrowed.back_part {k c d j i : Nat} (h : Narrowed a b k c d v)
    (hparts : ThreeParts c j i d v) (hik : i ≤ k) (hcj : c ≤ j) (hji : j < i) :
    Narrowed a b k i d v := by
  obtain ⟨P, hl, hm, hr⟩ := hparts
  have hbounds := h.bounds
  refine ⟨by omega, fun x y hx hxi hy hyb => ?_, h.back⟩
  rcases Nat.lt_or_ge y d with hyd | hyd
  · rcases Nat.lt_or_ge x c with hxc | hxc
    · exact h.front x y hx hxc (by omega) hyb
    · apply le_trans _ (hr y hy hyd)
      rcases Nat.lt_or_ge x j with hxj | hxj
      · exact hl x hxc hxj
      · exact (hm x hxj hxi).1
  · exact h.back x y hx (by omega) hyd hyb

/-- The pivot itself is at `k`. -/
theorem Narrowed.middle {k c d j i : Nat} (h : Narrowed a b k c d v)
    (hparts : ThreeParts c j i d v) (hjk : j ≤ k) (hki : k < i) : SelectedAt a b k v := by
  obtain ⟨P, hl, hm, hr⟩ := hparts
  have hbounds := h.bounds
  constructor
  · intro x hx hxk
    rcases Nat.lt_or_ge x c with hxc | hxc
    · exact h.front x k hx hxc (by omega) (by omega)
    · apply le_trans _ (hm k hjk hki).2
      rcases Nat.lt_or_ge x j with hxj | hxj
      · exact hl x hxc hxj
      · exact (hm x hxj (by omega)).1
  · intro x hkx hxb
    rcases Nat.lt_or_ge x d with hxd | hxd
    · apply le_trans (hm k hjk hki).1
      rcases Nat.lt_or_ge x i with hxi | hxi
      · exact (hm x (by omega) hxi).2
      · exact hr x hxi hxd
    · exact h.back k x (by omega) (by omega) hxd hxb

/-- The entry of the range itself is at `k`. -/
theorem Narrowed.selected {k c d : Nat} (h : Narrowed a b k c d v) (hsel : SelectedAt c d k v) :
    SelectedAt a b k v := by
  have hbounds := h.bounds
  constructor
  · intro x hx hxk
    rcases Nat.lt_or_ge x c with hxc | hxc
    · exact h.front x k hx hxc (by omega) (by omega)
    · exact hsel.before x hxc hxk
  · intro x hkx hxb
    rcases Nat.lt_or_ge x d with hxd | hxd
    · exact hsel.after x hkx hxd
    · exact h.back k x (by omega) (by omega) hxd hxb

theorem Narrowed.sorted {k c d : Nat} (h : Narrowed a b k c d v) (hsorted : SortedOn c d v) :
    SelectedAt a b k v :=
  h.selected (hsorted.selectedAt h.bounds.2.1 h.bounds.2.2.1)

/-- The shuffle permutes the range. -/
theorem shuffle_spec {c d : Nat} (hc : lo ≤ c) (hd : d ≤ hi) (hlt : d < 2 ^ 31) :
    ∀ i s v random, acc.At v s → i < d →
      Yields (shuffle t c i random) s fun _ => acc.Leaves c d v fun _ => True := by
  intro i
  induction i with
  | zero => exact fun s v random hv _ => Yields.pure (hv.leaves trivial)
  | succ i ih =>
    intro s v random hv hi'
    unfold shuffle
    split
    next hci =>
      obtain ⟨r, random', hr, hlow, hhigh⟩ :=
        random.nextIntRange_spec c (i + 1 + 1) (by omega) (by omega)
      have hcast : (r.signExtend 64).toNat = r.toNat := by
        rw [BitVec.signExtend_eq_setWidth_of_msb_false
          (BitVec.msb_eq_false_iff_two_mul_lt.2 (by omega)), BitVec.toNat_setWidth]
        omega
      have hbound : BitVec.ofNat 32 (i + 1) + 1 = BitVec.ofNat 32 (i + 1 + 1) :=
        (BitVec.ofNat_add (i + 1) 1).symm
      rw [hbound]
      apply (Yields.lift hr (Q := fun p s' => p = (r, random') ∧ s' = s) ⟨rfl, rfl⟩).bind
      intro p s' ⟨hp, hs'⟩
      rw [hp, hs']
      dsimp only
      rw [hcast]
      apply (hv.swap (i := i + 1) (j := r.toNat) (by omega) (by omega)).bind
      intro _ s'' hw
      apply (ih s'' _ random' hw (by omega)).mono
      intro _ _ h
      exact h.after (.swap (by omega) (by omega) v)
    next => exact Yields.pure (hv.leaves trivial)

/-- `sort3` leaves three places in order. -/
theorem sort3_spec {c : Nat} (hc : lo ≤ c) (hd : c + 3 ≤ hi) (hv : acc.At v s) :
    Yields (sort3 t c) s fun _ => acc.Leaves c (c + 3) v (SortedOn c (c + 3)) := by
  have hsorted : ∀ w : Nat → α, w c ≤ w (c + 1) → w (c + 1) ≤ w (c + 2) →
      SortedOn c (c + 3) w := by
    intro w h₁ h₂ x y hx hxy hy
    have hcases : (x = y) ∨ (x = c ∧ y = c + 1) ∨ (x = c ∧ y = c + 2) ∨
        (x = c + 1 ∧ y = c + 2) := by omega
    rcases hcases with rfl | ⟨rfl, rfl⟩ | ⟨rfl, rfl⟩ | ⟨rfl, rfl⟩
    · exact le_refl _
    · exact h₁
    · exact le_trans h₁ h₂
    · exact h₂
  unfold sort3
  dsimp only
  apply (hv.compare (i := c) (j := c + 1) (by omega) (by omega)).bind
  intro c₁ s ⟨hs, h₁⟩
  split
  next hle₁ =>
    have hle : v c ≤ v (c + 1) := h₁.le.1 hle₁
    apply (hs.compare (i := c + 1) (j := c + 2) (by omega) (by omega)).bind
    intro c₂ s ⟨hs, h₂⟩
    split
    next hpos₂ =>
      have hge₂ : v (c + 2) ≤ v (c + 1) := h₂.ge_of_pos hpos₂
      apply (hs.swap (i := c + 1) (j := c + 2) (by omega) (by omega)).bind
      intro _ s hs
      have hre : Rearranged c (c + 3) v (swapAt v (c + 1) (c + 2)) :=
        .swap (by omega) (by omega) v
      apply (hs.compare (i := c) (j := c + 1) (by omega) (by omega)).bind
      intro c₃ s ⟨hs, h₃⟩
      have hc0 : swapAt v (c + 1) (c + 2) c = v c := swapAt_of_ne (by omega) (by omega)
      rw [hc0, swapAt_left] at h₃
      split
      next hpos₃ =>
        apply (hs.swap (i := c) (j := c + 1) (by omega) (by omega)).mono
        intro _ s hs
        apply Leaves.intro hs (hre.trans (.swap (by omega) (by omega) _))
        apply hsorted
        · rw [swapAt_left, swapAt_right, hc0, swapAt_left]
          exact h₃.ge_of_pos hpos₃
        · rw [swapAt_right, hc0, swapAt_of_ne (by omega) (by omega), swapAt_right]
          exact hle
      next hpos₃ =>
        apply Yields.pure
        apply Leaves.intro hs hre
        apply hsorted
        · rw [hc0, swapAt_left]
          exact h₃.le_of_not hpos₃
        · rw [swapAt_left, swapAt_right]
          exact hge₂
    next hpos₂ =>
      apply Yields.pure
      exact hs.leaves (hsorted v hle (h₂.le_of_not hpos₂))
  next hgt₁ =>
    have hge : v (c + 1) ≤ v c := h₁.ge.1 (by omega)
    apply (hs.compare (i := c + 1) (j := c + 2) (by omega) (by omega)).bind
    intro c₂ s ⟨hs, h₂⟩
    split
    next hge₂ =>
      have hge₂' : v (c + 2) ≤ v (c + 1) := h₂.ge.1 hge₂
      apply (hs.swap (i := c) (j := c + 2) (by omega) (by omega)).mono
      intro _ s hs
      apply Leaves.intro hs (.swap (by omega) (by omega) v)
      have hmid : swapAt v c (c + 2) (c + 1) = v (c + 1) := swapAt_of_ne (by omega) (by omega)
      apply hsorted
      · rw [swapAt_left, hmid]
        exact hge₂'
      · rw [swapAt_right, hmid]
        exact hge
    next hlt₂ =>
      have hle₂ : v (c + 1) ≤ v (c + 2) := h₂.le.1 (by omega)
      apply (hs.swap (i := c) (j := c + 1) (by omega) (by omega)).bind
      intro _ s hs
      have hre : Rearranged c (c + 3) v (swapAt v c (c + 1)) := .swap (by omega) (by omega) v
      have hc2 : swapAt v c (c + 1) (c + 2) = v (c + 2) := swapAt_of_ne (by omega) (by omega)
      apply (hs.compare (i := c + 1) (j := c + 2) (by omega) (by omega)).bind
      intro c₃ s ⟨hs, h₃⟩
      rw [hc2, swapAt_right] at h₃
      split
      next hpos₃ =>
        apply (hs.swap (i := c + 1) (j := c + 2) (by omega) (by omega)).mono
        intro _ s hs
        apply Leaves.intro hs (hre.trans (.swap (by omega) (by omega) _))
        apply hsorted
        · rw [swapAt_left, hc2, swapAt_of_ne (by omega) (by omega), swapAt_left]
          exact hle₂
        · rw [swapAt_left, swapAt_right, hc2, swapAt_right]
          exact h₃.ge_of_pos hpos₃
      next hpos₃ =>
        apply Yields.pure
        apply Leaves.intro hs hre
        apply hsorted
        · rw [swapAt_left, swapAt_right]
          exact hge
        · rw [swapAt_right, hc2]
          exact h₃.le_of_not hpos₃

/-- The two or three last entries. -/
theorem selectShort_spec {k c d : Nat} (ha : lo ≤ a) (hb : b ≤ hi) (hshort : d - c ≤ 3)
    (hv : acc.At v s) (h : Narrowed a b k c d v) :
    Yields (selectShort t c d) s fun _ => acc.Leaves a b v (SelectedAt a b k) := by
  have hbounds := h.bounds
  have hdone : ∀ {s'}, acc.Leaves c d v (SortedOn c d) s' →
      acc.Leaves a b v (SelectedAt a b k) s' := fun hs' =>
    (hs'.mono fun w hre hsorted => (h.rearranged hre).sorted hsorted).widen (by omega) (by omega)
  unfold selectShort
  split
  next htwo =>
    have hsorted : ∀ w : Nat → α, w c ≤ w (c + 1) → SortedOn c d w := by
      intro w hle x y hx hxy hy
      have hcases : x = y ∨ (x = c ∧ y = c + 1) := by omega
      rcases hcases with rfl | ⟨rfl, rfl⟩
      · exact le_refl _
      · exact hle
    apply (hv.compare (i := c) (j := c + 1) (by omega) (by omega)).bind
    intro order s ⟨hs, hsign⟩
    split
    next hpos =>
      apply (hs.swap (i := c) (j := c + 1) (by omega) (by omega)).mono
      intro _ s hs
      apply hdone
      apply Leaves.intro hs (.swap (by omega) (by omega) v)
      apply hsorted
      rw [swapAt_left, swapAt_right]
      exact hsign.ge_of_pos hpos
    next hpos =>
      apply Yields.pure
      exact hdone (hs.leaves (hsorted v (hsign.le_of_not hpos)))
  next htwo =>
    split
    next hthree =>
      have hend : d = c + 3 := by omega
      apply (sort3_spec (by omega) (by omega) hv).mono
      intro _ s' h'
      apply hdone
      rw [hend]
      exact h'
    next hthree =>
      apply Yields.pure
      exact hdone (hv.leaves (SortedOn.of_short v (by omega)))

/-- One pass of `intro_select`: the range gets shorter, or the entry is found. -/
theorem selectPass_spec {k : Nat} {c : Selecting} (ha : lo ≤ a) (hb : b ≤ hi) (hlt : b < 2 ^ 31)
    (hv : acc.At v s) (h : Narrowed a b k c.lo c.hi v) :
    Yields (selectPass t k c) s fun r s' => match r with
      | .inl c' => c'.hi - c'.lo < c.hi - c.lo ∧
          acc.Leaves a b v (Narrowed a b k c'.lo c'.hi) s'
      | .inr _ => acc.Leaves a b v (SelectedAt a b k) s' := by
  have hbounds := h.bounds
  unfold selectPass
  dsimp only
  split
  next hlong =>
    have hshuffle : Yields (shuffleIfSpent t (c.maxDepth - 1) c.lo c.hi c.random) s fun _ =>
        acc.Leaves c.lo c.hi v fun _ => True := by
      unfold shuffleIfSpent
      split
      · exact shuffle_spec (by omega) (by omega) (by omega) _ s v _ hv (by omega)
      · exact Yields.pure (hv.leaves trivial)
    apply hshuffle.bind
    intro random s ⟨u, hu, hre, _⟩
    apply (selectPivot_spec (by omega) (by omega) hu (by omega) k).bind
    intro pivot s ⟨hs, hpivot⟩
    apply (threeWayPartition_spec (by omega) (by omega) hs hpivot).bind
    intro ⟨j', i'⟩ s ⟨j, i, hr, hji, w, hw, hre', hparts⟩
    obtain ⟨rfl, rfl⟩ := Prod.mk.inj hr
    have hre'' := hre.trans hre'
    have hn := h.rearranged hre''
    have hre₀ : Rearranged a b v w := hre''.mono (by omega) (by omega)
    apply Yields.pure
    dsimp only
    split
    next r c' heq =>
      split at heq
      next hkj =>
        cases heq
        dsimp only
        rw [show ((j : Int) - 1 + 1).toNat = j by omega]
        exact ⟨by omega, .intro hw hre₀ (hn.front_part hparts (by omega) hji.2.1 hji.2.2)⟩
      next hkj =>
        split at heq
        next hik =>
          cases heq
          dsimp only
          rw [Int.toNat_natCast]
          exact ⟨by omega, .intro hw hre₀ (hn.back_part hparts (by omega) hji.1 hji.2.1)⟩
        next => cases heq
    next r c' heq =>
      split at heq
      next => cases heq
      next hkj =>
        split at heq
        next => cases heq
        next hik => exact .intro hw hre₀ (hn.middle hparts (by omega) (by omega))
  next hshort =>
    apply (selectShort_spec ha hb (by omega) hv h).bind
    intro _ s hs
    exact Yields.pure hs

/-- `intro_select` leaves at `k` what order puts there. -/
theorem introSelect_spec {k : Nat} (random : SplittableRandom) (ha : lo ≤ a) (hb : b ≤ hi)
    (hlt : b < 2 ^ 31) (hk : a ≤ k ∧ k < b) (hv : acc.At v s) :
    Yields (introSelect t a b k random) s fun _ => acc.Leaves a b v (SelectedAt a b k) := by
  unfold introSelect
  rw [if_pos hk]
  apply Yields.iterate (I := fun c => acc.Leaves a b v (Narrowed a b k c.lo c.hi))
    (fun c => c.hi - c.lo)
  · intro c s ⟨w, hw, hre, hn⟩
    apply (selectPass_spec ha hb hlt hw hn).mono
    intro r s' hr
    cases r with
    | inl c' => exact ⟨hr.2.after hre, hr.1⟩
    | inr _ => exact hr.after hre
  · dsimp only
    omega
  · apply hv.leaves
    exact ⟨by dsimp only; omega, fun x y hx hxc _ _ => absurd hx (by dsimp only at hxc; omega),
      fun x y _ _ hy hyb => absurd hyb (by dsimp only at hy; omega)⟩

end LuceneRust.Util.Sorter
