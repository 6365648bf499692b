import LuceneRust.Util.Sorter.SliceAccess

/-!
# The partition around a pivot

`threeWayPartition_spec`: the entries not greater than the pivot go to the front,
those not less to the back, and the equal ones in between.

The first scan runs without a bound.  It stops because the pivot was a median of
three, so another place has an entry that is not less (`Pivotal`); the later
scans stop at what the last exchange has put there (`Parting.sentinel`).
-/

namespace LuceneRust.Util.Sorter

open RustSem StateHoare Rearrange SliceView

variable {σ α : Type} [Preorder α] {t : IntroTarget σ} {lo hi : Nat} {acc : SliceAccess t α lo hi}
  {a b : Nat} {s : σ} {v w : Nat → α} {P : α}

/-! ## The choice of the pivot -/

/-- A place of the range with another one that has no smaller entry. -/
def Pivotal (a b : Nat) (v : Nat → α) (m : Nat) : Prop :=
  (a ≤ m ∧ m < b) ∧ ∃ x, (a ≤ x ∧ x < b) ∧ x ≠ m ∧ v m ≤ v x

/-- `median` returns one of its places, and another one has no smaller entry. -/
theorem median_spec (hv : acc.At v s) {i j k : Nat} (hi' : lo ≤ i ∧ i < hi)
    (hj : lo ≤ j ∧ j < hi) (hk : lo ≤ k ∧ k < hi) :
    Yields (median t i j k) s fun m s' => acc.At v s' ∧
      ((m = i ∧ (v i ≤ v j ∨ v i ≤ v k)) ∨ (m = j ∧ (v j ≤ v i ∨ v j ≤ v k)) ∨
        (m = k ∧ (v k ≤ v i ∨ v k ≤ v j))) := by
  unfold median
  apply (hv.compare hi' hj).bind
  intro c s hij
  split
  next hneg =>
    have hle : v i ≤ v j := hij.2.le.1 (by omega)
    apply (hij.1.compare hj hk).bind
    intro c s hjk
    split
    next hnp => exact Yields.pure ⟨hjk.1, .inr (.inl ⟨rfl, .inr (hjk.2.le.1 hnp)⟩)⟩
    next hpos =>
      have hge : v k ≤ v j := hjk.2.ge.1 (by omega)
      apply (hjk.1.compare hi' hk).bind
      intro c s hik
      apply Yields.pure
      refine ⟨hik.1, ?_⟩
      split
      · exact .inr (.inr ⟨rfl, .inr hge⟩)
      · exact .inl ⟨rfl, .inl hle⟩
  next hneg =>
    have hge : v j ≤ v i := hij.2.ge.1 (by omega)
    apply (hij.1.compare hj hk).bind
    intro c s hjk
    split
    next hnn => exact Yields.pure ⟨hjk.1, .inr (.inl ⟨rfl, .inl hge⟩)⟩
    next hlt =>
      apply (hjk.1.compare hi' hk).bind
      intro c s hik
      apply Yields.pure
      refine ⟨hik.1, ?_⟩
      split
      next hc => exact .inl ⟨rfl, .inr (hik.2.le.1 (by omega))⟩
      next hc => exact .inr (.inr ⟨rfl, .inl (hik.2.ge.1 (by omega))⟩)

theorem median_pivotal (ha : lo ≤ a) (hb : b ≤ hi) (hv : acc.At v s) {i j k : Nat} (hi' : a ≤ i)
    (hij : i < j) (hjk : j < k) (hk : k < b) :
    Yields (median t i j k) s fun m s' => acc.At v s' ∧ Pivotal a b v m := by
  apply (median_spec hv (i := i) (j := j) (k := k) (by omega) (by omega) (by omega)).mono
  intro m s' ⟨hs', h⟩
  refine ⟨hs', ?_⟩
  rcases h with ⟨rfl, h | h⟩ | ⟨rfl, h | h⟩ | ⟨rfl, h | h⟩
  · exact ⟨by omega, j, by omega, by omega, h⟩
  · exact ⟨by omega, k, by omega, by omega, h⟩
  · exact ⟨by omega, i, by omega, by omega, h⟩
  · exact ⟨by omega, k, by omega, by omega, h⟩
  · exact ⟨by omega, i, by omega, by omega, h⟩
  · exact ⟨by omega, j, by omega, by omega, h⟩

/-- A choice between three places. -/
def Chooses (acc : SliceAccess t α lo hi) (choice : Nat → Nat → Nat → Run σ Nat) : Prop :=
  ∀ {s v i j k}, acc.At v s → lo ≤ i ∧ i < hi → lo ≤ j ∧ j < hi → lo ≤ k ∧ k < hi →
    Yields (choice i j k) s fun m s' => acc.At v s' ∧ (m = i ∨ m = j ∨ m = k)

theorem median_chooses : Chooses acc (median t) := by
  intro s v i j k hv hi' hj hk
  apply (median_spec hv hi' hj hk).mono
  intro m s' ⟨hs', h⟩
  refine ⟨hs', ?_⟩
  rcases h with ⟨h, -⟩ | ⟨h, -⟩ | ⟨h, -⟩
  · exact .inl h
  · exact .inr (.inl h)
  · exact .inr (.inr h)

theorem min3_chooses : Chooses acc (min3 t) := by
  intro s v i j k hv hi' hj hk
  unfold min3
  apply (hv.compare hi' hj).bind
  intro c s hij
  split
  · apply (hij.1.compare hi' hk).bind
    intro c s hik
    exact Yields.pure ⟨hik.1, by split <;> omega⟩
  · apply (hij.1.compare hj hk).bind
    intro c s hjk
    exact Yields.pure ⟨hjk.1, by split <;> omega⟩

theorem max3_chooses : Chooses acc (max3 t) := by
  intro s v i j k hv hi' hj hk
  unfold max3
  apply (hv.compare hi' hj).bind
  intro c s hij
  split
  · apply (hij.1.compare hj hk).bind
    intro c s hjk
    exact Yields.pure ⟨hjk.1, by split <;> omega⟩
  · apply (hij.1.compare hi' hk).bind
    intro c s hik
    exact Yields.pure ⟨hik.1, by split <;> omega⟩

theorem Chooses.pivotal {choice : Nat → Nat → Nat → Run σ Nat} (h : Chooses acc choice)
    (ha : lo ≤ a) (hb : b ≤ hi) (hv : acc.At v s) {i j k : Nat} (hi' : Pivotal a b v i)
    (hj : Pivotal a b v j) (hk : Pivotal a b v k) :
    Yields (choice i j k) s fun m s' => acc.At v s' ∧ Pivotal a b v m := by
  have hi'' := hi'.1
  have hj'' := hj.1
  have hk'' := hk.1
  apply (h hv (by omega) (by omega) (by omega)).mono
  intro m s' ⟨hs', hm⟩
  rcases hm with rfl | rfl | rfl
  · exact ⟨hs', hi'⟩
  · exact ⟨hs', hj⟩
  · exact ⟨hs', hk⟩

theorem singleMedian_spec (ha : lo ≤ a) (hb : b ≤ hi) (hv : acc.At v s) (hsize : 3 < b - a) :
    Yields (singleMedian t a b) s fun m s' => acc.At v s' ∧ Pivotal a b v m := by
  unfold singleMedian
  exact median_pivotal ha hb hv (by omega) (by omega) (by omega) (by omega)

theorem medians_spec (ha : lo ≤ a) (hb : b ≤ hi) (hv : acc.At v s) (hsize : 8 ≤ b - a) :
    Yields (medians t a b) s fun m s' => acc.At v s' ∧
      Pivotal a b v m.1 ∧ Pivotal a b v m.2.1 ∧ Pivotal a b v m.2.2 := by
  unfold medians
  dsimp only
  apply (median_pivotal ha hb hv (by omega) (by omega) (by omega) (by omega)).bind
  intro first s ⟨hs, hfirst⟩
  apply (median_pivotal ha hb hs (by omega) (by omega) (by omega) (by omega)).bind
  intro middle s ⟨hs, hmiddle⟩
  apply (median_pivotal ha hb hs (by omega) (by omega) (by omega) (by omega)).bind
  intro lastM s ⟨hs, hlastM⟩
  exact Yields.pure ⟨hs, hfirst, hmiddle, hlastM⟩

theorem sortPivot_spec (ha : lo ≤ a) (hb : b ≤ hi) (hv : acc.At v s) (hsize : 3 < b - a) :
    Yields (sortPivot t a b) s fun m s' => acc.At v s' ∧ Pivotal a b v m := by
  unfold sortPivot singleMedianThreshold
  split
  · exact singleMedian_spec ha hb hv hsize
  · apply (medians_spec ha hb hv (by omega)).bind
    intro m s ⟨hs, hfirst, hmiddle, hlastM⟩
    exact median_chooses.pivotal ha hb hs hfirst hmiddle hlastM

theorem selectPivot_spec (ha : lo ≤ a) (hb : b ≤ hi) (hv : acc.At v s) (hsize : 3 < b - a)
    (k : Nat) : Yields (selectPivot t a b k) s fun m s' => acc.At v s' ∧ Pivotal a b v m := by
  unfold selectPivot singleMedianThreshold
  split
  · exact singleMedian_spec ha hb hv hsize
  · apply (medians_spec ha hb hv (by omega)).bind
    intro m s ⟨hs, hfirst, hmiddle, hlastM⟩
    dsimp only
    split
    · exact min3_chooses.pivotal ha hb hs hfirst hmiddle hlastM
    · split
      · exact max3_chooses.pivotal ha hb hs hfirst hmiddle hlastM
      · exact median_chooses.pivotal ha hb hs hfirst hmiddle hlastM

/-! ## The scans -/

/-- The state shows the contents `v`, and the pivot is `P`. -/
def AtPivot (acc : SliceAccess t α lo hi) (v : Nat → α) (P : α) (s : σ) : Prop :=
  acc.At v s ∧ acc.pivot s = some P

theorem AtPivot.swap (h : AtPivot acc v P s) {i j : Nat} (hi' : lo ≤ i ∧ i < hi)
    (hj : lo ≤ j ∧ j < hi) : Yields (t.swap i j) s fun _ => AtPivot acc (swapAt v i j) P := by
  obtain ⟨⟨hvalid, rfl⟩, hp⟩ := h
  apply (acc.swap_law hvalid hi' hj).mono
  intro _ s' ⟨hvalid', hview, hpivot⟩
  exact ⟨⟨hvalid', hview⟩, hpivot.trans hp⟩

theorem AtPivot.comparePivot (h : AtPivot acc v P s) {j : Nat} (hj : lo ≤ j ∧ j < hi) :
    Yields (t.comparePivot j) s fun c s' => AtPivot acc v P s' ∧ Sign c P (v j) := by
  obtain ⟨⟨hvalid, rfl⟩, hp⟩ := h
  apply (acc.comparePivot_law hvalid hp hj).mono
  intro c s' ⟨hvalid', hview, hpivot, hsign⟩
  exact ⟨⟨⟨hvalid', hview⟩, hpivot⟩, hsign⟩

/-- The scan from the front stops at or in front of a place whose entry is not less
than the pivot, and it has passed only smaller ones. -/
theorem scanUp_spec {i x fuel : Nat} (hv : AtPivot acc v P s) (hi' : lo ≤ i) (hix : i < x)
    (hx : x < hi) (hsentinel : P ≤ v x) (hfuel : x < fuel) :
    Yields (Op.iterate (scanUpPass t) fuel i) s fun r s' => AtPivot acc v P s' ∧
      (i < r.1 ∧ r.1 ≤ x) ∧ r.2 ≤ 0 ∧ Sign r.2 P (v r.1) ∧
        ∀ y, i < y → y < r.1 → v y ≤ P ∧ ¬ P ≤ v y := by
  apply Yields.iterate (I := fun i' s => AtPivot acc v P s ∧ (i ≤ i' ∧ i' < x) ∧
    ∀ y, i < y → y ≤ i' → v y ≤ P ∧ ¬ P ≤ v y) (fun i' => x - i')
  · intro i' s ⟨hs, hrange, hpassed⟩
    unfold scanUpPass
    dsimp only
    apply (hs.comparePivot (j := i' + 1) (by omega)).bind
    intro c s ⟨hs, hsign⟩
    apply Yields.pure
    split
    next r c' heq =>
      split at heq
      · cases heq
      next hc =>
        cases heq
        have hless : v (i' + 1) ≤ P ∧ ¬ P ≤ v (i' + 1) :=
          ⟨hsign.ge.1 (by omega), fun h => hc (hsign.le.2 h)⟩
        have hne : i' + 1 ≠ x := fun h => hless.2 (h ▸ hsentinel)
        refine ⟨⟨hs, by omega, ?_⟩, by omega⟩
        intro y hy hyi
        rcases Nat.eq_or_lt_of_le hyi with rfl | hlt
        · exact hless
        · exact hpassed y hy (by omega)
    next r heq =>
      split at heq
      next hc =>
        cases heq
        exact ⟨hs, by dsimp only; omega, hc, hsign, fun y hy hyi => hpassed y hy (by omega)⟩
      · cases heq
  · omega
  · exact ⟨hv, by omega, fun y hy hyi => by omega⟩

/-- The scan from the back stops at or behind a place whose entry is not greater. -/
theorem scanDown_spec {x : Nat} (hx : lo ≤ x) (hsentinel : v x ≤ P) :
    ∀ j s, AtPivot acc v P s → x < j → j ≤ hi →
      Yields (scanDown t j) s fun r s' => AtPivot acc v P s' ∧ (x ≤ r.1 ∧ r.1 < j) ∧ 0 ≤ r.2 ∧
        Sign r.2 P (v r.1) ∧ ∀ y, r.1 < y → y < j → P ≤ v y ∧ ¬ v y ≤ P := by
  intro j
  induction j with
  | zero => exact fun s _ hlt => absurd hlt (Nat.not_lt_zero x)
  | succ j ih =>
    intro s hs hxj hj
    unfold scanDown
    apply (hs.comparePivot (j := j) (by omega)).bind
    intro c s ⟨hs, hsign⟩
    split
    next hc =>
      exact Yields.pure ⟨hs, by dsimp only; omega, hc, hsign, fun y hy hyj => by omega⟩
    next hc =>
      have hgreater : P ≤ v j ∧ ¬ v j ≤ P := ⟨hsign.le.1 (by omega), fun h => hc (hsign.ge.2 h)⟩
      have hne : x ≠ j := fun h => hgreater.2 (h ▸ hsentinel)
      apply (ih s hs (by omega) (by omega)).mono
      intro r s' ⟨hs', hr, hc', hsign', hpassed⟩
      refine ⟨hs', by omega, hc', hsign', ?_⟩
      intro y hy hyj
      rcases Nat.eq_or_lt_of_le (Nat.le_of_lt_succ hyj) with rfl | hlt
      · exact hgreater
      · exact hpassed y hy hlt

/-! ## The loop -/

/-- What holds between two passes: entries equal to the pivot at both ends, and
those seen so far on their sides. -/
structure Parting (a b : Nat) (P : α) (c : Cursors) (v : Nat → α) : Prop where
  bounds : a < c.p ∧ c.p ≤ c.i + 1 ∧ c.i < c.j ∧ c.j ≤ c.q + 1 ∧ c.q < b
  equalLeft : ∀ x, a ≤ x → x < c.p → v x ≤ P ∧ P ≤ v x
  left : ∀ x, c.p ≤ x → x ≤ c.i → v x ≤ P
  right : ∀ x, c.j ≤ x → x ≤ c.q → P ≤ v x
  equalRight : ∀ x, c.q < x → x < b → v x ≤ P ∧ P ≤ v x
  sentinel : ∃ x, c.i < x ∧ x ≤ c.j ∧ x < b ∧ P ≤ v x

/-- What holds behind the loop: the cursors have met. -/
structure Parted (a b : Nat) (P : α) (c : Cursors) (v : Nat → α) : Prop where
  bounds : a < c.p ∧ c.p ≤ c.j + 1 ∧ c.j ≤ c.q ∧ c.q < b
  equalLeft : ∀ x, a ≤ x → x < c.p → v x ≤ P ∧ P ≤ v x
  left : ∀ x, c.p ≤ x → x ≤ c.j → v x ≤ P
  right : ∀ x, c.j < x → x ≤ c.q → P ≤ v x
  equalRight : ∀ x, c.q < x → x < b → v x ≤ P ∧ P ≤ v x

section Cursors

variable {c : Cursors} {i j : Nat}

theorem Parting.at_i (h : Parting a b P c v) : v c.i ≤ P := by
  have hbounds := h.bounds
  rcases Nat.lt_or_ge c.i c.p with hlt | hge
  · exact (h.equalLeft c.i (by omega) hlt).1
  · exact h.left c.i hge (Nat.le_refl _)

/-- The scans have passed each other. -/
theorem Parting.meet (h : Parting a b P c v) (hi' : c.i < i) (hj : j < c.j) (hij : j ≤ i)
    (hji : i ≤ j + 1) (hup : ∀ y, c.i < y → y < i → v y ≤ P) (hvj : v j ≤ P)
    (hdown : ∀ y, j < y → y < c.j → P ≤ v y) : Parted a b P { c with i, j } v where
  bounds := by
    have := h.bounds
    dsimp only
    omega
  equalLeft := h.equalLeft
  left x hx hxj := by
    dsimp only at hx hxj
    rcases Nat.lt_or_ge c.i x with hlt | hge
    · rcases Nat.eq_or_lt_of_le hxj with rfl | hlt'
      · exact hvj
      · exact hup x hlt (by omega)
    · exact h.left x hx hge
  right x hx hxq := by
    dsimp only at hx hxq
    rcases Nat.lt_or_ge x c.j with hlt | hge
    · exact hdown x hx hlt
    · exact h.right x hge hxq
  equalRight := h.equalRight

/-- The entries that the scans have stopped at change their sides. -/
theorem Parting.exchange (h : Parting a b P c v) (hi' : c.i < i) (hij : i < j) (hj : j < c.j)
    (hup : ∀ y, c.i < y → y < i → v y ≤ P) (hvi : P ≤ v i) (hvj : v j ≤ P)
    (hdown : ∀ y, j < y → y < c.j → P ≤ v y) :
    Parting a b P { c with i, j } (swapAt v i j) := by
  have hbounds := h.bounds
  constructor
  · dsimp only
    omega
  · intro x hx hxp
    dsimp only at hxp
    rw [swapAt_of_ne (by omega) (by omega)]
    exact h.equalLeft x hx hxp
  · intro x hx hxi
    dsimp only at hx hxi
    rcases Nat.eq_or_lt_of_le hxi with rfl | hlt
    · rw [swapAt_left]
      exact hvj
    · rw [swapAt_of_ne (by omega) (by omega)]
      rcases Nat.lt_or_ge c.i x with hlt' | hge
      · exact hup x hlt' hlt
      · exact h.left x hx hge
  · intro x hx hxq
    dsimp only at hx hxq
    rcases Nat.eq_or_lt_of_le hx with rfl | hlt
    · rw [swapAt_right]
      exact hvi
    · rw [swapAt_of_ne (by omega) (by omega)]
      rcases Nat.lt_or_ge x c.j with hlt' | hge
      · exact hdown x hlt hlt'
      · exact h.right x hge hxq
  · intro x hx hxb
    dsimp only at hx
    rw [swapAt_of_ne (by omega) (by omega)]
    exact h.equalRight x hx hxb
  · refine ⟨j, hij, Nat.le_refl j, by omega, ?_⟩
    rw [swapAt_right]
    exact hvi

/-- An entry equal to the pivot goes to the front. -/
theorem Parting.growLeft (h : Parting a b P c v) (hp : c.p ≤ c.i) (hvi : P ≤ v c.i) :
    Parting a b P { c with p := c.p + 1 } (swapAt v c.i c.p) := by
  have hbounds := h.bounds
  constructor
  · dsimp only
    omega
  · intro x hx hxp
    dsimp only at hxp
    rcases Nat.eq_or_lt_of_le (Nat.le_of_lt_succ hxp) with rfl | hlt
    · rw [swapAt_right]
      exact ⟨h.at_i, hvi⟩
    · rw [swapAt_of_ne (by omega) (by omega)]
      exact h.equalLeft x hx hlt
  · intro x hx hxi
    dsimp only at hx hxi
    by_cases heq : x = c.i
    · rw [heq, swapAt_left]
      exact h.left c.p (Nat.le_refl _) hp
    · rw [swapAt_of_ne heq (by omega)]
      exact h.left x (by omega) hxi
  · intro x hx hxq
    dsimp only at hx hxq
    rw [swapAt_of_ne (by omega) (by omega)]
    exact h.right x hx hxq
  · intro x hx hxb
    dsimp only at hx
    rw [swapAt_of_ne (by omega) (by omega)]
    exact h.equalRight x hx hxb
  · obtain ⟨x, hix, hxj, hxb, hle⟩ := h.sentinel
    refine ⟨x, hix, hxj, hxb, ?_⟩
    rw [swapAt_of_ne (by omega) (by omega)]
    exact hle

/-- An entry equal to the pivot goes to the back. -/
theorem Parting.growRight (h : Parting a b P c v) (hq : c.j ≤ c.q) (hvj : v c.j ≤ P) :
    Parting a b P { c with q := c.q - 1 } (swapAt v c.j c.q) := by
  have hbounds := h.bounds
  constructor
  · dsimp only
    omega
  · intro x hx hxp
    dsimp only at hxp
    rw [swapAt_of_ne (by omega) (by omega)]
    exact h.equalLeft x hx hxp
  · intro x hx hxi
    dsimp only at hx hxi
    rw [swapAt_of_ne (by omega) (by omega)]
    exact h.left x hx hxi
  · intro x hx hxq
    dsimp only at hx hxq
    by_cases heq : x = c.j
    · rw [heq, swapAt_left]
      exact h.right c.q hq (Nat.le_refl _)
    · rw [swapAt_of_ne heq (by omega)]
      exact h.right x hx (by omega)
  · intro x hx hxb
    dsimp only at hx
    by_cases heq : x = c.q
    · rw [heq, swapAt_right]
      exact ⟨hvj, h.right c.j (Nat.le_refl _) hq⟩
    · rw [swapAt_of_ne (by omega) heq]
      exact h.equalRight x (by omega) hxb
  · refine ⟨c.j, hbounds.2.2.1, Nat.le_refl _, by omega, ?_⟩
    rw [swapAt_left]
    exact h.right c.q hq (Nat.le_refl _)

theorem Parted.swap (h : Parted a b P c v) {x y : Nat} (hx : c.p ≤ x ∧ x ≤ c.j)
    (hy : c.p ≤ y ∧ y ≤ c.j) : Parted a b P c (swapAt v x y) := by
  have hbounds := h.bounds
  refine ⟨hbounds, fun z hz hzp => ?_, fun z hz hzj => ?_, fun z hz hzq => ?_, fun z hz hzb => ?_⟩
  · rw [swapAt_of_ne (by omega) (by omega)]
    exact h.equalLeft z hz hzp
  · rcases swapAt_cases v x y z with ⟨-, heq⟩ | ⟨-, heq⟩ | ⟨-, -, heq⟩
    · rw [heq]
      exact h.left y hy.1 hy.2
    · rw [heq]
      exact h.left x hx.1 hx.2
    · rw [heq]
      exact h.left z hz hzj
  · rw [swapAt_of_ne (by omega) (by omega)]
    exact h.right z hz hzq
  · rw [swapAt_of_ne (by omega) (by omega)]
    exact h.equalRight z hz hzb

end Cursors

/-- The state shows a permutation of `v` with the property `Q`, and the pivot is
`P`. -/
def LeavesPivot (acc : SliceAccess t α lo hi) (a b : Nat) (v : Nat → α) (P : α)
    (Q : (Nat → α) → Prop) (s : σ) : Prop :=
  ∃ w, AtPivot acc w P s ∧ Rearranged a b v w ∧ Q w

theorem LeavesPivot.after {u : Nat → α} {Q : (Nat → α) → Prop} (hre : Rearranged a b u v)
    (h : LeavesPivot acc a b v P Q s) : LeavesPivot acc a b u P Q s := by
  obtain ⟨w, hw, hre', hq⟩ := h
  exact ⟨w, hw, hre.trans hre', hq⟩

/-- An exchange that is made if `d` holds. -/
theorem when_swap_spec {d : Bool} {i j : Nat} (hv : AtPivot acc v P s) (ha : lo ≤ a) (hb : b ≤ hi)
    (hi' : a ≤ i ∧ i < b) (hj : a ≤ j ∧ j < b) :
    Yields (Op.when d (t.swap i j)) s fun _ => LeavesPivot acc a b v P fun w =>
      w = if d then swapAt v i j else v := by
  cases d with
  | true =>
    apply (hv.swap (i := i) (j := j) (by omega) (by omega)).mono
    intro _ s' hs'
    exact ⟨_, hs', .swap hi' hj v, rfl⟩
  | false => exact Yields.pure ⟨v, hv, .refl a b v, rfl⟩

/-- One pass of the loop: the cursors come closer, or they have met. -/
theorem partitionPass_spec {c : Cursors} (ha : lo ≤ a) (hb : b ≤ hi) (hv : AtPivot acc v P s)
    (h : Parting a b P c v) :
    Yields (partitionPass t b c) s fun r s' => match r with
      | .inl c' => c'.j - c'.i < c.j - c.i ∧ LeavesPivot acc a b v P (Parting a b P c') s'
      | .inr c' => LeavesPivot acc a b v P (Parted a b P c') s' := by
  have hbounds := h.bounds
  obtain ⟨x, hix, hxj, hxb, hsentinel⟩ := h.sentinel
  unfold partitionPass
  apply (scanUp_spec hv (by omega) hix (by omega) hsentinel hxb).bind
  intro ⟨i, leftCmp⟩ s ⟨hs, hir, hleft, hleftSign, hup⟩
  apply (scanDown_spec (by omega) h.at_i c.j s hs hbounds.2.2.1 (by omega)).bind
  intro ⟨j, rightCmp⟩ s ⟨hs, hjr, hright, hrightSign, hdown⟩
  dsimp only at *
  have hvi : P ≤ v i := hleftSign.le.1 hleft
  have hvj : v j ≤ P := hrightSign.ge.1 hright
  have hup' : ∀ y, c.i < y → y < i → v y ≤ P := fun y hy hyi => (hup y hy hyi).1
  have hdown' : ∀ y, j < y → y < c.j → P ≤ v y := fun y hy hyj => (hdown y hy hyj).1
  split
  next hmeet =>
    have hclose : i ≤ j + 1 := by
      by_contra hfar
      exact (hdown (j + 1) (by omega) (by omega)).2 (hup (j + 1) (by omega) (by omega)).1
    have hparted := h.meet hir.1 hjr.2 hmeet hclose hup' hvj hdown'
    apply (when_swap_spec hs ha hb (i := i) (j := c.p) (by omega) (by omega)).bind
    intro _ s ⟨w, hw, hre, heq⟩
    apply Yields.pure
    refine ⟨w, hw, hre, ?_⟩
    rw [heq]
    split
    next hd =>
      have hd' := of_decide_eq_true hd
      exact hparted.swap (by dsimp only; omega) (by dsimp only; omega)
    next => exact hparted
  next hapart =>
    have hexchange := h.exchange hir.1 (by omega) hjr.2 hup' hvi hvj hdown'
    apply (hs.swap (i := i) (j := j) (by omega) (by omega)).bind
    intro _ s hs
    have hre₁ : Rearranged a b v (swapAt v i j) := .swap (by omega) (by omega) v
    apply (when_swap_spec hs ha hb (i := i) (j := c.p) (by omega) (by omega)).bind
    intro _ s ⟨w₂, hw₂, hre₂, heq₂⟩
    have hgrow : Parting a b P { c with i, j, p := if rightCmp = 0 then c.p + 1 else c.p } w₂ ∧
        w₂ j = v i := by
      rw [heq₂]
      by_cases hzero : rightCmp = 0
      · rw [if_pos hzero, if_pos (decide_eq_true hzero)]
        refine ⟨hexchange.growLeft (by dsimp only; omega) ?_, ?_⟩
        · dsimp only
          rw [swapAt_left]
          exact hrightSign.le.1 (by omega)
        · rw [swapAt_of_ne (by omega) (by omega), swapAt_right]
      · rw [if_neg hzero, if_neg (by simpa using hzero)]
        exact ⟨hexchange, swapAt_right v i j⟩
    apply (when_swap_spec hw₂ ha hb (i := j) (j := c.q) (by omega) (by omega)).bind
    intro _ s ⟨w₃, hw₃, hre₃, heq₃⟩
    apply Yields.pure
    refine ⟨by dsimp only; omega, w₃, hw₃, (hre₁.trans hre₂).trans hre₃, ?_⟩
    rw [heq₃]
    by_cases hzero : leftCmp = 0
    · rw [if_pos hzero, if_pos (decide_eq_true hzero)]
      refine hgrow.1.growRight (by dsimp only; omega) ?_
      dsimp only
      rw [hgrow.2]
      exact hleftSign.ge.1 (by omega)
    · have hzero' : ¬ decide (leftCmp = 0) = true := by simpa using hzero
      rw [if_neg hzero, if_neg hzero']
      exact hgrow.1

/-! ## The partition -/

/-- The range in three parts: not greater than some entry, equal to it, and not
less. -/
def ThreeParts (a j i b : Nat) (v : Nat → α) : Prop :=
  ∃ P, (∀ x, a ≤ x → x < j → v x ≤ P) ∧ (∀ x, j ≤ x → x < i → v x ≤ P ∧ P ≤ v x) ∧
    ∀ x, i ≤ x → x < b → P ≤ v x

/-- A loop that exchanges mirrored places. -/
theorem mirror_spec {n S : Nat} {f g : Nat → Nat} {G : α → Prop} (ha : lo ≤ a) (hb : b ≤ hi)
    (hv : acc.At v s) (hf : ∀ x, x < n → a ≤ f x ∧ f x < b) (hg : ∀ x, x < n → a ≤ g x ∧ g x < b)
    (hinj : ∀ x y, x < n → y < n → f x = f y → x = y) (hsum : ∀ x, x < n → f x + g x = S)
    (hG : ∀ x, x < n → G (v (f x))) :
    Yields ((List.range n).forM fun x => t.swap (f x) (g x)) s fun _ =>
      acc.Leaves a b v fun w => ∀ x, x < n → G (w (g x)) := by
  rw [List.range_eq_range']
  apply (Yields.forM_range' (I := fun k => acc.Leaves a b v (Mirrored G n f g k)) n 0 s ?_
    (hv.leaves (.start hG))).mono
  · intro _ s' h
    apply h.mono
    intro w _ hw x hx
    exact hw.done x (by omega)
  · intro k s' _ hk ⟨w, hw, hre, hm⟩
    have hkn : k < n := by omega
    have hfk := hf k hkn
    have hgk := hg k hkn
    apply (hw.swap (i := f k) (j := g k) (by omega) (by omega)).mono
    intro _ s'' hw'
    exact ⟨_, hw', hre.trans (.swap hfk hgk w), hm.step hkn hinj hsum⟩

/-- The loops behind the partition bring the equal entries to the middle. -/
theorem Parted.close {c : Cursors} (ha : lo ≤ a) (hb : b ≤ hi) (hv : acc.At v s)
    (h : Parted a b P c v) :
    Yields (do
      (List.range (c.p - a)).forM fun n => t.swap (a + n) (c.j - n)
      (List.range (b - 1 - c.q)).forM fun n => t.swap (b - 1 - n) (c.j + 1 + n)) s fun _ =>
        acc.Leaves a b v
          (ThreeParts a (c.j + 1 - (c.p - a)) (c.j + 1 + (b - 1 - c.q)) b) := by
  have hbounds := h.bounds
  have hfront : ∀ x, a ≤ x → x < c.j + 1 → v x ≤ P := by
    intro x hx hxj
    rcases Nat.lt_or_ge x c.p with hlt | hge
    · exact (h.equalLeft x hx hlt).1
    · exact h.left x hge (by omega)
  have hback : ∀ x, c.j + 1 ≤ x → x < b → P ≤ v x := by
    intro x hx hxb
    rcases Nat.lt_or_ge c.q x with hlt | hge
    · exact (h.equalRight x hlt hxb).2
    · exact h.right x hx hge
  apply (mirror_spec (n := c.p - a) (S := a + c.j) (f := fun n => a + n) (g := fun n => c.j - n)
    (a := a) (b := c.j + 1) (G := fun z => P ≤ z) ha (by omega) hv
    (fun x hx => by omega) (fun x hx => by omega) (fun x y _ _ heq => by omega)
    (fun x hx => by omega) (fun x hx => (h.equalLeft (a + x) (by omega) (by omega)).2)).bind
  intro _ s₁ ⟨u, hu, hre, hgood⟩
  have houter : ∀ x, c.j + 1 ≤ x → u x = v x := fun x hx => hre.outside (by omega)
  apply (mirror_spec (n := b - 1 - c.q) (S := b + c.j) (f := fun n => b - 1 - n)
    (g := fun n => c.j + 1 + n) (a := c.j + 1) (b := b) (G := fun z => z ≤ P) (by omega) hb hu
    (fun x hx => by omega) (fun x hx => by omega) (fun x y hx hy heq => by omega)
    (fun x hx => by omega) ?_).mono
  · intro _ s₂ ⟨w, hw, hre', hgood'⟩
    have hinner : ∀ x, x < c.j + 1 → w x = u x := fun x hx => hre'.outside (by omega)
    have hfront' := hre.forall_range (P := fun z => z ≤ P) hfront
    have hback' : ∀ x, c.j + 1 ≤ x → x < b → P ≤ w x := by
      apply hre'.forall_range (P := fun z => P ≤ z)
      intro x hx hxb
      rw [houter x hx]
      exact hback x hx hxb
    refine ⟨w, hw, (hre.mono (Nat.le_refl a) (by omega)).trans (hre'.mono (by omega) (Nat.le_refl b)),
      P, fun x hx hxj => ?_, fun x hx hxi => ?_, fun x hx hxb => hback' x (by omega) hxb⟩
    · rw [hinner x (by omega)]
      exact hfront' x hx (by omega)
    · rcases Nat.lt_or_ge x (c.j + 1) with hlt | hge
      · rw [hinner x hlt]
        have hmid := hgood (c.j - x) (by omega)
        rw [show c.j - (c.j - x) = x by omega] at hmid
        exact ⟨hfront' x (by omega) hlt, hmid⟩
      · have hmid := hgood' (x - (c.j + 1)) (by omega)
        rw [show c.j + 1 + (x - (c.j + 1)) = x by omega] at hmid
        exact ⟨hmid, hback' x hge (by omega)⟩
  · intro x hx
    rw [houter _ (by omega)]
    exact (h.equalRight (b - 1 - x) (by omega) (by omega)).1

/-- `three_way_partition` returns the ends of the first and the last part. -/
theorem threeWayPartition_spec {pivot : Nat} (ha : lo ≤ a) (hb : b ≤ hi) (hv : acc.At v s)
    (h : Pivotal a b v pivot) :
    Yields (threeWayPartition t a b pivot) s fun r s' => ∃ j i : Nat,
      r = ((j : Int) - 1, (i : Int)) ∧ (a ≤ j ∧ j < i ∧ i ≤ b) ∧
        acc.Leaves a b v (ThreeParts a j i b) s' := by
  obtain ⟨hp, x, hx, hne, hle⟩ := h
  unfold threeWayPartition
  dsimp only
  obtain ⟨hvalid, rfl⟩ := hv
  apply (acc.setPivot_law hvalid (i := pivot) (by omega)).bind
  intro _ s₁ ⟨hvalid₁, hview₁, hpivot₁⟩
  have hs₁ : AtPivot acc (acc.view s) (acc.view s pivot) s₁ := ⟨⟨hvalid₁, hview₁⟩, hpivot₁⟩
  apply (hs₁.swap (i := a) (j := pivot) (by omega) (by omega)).bind
  intro _ s₂ hs₂
  have hre₂ : Rearranged a b (acc.view s) (swapAt (acc.view s) a pivot) :=
    .swap (by omega) hp _
  have hstart : Parting a b (acc.view s pivot) { i := a, j := b, p := a + 1, q := b - 1 }
      (swapAt (acc.view s) a pivot) := by
    constructor
    · dsimp only
      omega
    · intro y hy hyp
      dsimp only at hyp
      rw [show y = a by omega, swapAt_left]
      exact ⟨le_refl _, le_refl _⟩
    · intro y hy hyi
      dsimp only at hy hyi
      omega
    · intro y hy hyq
      dsimp only at hy hyq
      omega
    · intro y hy hyb
      dsimp only at hy
      omega
    · -- the other place, or the one it has been exchanged with
      by_cases hxa : x = a
      · refine ⟨pivot, by dsimp only; omega, by dsimp only; omega, hp.2, ?_⟩
        rw [swapAt_right, ← hxa]
        exact hle
      · refine ⟨x, by dsimp only; omega, by dsimp only; omega, hx.2, ?_⟩
        rw [swapAt_of_ne hxa hne]
        exact hle
  have hloop : Yields (Op.iterate (partitionPass t b) (b + 1)
      { i := a, j := b, p := a + 1, q := b - 1 }) s₂ fun c =>
        LeavesPivot acc a b (swapAt (acc.view s) a pivot) (acc.view s pivot)
          (Parted a b (acc.view s pivot) c) := by
    apply Yields.iterate (I := fun c => LeavesPivot acc a b (swapAt (acc.view s) a pivot)
      (acc.view s pivot) (Parting a b (acc.view s pivot) c)) (fun c => c.j - c.i)
    · intro c s' ⟨w, hw, hre, hpart⟩
      apply (partitionPass_spec ha hb hw hpart).mono
      intro r s'' hr
      cases r with
      | inl c' => exact ⟨hr.2.after hre, hr.1⟩
      | inr c' => exact hr.after hre
    · dsimp only
      omega
    · exact ⟨_, hs₂, .refl a b _, hstart⟩
  apply hloop.bind
  intro c s₃ ⟨w, hw, hre, hpart⟩
  have hbounds := hpart.bounds
  rw [← bind_assoc]
  apply (hpart.close ha hb hw.1).bind
  intro _ s₄ hs₄
  apply Yields.pure
  refine ⟨c.j + 1 - (c.p - a), c.j + 1 + (b - 1 - c.q), ?_, by omega,
    (hs₄.after hre).after hre₂⟩
  apply Prod.ext
  · dsimp only
    omega
  · dsimp only
    omega

end LuceneRust.Util.Sorter
