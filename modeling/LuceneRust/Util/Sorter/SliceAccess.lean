import LuceneRust.Lib.Rearrange
import LuceneRust.Util.Sorter.Intro

/-!
# Targets that are slices

`SliceAccess t α lo hi` says that the target `t` gives access to the places
`lo..hi` of a slice of entries of the type `α`, with a total preorder.  It says
nothing of what the hooks do at other places, so what is proved of all such
targets holds of one that panics there.

* `insertionSort_spec` and `heapSort_spec`: the two simple sorts.
-/

namespace LuceneRust.Util.Sorter

open RustSem StateHoare Rearrange

variable {σ α : Type} [Preorder α]

/-- The sign of a comparison of `a` with `b`. -/
structure Sign (c : Int) (a b : α) : Prop where
  le : c ≤ 0 ↔ a ≤ b
  ge : 0 ≤ c ↔ b ≤ a

theorem Sign.le_of_not {c : Int} {a b : α} (h : Sign c a b) (hc : ¬ 0 < c) : a ≤ b :=
  h.le.1 (by omega)

theorem Sign.ge_of_pos {c : Int} {a b : α} (h : Sign c a b) (hc : 0 < c) : b ≤ a :=
  h.ge.1 (by omega)

/-- The entries that a state stands for. -/
structure SliceView (σ α : Type) where
  /-- the states that the target can be in -/
  Valid : σ → Prop
  /-- what stands at each place -/
  view : σ → Nat → α

/-- The hooks of `t` are those of a slice, at the places `lo..hi`. -/
structure SliceAccess (t : IntroTarget σ) (α : Type) [Preorder α] (lo hi : Nat) extends
    SliceView σ α where
  /-- the pivot, once there is one -/
  pivot : σ → Option α
  swap_law : ∀ {s i j}, Valid s → lo ≤ i ∧ i < hi → lo ≤ j ∧ j < hi →
    Yields (t.swap i j) s fun _ s' =>
      Valid s' ∧ view s' = swapAt (view s) i j ∧ pivot s' = pivot s
  setPivot_law : ∀ {s i}, Valid s → lo ≤ i ∧ i < hi →
    Yields (t.setPivot i) s fun _ s' =>
      Valid s' ∧ view s' = view s ∧ pivot s' = some (view s i)
  comparePivot_law : ∀ {s j P}, Valid s → pivot s = some P → lo ≤ j ∧ j < hi →
    Yields (t.comparePivot j) s fun c s' =>
      Valid s' ∧ view s' = view s ∧ pivot s' = some P ∧ Sign c P (view s j)
  compare_law : ∀ {s i j}, Valid s → lo ≤ i ∧ i < hi → lo ≤ j ∧ j < hi →
    Yields (t.compare i j) s fun c s' =>
      Valid s' ∧ view s' = view s ∧ Sign c (view s i) (view s j)

namespace SliceView

variable {α : Type} (acc : SliceView σ α)

/-- The state shows the contents `v`. -/
def At (v : Nat → α) (s : σ) : Prop := acc.Valid s ∧ acc.view s = v

/-- The state shows the contents `v` with the range `a..b` permuted, and they have
the property `Q`. -/
def Leaves (a b : Nat) (v : Nat → α) (Q : (Nat → α) → Prop) (s : σ) : Prop :=
  ∃ w, acc.At w s ∧ Rearranged a b v w ∧ Q w

variable {acc} {a b : Nat} {s : σ} {u v w : Nat → α} {Q Q' : (Nat → α) → Prop}

theorem Leaves.intro (h : acc.At w s) (hre : Rearranged a b v w) (hQ : Q w) :
    acc.Leaves a b v Q s := ⟨w, h, hre, hQ⟩

theorem At.leaves (h : acc.At v s) (hQ : Q v) : acc.Leaves a b v Q s :=
  ⟨v, h, Rearranged.refl a b v, hQ⟩

theorem Leaves.mono (h : acc.Leaves a b v Q s) (hQ : ∀ w, Rearranged a b v w → Q w → Q' w) :
    acc.Leaves a b v Q' s := by
  obtain ⟨w, hw, hre, hq⟩ := h
  exact ⟨w, hw, hre, hQ w hre hq⟩

/-- A change of the range in front of another one. -/
theorem Leaves.after (hre : Rearranged a b u v) (h : acc.Leaves a b v Q s) :
    acc.Leaves a b u Q s := by
  obtain ⟨w, hw, hre', hq⟩ := h
  exact ⟨w, hw, hre.trans hre', hq⟩

/-- A change of a smaller range. -/
theorem Leaves.widen {a' b' : Nat} (h : acc.Leaves a b v Q s) (ha : a' ≤ a) (hb : b ≤ b') :
    acc.Leaves a' b' v Q s := by
  obtain ⟨w, hw, hre, hq⟩ := h
  exact ⟨w, hw, hre.mono ha hb, hq⟩

/-- The rule for two programs in sequence that permute a range. -/
theorem leaves_bind {β γ : Type} {x : Run σ β} {f : β → Run σ γ}
    (hx : Yields x s fun _ => acc.Leaves a b v Q)
    (hf : ∀ r s w, acc.At w s → Rearranged a b v w → Q w →
      Yields (f r) s fun _ => acc.Leaves a b w Q') :
    Yields (x >>= f) s fun _ => acc.Leaves a b v Q' := by
  apply hx.bind
  intro r s' ⟨w, hw, hre, hq⟩
  exact (hf r s' w hw hre hq).mono fun _ _ h => Leaves.after hre h

end SliceView

open SliceView

section Access

variable {t : IntroTarget σ} {lo hi : Nat} {acc : SliceAccess t α lo hi} {s : σ} {v : Nat → α}

theorem SliceView.At.swap (h : acc.At v s) {i j : Nat} (hi' : lo ≤ i ∧ i < hi)
    (hj : lo ≤ j ∧ j < hi) : Yields (t.swap i j) s fun _ => acc.At (swapAt v i j) := by
  obtain ⟨hvalid, rfl⟩ := h
  exact (acc.swap_law hvalid hi' hj).mono fun _ _ h => ⟨h.1, h.2.1⟩

theorem SliceView.At.compare (h : acc.At v s) {i j : Nat} (hi' : lo ≤ i ∧ i < hi)
    (hj : lo ≤ j ∧ j < hi) :
    Yields (t.compare i j) s fun c s' => acc.At v s' ∧ Sign c (v i) (v j) := by
  obtain ⟨hvalid, rfl⟩ := h
  exact (acc.compare_law hvalid hi' hj).mono fun _ _ h => ⟨⟨h.1, h.2.1⟩, h.2.2⟩

end Access

variable {t : IntroTarget σ} {lo hi : Nat} {acc : SliceAccess t α lo hi}

/-! ## Insertion sort -/

/-- The places up to `i` are in order but for what is at `current`, which is not
greater than what is behind it. -/
structure Sinking (a current i : Nat) (v : Nat → α) : Prop where
  except : ∀ x y, a ≤ x → x < y → y ≤ i → x ≠ current → y ≠ current → v x ≤ v y
  behind : ∀ y, current < y → y ≤ i → v current ≤ v y

theorem Sinking.start {a i : Nat} {v : Nat → α} (h : SortedOn a i v) : Sinking a i i v where
  except x y hx hxy hy _ hne := h x y hx (by omega) (by omega)
  behind y hy hyi := absurd hyi (by omega)

theorem Sinking.move {a previous i : Nat} {v : Nat → α} (h : Sinking a (previous + 1) i v)
    (ha : a ≤ previous) (hi : previous + 1 ≤ i) (hle : v (previous + 1) ≤ v previous) :
    Sinking a previous i (swapAt v previous (previous + 1)) := by
  constructor
  · intro x y hx hxy hy hxne hyne
    rcases swapAt_cases v previous (previous + 1) x with ⟨rfl, -⟩ | ⟨rfl, hxv⟩ | ⟨-, hxc, hxv⟩
    · exact absurd rfl hxne
    · rw [hxv, swapAt_of_ne (by omega) (by omega)]
      exact h.except previous y ha (by omega) hy (by omega) (by omega)
    · rcases swapAt_cases v previous (previous + 1) y with ⟨rfl, -⟩ | ⟨rfl, hyv⟩ | ⟨-, hyc, hyv⟩
      · exact absurd rfl hyne
      · rw [hxv, hyv]
        exact h.except x previous hx (by omega) (by omega) hxc (by omega)
      · rw [hxv, hyv]
        exact h.except x y hx hxy hy hxc hyc
  · intro y hy hyi
    rw [swapAt_left]
    rcases Nat.lt_or_ge (previous + 1) y with hlt | hge
    · rw [swapAt_of_ne (by omega) (by omega)]
      exact h.behind y hlt hyi
    · have : y = previous + 1 := by omega
      rw [this, swapAt_right]
      exact hle

/-- The entry has sunk to its place: to the start of the range, or behind one that
is not greater. -/
theorem Sinking.sorted {a current i : Nat} {v : Nat → α} (h : Sinking a current i v)
    (hstop : ∀ x, a ≤ x → x < current → v x ≤ v current) : SortedOn a (i + 1) v := by
  intro x y hx hxy hy
  rcases Nat.eq_or_lt_of_le hxy with rfl | hlt
  · exact le_refl _
  · by_cases hxc : x = current
    · rw [hxc]
      exact h.behind y (by omega) (by omega)
    · by_cases hyc : y = current
      · rw [hyc]
        exact hstop x hx (by omega)
      · exact h.except x y hx hlt (by omega) hxc hyc

theorem sink_spec {a i : Nat} (ha : lo ≤ a) (hi' : i < hi) :
    ∀ current s v, acc.At v s → a < current → current ≤ i → Sinking a current i v →
      Yields (sink t a current) s fun _ => acc.Leaves a (i + 1) v (SortedOn a (i + 1)) := by
  intro current
  induction current with
  | zero => exact fun s v _ hlt => absurd hlt (Nat.not_lt_zero _)
  | succ previous ih =>
    intro s v hv hlt hle hs
    unfold sink
    apply (hv.compare (i := previous) (j := previous + 1) (by omega) (by omega)).bind
    intro c s hc
    split
    next hpos =>
      have hmove := hs.move (by omega) hle (hc.2.ge_of_pos hpos)
      apply (hc.1.swap (i := previous) (j := previous + 1) (by omega) (by omega)).bind
      intro _ s hw
      have hre : Rearranged a (i + 1) v (swapAt v previous (previous + 1)) :=
        .swap (by omega) (by omega) v
      split
      next heq =>
        exact Yields.pure (.intro hw hre (hmove.sorted fun x hx hx' => by omega))
      next hne =>
        exact (ih s _ hw (by omega) (by omega) hmove).mono fun _ _ h => Leaves.after hre h
    next hpos =>
      have hle' := hc.2.le_of_not hpos
      apply Yields.pure
      apply hc.1.leaves
      apply hs.sorted
      intro x hx hx'
      rcases Nat.eq_or_lt_of_le (Nat.le_of_lt_succ hx') with rfl | hlt'
      · exact hle'
      · exact le_trans (hs.except x previous hx hlt' (by omega) (by omega) (by omega)) hle'

/-- `insertion_sort` leaves the range in order. -/
theorem insertionSort_spec {a b : Nat} {s : σ} {v : Nat → α} (ha : lo ≤ a) (hb : b ≤ hi)
    (hv : acc.At v s) :
    Yields (insertionSort t a b) s fun _ => acc.Leaves a b v (SortedOn a b) := by
  have hloop := Yields.forM_range' (g := fun i => sink t a i)
    (I := fun i => acc.Leaves a b v (SortedOn a i)) (b - (a + 1)) (a + 1) s ?_
    (hv.leaves (SortedOn.of_short v (Nat.le_refl _)))
  · apply hloop.mono
    intro _ s' h
    apply h.mono
    intro w _ hw
    rcases Nat.le_total b (a + 1) with hle | hle
    · exact SortedOn.of_short w hle
    · rwa [show a + 1 + (b - (a + 1)) = b by omega] at hw
  · intro i s' hai hib ⟨w, hw, hre, hsorted⟩
    apply (sink_spec ha (by omega) i s' w hw (by omega) (Nat.le_refl i)
      (Sinking.start hsorted)).mono
    intro _ s'' h
    exact Leaves.after hre (h.widen (Nat.le_refl a) (by omega))

/-! ## Heap sort -/

theorem heapParent_lt {a c : Nat} (h : a < c) : heapParent a c < c := by
  unfold heapParent
  omega

theorem le_heapParent {a : Nat} (c : Nat) : a ≤ heapParent a c := Nat.le_add_left _ _

theorem heapParent_eq {a i c : Nat} (hi' : a ≤ i) (hc : a < c) :
    heapParent a c = i ↔ c = heapChild a i ∨ c = heapChild a i + 1 := by
  unfold heapParent heapChild
  omega

theorem lt_heapChild {a i : Nat} (h : a ≤ i) : i < heapChild a i := by
  unfold heapChild
  omega

/-- From `m` on, no parent in `a..b` is less than its children. -/
def Heap (a b m : Nat) (v : Nat → α) : Prop :=
  ∀ c, a < c → c < b → m ≤ heapParent a c → v c ≤ v (heapParent a c)

/-- A heap but for the children of `i`, which are not greater than the parent of
`i`. -/
structure HeapExcept (a b m i : Nat) (v : Nat → α) : Prop where
  except : ∀ c, a < c → c < b → m ≤ heapParent a c → heapParent a c ≠ i →
    v c ≤ v (heapParent a c)
  grand : ∀ c, a < c → c < b → heapParent a c = i → a < i → m ≤ heapParent a i →
    v c ≤ v (heapParent a i)

theorem Heap.le_root {a b : Nat} {v : Nat → α} (h : Heap a b a v) (x : Nat) (ha : a ≤ x)
    (hb : x < b) : v x ≤ v a := by
  induction x using Nat.strong_induction_on with
  | h x ih =>
    rcases Nat.eq_or_lt_of_le ha with rfl | hlt
    · exact le_refl _
    · have hp := heapParent_lt hlt
      have hpa := le_heapParent (a := a) x
      exact le_trans (h x hlt hb hpa) (ih _ hp hpa (by omega))

/-- The greatest child `d` of `i` goes up. -/
theorem HeapExcept.move {a b m i d : Nat} {v : Nat → α} (h : HeapExcept a b m i v) (hi' : a ≤ i)
    (hm : m ≤ i) (hd : d < b) (hchild : d = heapChild a i ∨ d = heapChild a i + 1)
    (hle : v i ≤ v d) (hsib : ∀ c, a < c → c < b → heapParent a c = i → v c ≤ v d) :
    HeapExcept a b m d (swapAt v i d) := by
  have hid : i < d := by
    have := lt_heapChild hi'
    omega
  have hpd : heapParent a d = i := (heapParent_eq hi' (by omega)).2 hchild
  constructor
  · intro c hc hcb hmc hpc
    by_cases hpi : heapParent a c = i
    · rw [hpi, swapAt_left]
      by_cases hcd : c = d
      · rw [hcd, swapAt_right]
        exact hle
      · have hci : c ≠ i := by
          have := heapParent_lt hc
          omega
        rw [swapAt_of_ne hci hcd]
        exact hsib c hc hcb hpi
    · have hcd : c ≠ d := by
        rintro rfl
        exact hpi hpd
      rw [swapAt_of_ne hpi hpc]
      by_cases hci : c = i
      · rw [hci, swapAt_left]
        exact h.grand d (by omega) hd hpd (by omega) (by rwa [hci] at hmc)
      · rw [swapAt_of_ne hci hcd]
        exact h.except c hc hcb hmc hpi
  · intro c hc hcb hpc hd' hmd
    have hcd : d < c := by
      have := heapParent_lt hc
      omega
    rw [hpd, swapAt_left, swapAt_of_ne (by omega) (by omega)]
    have := h.except c hc hcb (by omega) (by omega)
    rwa [hpc] at this

theorem HeapExcept.heap {a b m i : Nat} {v : Nat → α} (h : HeapExcept a b m i v)
    (hchild : ∀ c, a < c → c < b → heapParent a c = i → v c ≤ v i) : Heap a b m v := by
  intro c hc hcb hmc
  by_cases hpi : heapParent a c = i
  · rw [hpi]
    exact hchild c hc hcb hpi
  · exact h.except c hc hcb hmc hpi

theorem lessThanRight_spec {b : Nat} {s : σ} {v : Nat → α} (i right : Nat) (hv : acc.At v s)
    (hi' : lo ≤ i ∧ i < hi) (hr : lo ≤ right) (hb : b ≤ hi) :
    Yields (lessThanRight t i right b) s fun less s' => acc.At v s' ∧
      (less = true → right < b ∧ v i ≤ v right) ∧ (less = false → right < b → v right ≤ v i) := by
  unfold lessThanRight
  split
  next hlt =>
    apply (hv.compare hi' (j := right) (by omega)).bind
    intro c s hc
    apply Yields.pure
    refine ⟨hc.1, fun h => ⟨hlt, hc.2.le.1 ?_⟩, fun h _ => hc.2.ge.1 ?_⟩
    · have := of_decide_eq_true h
      omega
    · have := of_decide_eq_false h
      omega
  next hlt =>
    apply Yields.pure
    exact ⟨hv, ⟨fun h => (Bool.false_ne_true h).elim, fun _ h => absurd h hlt⟩⟩

/-- One pass of `sift_down`: the heap is repaired, or the hole moves down. -/
theorem siftPass_spec {a b m i : Nat} {s : σ} {v : Nat → α} (ha : lo ≤ a) (hb : b ≤ hi)
    (hi' : a ≤ i) (hib : i < b) (hm : m ≤ i) (hv : acc.At v s) (h : HeapExcept a b m i v) :
    Yields (siftPass t a b i) s fun r s' => match r with
      | .inl d => (i < d ∧ d < b) ∧ acc.Leaves a b v (HeapExcept a b m d) s'
      | .inr _ => acc.Leaves a b v (Heap a b m) s' := by
  have hleft := lt_heapChild hi'
  unfold siftPass
  dsimp only
  generalize hc : heapChild a i = left at hleft
  have hchild : ∀ c, a < c → heapParent a c = i → c = left ∨ c = left + 1 := by
    intro c hac hpc
    rw [← hc]
    exact (heapParent_eq hi' hac).1 hpc
  -- the child `d` goes up
  have hgo : ∀ d s', acc.At v s' → (d = left ∨ d = left + 1) → d < b → v i ≤ v d →
      (∀ c, a < c → c < b → heapParent a c = i → v c ≤ v d) →
      Yields (t.swap i d) s' fun _ s'' =>
        (i < d ∧ d < b) ∧ acc.Leaves a b v (HeapExcept a b m d) s'' := by
    intro d s' hs' hd hdb hle hsib
    apply (hs'.swap (i := i) (j := d) (by omega) (by omega)).mono
    intro _ s'' hs''
    exact ⟨by omega, .intro hs'' (.swap (by omega) (by omega) v)
      (h.move hi' hm hdb (by omega) hle hsib)⟩
  split
  next hlb =>
    apply (hv.compare (i := i) (j := left) (by omega) (by omega)).bind
    intro c s hcs
    split
    next hneg =>
      have hle : v i ≤ v left := hcs.2.le.1 (by omega)
      apply (lessThanRight_spec left (left + 1) hcs.1 (by omega) (by omega) hb).bind
      intro less s ⟨hs, hyes, hno⟩
      cases less with
      | true =>
        obtain ⟨hrb, hlr⟩ := hyes rfl
        apply (hgo (left + 1) s hs (Or.inr rfl) hrb (le_trans hle hlr) ?_).bind
        · exact fun _ s' h => Yields.pure h
        · intro c hac hcb hpc
          rcases hchild c hac hpc with rfl | rfl
          · exact hlr
          · exact le_refl _
      | false =>
        apply (hgo left s hs (Or.inl rfl) hlb hle ?_).bind
        · exact fun _ s' h => Yields.pure h
        · intro c hac hcb hpc
          rcases hchild c hac hpc with rfl | rfl
          · exact le_refl _
          · exact hno rfl hcb
    next hneg =>
      have hge : v left ≤ v i := hcs.2.ge.1 (by omega)
      apply (lessThanRight_spec i (left + 1) hcs.1 (by omega) (by omega) hb).bind
      intro less s ⟨hs, hyes, hno⟩
      cases less with
      | true =>
        obtain ⟨hrb, hir⟩ := hyes rfl
        apply (hgo (left + 1) s hs (Or.inr rfl) hrb hir ?_).bind
        · exact fun _ s' h => Yields.pure h
        · intro c hac hcb hpc
          rcases hchild c hac hpc with rfl | rfl
          · exact le_trans hge hir
          · exact le_refl _
      | false =>
        apply Yields.pure
        apply hs.leaves
        apply h.heap
        intro c hac hcb hpc
        rcases hchild c hac hpc with rfl | rfl
        · exact hge
        · exact hno rfl hcb
  next hlb =>
    apply Yields.pure
    apply hv.leaves
    apply h.heap
    intro c hac hcb hpc
    have := hchild c hac hpc
    omega

/-- `sift_down` repairs the heap. -/
theorem siftDown_spec {a b m i : Nat} {s : σ} {v : Nat → α} (ha : lo ≤ a) (hb : b ≤ hi)
    (hi' : a ≤ i) (hib : i < b) (hm : m ≤ i) (hv : acc.At v s) (h : HeapExcept a b m i v) :
    Yields (siftDown t i a b) s fun _ => acc.Leaves a b v (Heap a b m) := by
  apply Yields.iterate (I := fun i s => (a ≤ i ∧ i < b ∧ m ≤ i) ∧
    acc.Leaves a b v (HeapExcept a b m i) s) (fun i => b - i)
  · intro i s ⟨⟨hai, hib, hmi⟩, w, hw, hre, hex⟩
    apply (siftPass_spec ha hb hai hib hmi hw hex).mono
    intro r s' h
    cases r with
    | inl d => exact ⟨⟨by omega, h.2.after hre⟩, by omega⟩
    | inr _ => exact Leaves.after hre h
  · omega
  · exact ⟨⟨hi', hib, hm⟩, hv.leaves h⟩

/-- A heap at `a..i` and the entries that are greater, in order, at `i..b`. -/
structure HeapSorting (a b i : Nat) (v : Nat → α) : Prop where
  heap : Heap a i a v
  sorted : SortedOn i b v
  cross : ∀ x y, a ≤ x → x < i → i ≤ y → y < b → v x ≤ v y

/-- The root of the heap goes to its end. -/
theorem HeapSorting.swap {a b last : Nat} {v : Nat → α} (h : HeapSorting a b (last + 1) v) :
    HeapExcept a last a a (swapAt v a last) := by
  constructor
  · intro c hc hcl _ hpc
    have hp := heapParent_lt hc
    rw [swapAt_of_ne (by omega) (by omega), swapAt_of_ne hpc (by omega)]
    exact h.heap c hc (by omega) (le_heapParent c)
  · exact fun c _ _ _ haa _ => absurd haa (Nat.lt_irrefl a)

theorem HeapSorting.step {a b last : Nat} {v w : Nat → α} (h : HeapSorting a b (last + 1) v)
    (ha : a < last) (hre : Rearranged a last (swapAt v a last) w) (hheap : Heap a last a w) :
    HeapSorting a b last w := by
  have hlast : w last = v a := by
    rw [hre.outside (by omega), swapAt_right]
  have hbehind : ∀ y, last + 1 ≤ y → w y = v y := by
    intro y hy
    rw [hre.outside (by omega), swapAt_of_ne (by omega) (by omega)]
  refine ⟨hheap, ?_, ?_⟩
  · intro x y hx hxy hy
    rcases Nat.eq_or_lt_of_le hxy with rfl | hlt
    · exact le_refl _
    · rw [hbehind y (by omega)]
      rcases Nat.eq_or_lt_of_le hx with rfl | hlt'
      · rw [hlast]
        exact h.cross a y (Nat.le_refl a) (by omega) (by omega) hy
      · rw [hbehind x (by omega)]
        exact h.sorted x y (by omega) hxy hy
  · have hall : ∀ x, a ≤ x → x < last →
        swapAt v a last x ≤ v a ∧ ∀ y, last + 1 ≤ y → y < b → swapAt v a last x ≤ v y := by
      intro x hx hxl
      obtain ⟨x', hx', hx'l, heq⟩ : ∃ x', a ≤ x' ∧ x' < last + 1 ∧ swapAt v a last x = v x' := by
        rcases swapAt_cases v a last x with ⟨-, heq⟩ | ⟨rfl, -⟩ | ⟨-, -, heq⟩
        · exact ⟨last, by omega, by omega, heq⟩
        · exact absurd hxl (Nat.lt_irrefl x)
        · exact ⟨x, hx, by omega, heq⟩
      rw [heq]
      exact ⟨h.heap.le_root x' hx' hx'l, fun y hy hyb => h.cross x' y hx' hx'l hy hyb⟩
    intro x y hx hxl hy hyb
    have hall' := hre.forall_range
      (P := fun z => z ≤ v a ∧ ∀ y, last + 1 ≤ y → y < b → z ≤ v y) hall x hx hxl
    rcases Nat.eq_or_lt_of_le hy with rfl | hlt
    · rw [hlast]
      exact hall'.1
    · rw [hbehind y (by omega)]
      exact hall'.2 y (by omega) hyb

/-- `heap_sort` leaves the range in order. -/
theorem heapSort_spec {a b : Nat} {s : σ} {v : Nat → α} (ha : lo ≤ a) (hb : b ≤ hi)
    (hv : acc.At v s) : Yields (heapSort t a b) s fun _ => acc.Leaves a b v (SortedOn a b) := by
  unfold heapSort
  split
  next hshort =>
    apply Yields.pure
    exact hv.leaves (SortedOn.of_short v (by omega))
  next hlong =>
    apply leaves_bind (Q := Heap a b a)
    · have hp : a ≤ heapParent a (b - 1) := le_heapParent (b - 1)
      have hstart : Heap a b (a + (heapParent a (b - 1) + 1 - a)) v := by
        intro c hc hcb hle
        unfold heapParent at hle
        omega
      apply Yields.forM_range'_reverse (g := fun i => siftDown t i a b)
        (I := fun i => acc.Leaves a b v (Heap a b i)) a (heapParent a (b - 1) + 1 - a) s ?_
        (hv.leaves hstart)
      intro i s' hai hib ⟨w, hw, hre, hheap⟩
      have hpb := heapParent_lt (a := a) (c := b - 1) (by omega)
      apply (siftDown_spec ha hb hai (by omega) (Nat.le_refl i) hw ?_).mono
      · exact fun _ s'' h => Leaves.after hre h
      · constructor
        · exact fun c hc hcb hle hne => hheap c hc hcb (by omega)
        · intro c _ _ _ hi' hle
          have := heapParent_lt hi'
          omega
    · intro _ s' w hw _ hheap
      have hstart : HeapSorting a b (a + 1 + (b - 1 - a)) w := by
        rw [show a + 1 + (b - 1 - a) = b by omega]
        exact ⟨hheap, SortedOn.of_short w (by omega), fun x y _ _ hy hyb => by omega⟩
      have hloop := Yields.forM_range'_reverse
        (g := fun last => do t.swap a last; siftDown t a a last)
        (I := fun i => acc.Leaves a b w (HeapSorting a b i)) (a + 1) (b - 1 - a) s' ?_
        (hw.leaves hstart)
      · apply hloop.mono
        intro _ s'' h
        apply h.mono
        intro w' _ hs
        exact (SortedOn.of_short w' (Nat.le_refl (a + 1))).append hs.sorted hs.cross
      · intro last s'' hal hlb ⟨u, hu, hre, hs⟩
        apply (hu.swap (i := a) (j := last) (by omega) (by omega)).bind
        intro _ s₁ hu'
        apply (siftDown_spec ha (by omega) (Nat.le_refl a) (by omega) (Nat.le_refl a) hu'
          hs.swap).mono
        intro _ s₂ ⟨w', hw', hre', hheap'⟩
        apply Leaves.intro hw'
        · exact (hre.trans (.swap (by omega) (by omega) u)).trans
            (hre'.mono (Nat.le_refl a) (by omega))
        · exact hs.step (by omega) hre' hheap'

end LuceneRust.Util.Sorter
