import Mathlib.Data.Finset.Card
import Mathlib.Data.List.Basic
import Mathlib.Logic.Equiv.Basic
import Mathlib.Order.Interval.Finset.Nat

/-!
# Rearranging a range of places

The contents of a store are a function of the place.  `Rearranged lo hi v w`
says that `w` is `v` with the places of `lo..hi` permuted and all others left
alone.

* `swapAt` exchanges two places: `Rearranged.swap`.
* `Rearranged.forall_range` carries what all contents of the range have in
  common, and `Rearranged.card_filter` how many have a property.
* `Mirrored` follows the loop that exchanges the places of one end of a range
  with those of the other, also where the two ends overlap.
* `SortedOn` and `SelectedAt` say that a range is in order, or that one of its
  places has what order puts there (`SelectedAt.hasRank`).
-/

namespace Rearrange

variable {α : Type} {lo hi lo' hi' mid k : Nat} {u v w : Nat → α}

/-- The contents with two places exchanged. -/
def swapAt (v : Nat → α) (i j : Nat) : Nat → α := v ∘ Equiv.swap i j

@[simp] theorem swapAt_left (v : Nat → α) (i j : Nat) : swapAt v i j i = v j :=
  congrArg v (Equiv.swap_apply_left i j)

@[simp] theorem swapAt_right (v : Nat → α) (i j : Nat) : swapAt v i j j = v i :=
  congrArg v (Equiv.swap_apply_right i j)

theorem swapAt_of_ne {i j x : Nat} (hi : x ≠ i) (hj : x ≠ j) : swapAt v i j x = v x :=
  congrArg v (Equiv.swap_apply_of_ne_of_ne hi hj)

/-- Every place has what one of three places had. -/
theorem swapAt_cases (v : Nat → α) (i j x : Nat) :
    (x = i ∧ swapAt v i j x = v j) ∨ (x = j ∧ swapAt v i j x = v i) ∨
      (x ≠ i ∧ x ≠ j ∧ swapAt v i j x = v x) := by
  by_cases hi : x = i
  · exact Or.inl ⟨hi, by rw [hi, swapAt_left]⟩
  · by_cases hj : x = j
    · exact Or.inr (Or.inl ⟨hj, by rw [hj, swapAt_right]⟩)
    · exact Or.inr (Or.inr ⟨hi, hj, swapAt_of_ne hi hj⟩)

/-- `w` is `v` with the places of `lo..hi` permuted. -/
def Rearranged (lo hi : Nat) (v w : Nat → α) : Prop :=
  ∃ π : Equiv.Perm Nat, (∀ x, ¬ (lo ≤ x ∧ x < hi) → π x = x) ∧ w = v ∘ π

namespace Rearranged

theorem refl (lo hi : Nat) (v : Nat → α) : Rearranged lo hi v v := ⟨Equiv.refl Nat, fun _ _ => rfl, rfl⟩

theorem trans (h : Rearranged lo hi u v) (h' : Rearranged lo hi v w) : Rearranged lo hi u w := by
  obtain ⟨π, hπ, rfl⟩ := h
  obtain ⟨ρ, hρ, rfl⟩ := h'
  refine ⟨ρ.trans π, fun x hx => ?_, rfl⟩
  rw [Equiv.trans_apply, hρ x hx, hπ x hx]

theorem mono (h : Rearranged lo' hi' v w) (hlo : lo ≤ lo') (hhi : hi' ≤ hi) :
    Rearranged lo hi v w := by
  obtain ⟨π, hπ, rfl⟩ := h
  exact ⟨π, fun x hx => hπ x (by omega), rfl⟩

theorem swap {i j : Nat} (hin : lo ≤ i ∧ i < hi) (hjn : lo ≤ j ∧ j < hi) (v : Nat → α) :
    Rearranged lo hi v (swapAt v i j) := by
  refine ⟨Equiv.swap i j, fun x hx => ?_, rfl⟩
  apply Equiv.swap_apply_of_ne_of_ne
  · rintro rfl
    exact hx hin
  · rintro rfl
    exact hx hjn

theorem comp {β : Type} (h : Rearranged lo hi v w) (f : α → β) :
    Rearranged lo hi (fun x => f (v x)) fun x => f (w x) := by
  obtain ⟨π, hπ, rfl⟩ := h
  exact ⟨π, hπ, rfl⟩

/-- The places outside are left alone. -/
theorem outside (h : Rearranged lo hi v w) {x : Nat} (hx : ¬ (lo ≤ x ∧ x < hi)) : w x = v x := by
  obtain ⟨π, hπ, rfl⟩ := h
  exact congrArg v (hπ x hx)

/-- A place inside has what some place inside had. -/
theorem source (h : Rearranged lo hi v w) {x : Nat} (hx : lo ≤ x ∧ x < hi) :
    ∃ y, (lo ≤ y ∧ y < hi) ∧ w x = v y := by
  obtain ⟨π, hπ, rfl⟩ := h
  refine ⟨π x, ?_, rfl⟩
  by_contra hout
  have heq : π x = x := π.injective (hπ (π x) hout)
  exact hout (heq.symm ▸ hx)

/-- What holds of all contents of the range still does. -/
theorem forall_range (h : Rearranged lo hi v w) {P : α → Prop}
    (hP : ∀ x, lo ≤ x → x < hi → P (v x)) : ∀ x, lo ≤ x → x < hi → P (w x) := by
  intro x hx hx'
  obtain ⟨y, hy, heq⟩ := h.source ⟨hx, hx'⟩
  rw [heq]
  exact hP y hy.1 hy.2

/-- As many contents of the range have a property as before. -/
theorem card_filter (h : Rearranged lo hi v w) (P : α → Prop) [DecidablePred P] :
    ((Finset.Ico lo hi).filter fun x => P (w x)).card =
      ((Finset.Ico lo hi).filter fun x => P (v x)).card := by
  obtain ⟨π, hπ, rfl⟩ := h
  have hmem : ∀ x, lo ≤ x ∧ x < hi ↔ lo ≤ π x ∧ π x < hi := by
    intro x
    by_cases hx : lo ≤ x ∧ x < hi
    · refine iff_of_true hx ?_
      by_contra hout
      have heq : π x = x := π.injective (hπ (π x) hout)
      exact hout (heq.symm ▸ hx)
    · rw [hπ x hx]
  apply Finset.card_bij fun x _ => π x
  · intro x hx
    rw [Finset.mem_filter, Finset.mem_Ico] at hx ⊢
    exact ⟨(hmem x).1 hx.1, hx.2⟩
  · intro x _ y _ heq
    exact π.injective heq
  · intro y hy
    rw [Finset.mem_filter, Finset.mem_Ico] at hy
    obtain ⟨hy, hP⟩ := hy
    refine ⟨π.symm y, ?_, π.apply_symm_apply y⟩
    rw [Finset.mem_filter, Finset.mem_Ico]
    have hsymm := π.apply_symm_apply y
    refine ⟨(hmem _).2 (by rw [hsymm]; exact hy), ?_⟩
    dsimp only [Function.comp]
    rw [hsymm]
    exact hP

end Rearranged

section Mirror

variable {G : α → Prop} {n : Nat} {f g : Nat → Nat}

/-- What is good at the places `f x` for `x < n` goes to their mirrors `g x`.  `k`
of them are exchanged. -/
structure Mirrored (G : α → Prop) (n : Nat) (f g : Nat → Nat) (k : Nat) (v : Nat → α) : Prop where
  left : ∀ x, k ≤ x → x < n → G (v (f x))
  done : ∀ x, x < k → G (v (g x))
  both : ∀ x y, x < n → y < n → f x = g y → G (v (f x))

theorem Mirrored.start (h : ∀ x, x < n → G (v (f x))) : Mirrored G n f g 0 v :=
  ⟨fun x _ => h x, fun x hx => absurd hx (Nat.not_lt_zero x), fun x _ hx _ _ => h x hx⟩

theorem Mirrored.step {S : Nat} (h : Mirrored G n f g k v) (hk : k < n)
    (hinj : ∀ x y, x < n → y < n → f x = f y → x = y) (hsum : ∀ x, x < n → f x + g x = S) :
    Mirrored G n f g (k + 1) (swapAt v (f k) (g k)) := by
  have hsumk := hsum k hk
  -- a place of both ends has its mirror in both ends
  have hswap : ∀ x y, x < n → y < n → f x = g y → f y = g x := by
    intro x y hx hy hxy
    have hsumx := hsum x hx
    have hsumy := hsum y hy
    omega
  constructor
  · intro x hkx hx
    have hne : f x ≠ f k := by
      intro heq
      have := hinj x k hx hk heq
      omega
    by_cases hg : f x = g k
    · rw [hg, swapAt_right]
      exact h.left k (Nat.le_refl k) hk
    · rw [swapAt_of_ne hne hg]
      exact h.left x (by omega) hx
  · intro x hx
    rcases Nat.eq_or_lt_of_le (Nat.le_of_lt_succ hx) with rfl | hlt
    · rw [swapAt_right]
      exact h.left x (Nat.le_refl x) hk
    · have hxn : x < n := by omega
      by_cases hf : g x = f k
      · rw [hf, swapAt_left, ← hswap k x hk hxn hf.symm]
        exact h.both x k hxn hk (hswap k x hk hxn hf.symm)
      · have hne : g x ≠ g k := by
          intro heq
          have hsumx := hsum x hxn
          have := hinj x k hxn hk (by omega)
          omega
        rw [swapAt_of_ne hf hne]
        exact h.done x hlt
  · intro x y hx hy hxy
    by_cases hf : f x = f k
    · rw [hf, swapAt_left, ← hswap k y hk hy (hf ▸ hxy)]
      exact h.both y k hy hk (hswap k y hk hy (hf ▸ hxy))
    · by_cases hg : f x = g k
      · rw [hg, swapAt_right]
        exact h.both k x hk hx (hswap x k hx hk hg)
      · rw [swapAt_of_ne hf hg]
        exact h.both x y hx hy hxy

end Mirror

section Order

variable [Preorder α]

/-- The range is in order. -/
def SortedOn (lo hi : Nat) (v : Nat → α) : Prop :=
  ∀ x y, lo ≤ x → x ≤ y → y < hi → v x ≤ v y

theorem SortedOn.of_short (v : Nat → α) (h : hi ≤ lo + 1) : SortedOn lo hi v := by
  intro x y hx hxy hy
  have : x = y := by omega
  rw [this]

theorem SortedOn.congr (h : SortedOn lo hi v) (heq : ∀ x, lo ≤ x → x < hi → w x = v x) :
    SortedOn lo hi w := by
  intro x y hx hxy hy
  rw [heq x hx (by omega), heq y (by omega) hy]
  exact h x y hx hxy hy

/-- Two ranges in order, the first in front of the second. -/
theorem SortedOn.append (h : SortedOn lo mid v) (h' : SortedOn mid hi v)
    (hcross : ∀ x y, lo ≤ x → x < mid → mid ≤ y → y < hi → v x ≤ v y) : SortedOn lo hi v := by
  intro x y hx hxy hy
  rcases Nat.lt_or_ge y mid with hm | hm
  · exact h x y hx hxy hm
  · rcases Nat.lt_or_ge x mid with hm' | hm'
    · exact hcross x y hx hm' hm hy
    · exact h' x y hm' hxy hy

/-- The place `k` splits the range: nothing in front of it is greater, and nothing
behind it is less. -/
structure SelectedAt (lo hi k : Nat) (v : Nat → α) : Prop where
  before : ∀ x, lo ≤ x → x < k → v x ≤ v k
  after : ∀ x, k < x → x < hi → v k ≤ v x

theorem SortedOn.selectedAt (h : SortedOn lo hi v) (hk : lo ≤ k) (hk' : k < hi) :
    SelectedAt lo hi k v :=
  ⟨fun x hx hxk => h x k hx (Nat.le_of_lt hxk) hk', fun x hkx hx => h k x hk (Nat.le_of_lt hkx) hx⟩

open Classical in
/-- The entry `c` is the one of rank `r` in the range: no more than `r` contents are
less, and more than `r` are not greater. -/
def HasRank (lo hi : Nat) (v : Nat → α) (c : α) (r : Nat) : Prop :=
  ((Finset.Ico lo hi).filter fun x => v x < c).card ≤ r ∧
    r < ((Finset.Ico lo hi).filter fun x => v x ≤ c).card

theorem SelectedAt.hasRank (hw : Rearranged lo hi v w) (h : SelectedAt lo hi k w) (hk : lo ≤ k)
    (hk' : k < hi) : HasRank lo hi v (w k) (k - lo) := by
  classical
  unfold HasRank
  rw [← hw.card_filter fun a => a < w k, ← hw.card_filter fun a => a ≤ w k]
  constructor
  · rw [← Nat.card_Ico lo k]
    apply Finset.card_le_card
    intro x hx
    rw [Finset.mem_filter, Finset.mem_Ico] at hx
    rw [Finset.mem_Ico]
    refine ⟨hx.1.1, ?_⟩
    by_contra hge
    have hle : w k ≤ w x := by
      rcases Nat.lt_or_ge k x with hlt | hle
      · exact h.after x hlt hx.1.2
      · rw [show x = k by omega]
    exact not_le_of_gt hx.2 hle
  · have hcard : k - lo < (Finset.Ico lo (k + 1)).card := by
      rw [Nat.card_Ico]
      omega
    apply Nat.lt_of_lt_of_le hcard
    apply Finset.card_le_card
    intro x hx
    rw [Finset.mem_Ico] at hx
    rw [Finset.mem_filter, Finset.mem_Ico]
    refine ⟨⟨hx.1, by omega⟩, ?_⟩
    rcases Nat.lt_or_ge x k with hlt | hle
    · exact h.before x hx.1 hlt
    · rw [show x = k by omega]

end Order

end Rearrange
