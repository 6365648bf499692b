import Mathlib.Data.List.Sort

/-!
# Sorted vectors

`slice::sort_unstable`, `Vec::dedup` and `slice::binary_search`, over any
linear order.

* `dedup_sortUnstable`: sorting and dropping repeats leaves a strictly ascending
  list with the same members.
* `binarySearch_iff`: the search finds exactly the members of a strictly
  ascending list.  Nothing is said of other lists.
-/

namespace RustSem

variable {α : Type} [LinearOrder α]

/-- `sort_unstable`: equal values cannot be told apart, so there is only one
result. -/
def sortUnstable (l : List α) : List α := l.insertionSort (· ≤ ·)

/-- `Vec::dedup`: of equal values in a row the first stays. -/
def dedup : List α → List α
  | [] => []
  | [a] => [a]
  | a :: b :: l => if a = b then dedup (b :: l) else a :: dedup (b :: l)

/-- The loop of `binary_search`: the one place of the `size` places from `base`
on that is compared at the end. -/
def searchBase (l : List α) (key : α) : Nat → Nat → Nat → Nat
  | 0, base, _ => base
  | fuel + 1, base, size =>
    if size ≤ 1 then base
    else
      let half := size / 2
      let mid := base + half
      let base := if l[mid]?.any (key < ·) then base else mid
      searchBase l key fuel base (size - half)

/-- `binary_search(&key).is_ok()`. -/
def binarySearch (l : List α) (key : α) : Bool :=
  l[searchBase l key l.length 0 l.length]? == some key

attribute [local simp] dedup searchBase

theorem mem_sortUnstable {l : List α} {a : α} : a ∈ sortUnstable l ↔ a ∈ l :=
  (l.perm_insertionSort (· ≤ ·)).mem_iff

theorem sortUnstable_pairwise (l : List α) : (sortUnstable l).Pairwise (· ≤ ·) :=
  l.pairwise_insertionSort (· ≤ ·)

theorem mem_dedup {l : List α} {a : α} : a ∈ dedup l ↔ a ∈ l := by
  induction l using dedup.induct with
  | case1 => exact Iff.rfl
  | case2 b => exact Iff.rfl
  | case3 b l ih =>
    rw [dedup, if_pos rfl, ih]
    simp
  | case4 b c l hne ih =>
    rw [dedup, if_neg hne, List.mem_cons, ih, List.mem_cons (a := a) (b := b)]

theorem dedup_pairwise {l : List α} (h : l.Pairwise (· ≤ ·)) : (dedup l).Pairwise (· < ·) := by
  induction l using dedup.induct with
  | case1 => exact List.Pairwise.nil
  | case2 b => exact List.pairwise_singleton _ _
  | case3 b l ih =>
    rw [dedup, if_pos rfl]
    exact ih (List.pairwise_cons.1 h).2
  | case4 b c l hne ih =>
    obtain ⟨hb, htail⟩ := List.pairwise_cons.1 h
    have hc := (List.pairwise_cons.1 htail).1
    rw [dedup, if_neg hne]
    apply List.Pairwise.cons _ (ih htail)
    intro a ha
    have hbc : b < c := lt_of_le_of_ne (hb c List.mem_cons_self) hne
    rcases List.mem_cons.1 (mem_dedup.1 ha) with rfl | ha
    · exact hbc
    · exact lt_of_lt_of_le hbc (hc a ha)

/-- Sorting and dropping repeats. -/
theorem dedup_sortUnstable (l : List α) :
    (dedup (sortUnstable l)).Pairwise (· < ·) ∧
      ∀ a, a ∈ dedup (sortUnstable l) ↔ a ∈ l :=
  ⟨dedup_pairwise (sortUnstable_pairwise l), fun _ => mem_dedup.trans mem_sortUnstable⟩

/-- The place of the key stays among the places that are left. -/
theorem searchBase_eq {l : List α} {key : α} (h : l.Pairwise (· < ·)) {k : Nat}
    (hk : l[k]? = some key) : ∀ fuel base size, size ≤ fuel → base + size ≤ l.length →
      base ≤ k → k < base + size → searchBase l key fuel base size = k := by
  intro fuel
  induction fuel with
  | zero =>
    intro base size hfuel hlen hle hlt
    omega
  | succ fuel ih =>
    intro base size hfuel hlen hle hlt
    rw [searchBase]
    split
    · omega
    next hsize =>
      obtain ⟨hklt, hkeq⟩ := List.getElem?_eq_some_iff.1 hk
      have hmid : base + size / 2 < l.length := by omega
      have hmono : ∀ i j (hi : i < l.length) (hj : j < l.length), i < j → l[i] < l[j] :=
        List.pairwise_iff_getElem.1 h
      dsimp only
      rw [List.getElem?_eq_getElem hmid, Option.any_some]
      split
      next hgt =>
        -- the middle value is above the key, so the key is in front of it
        apply ih _ _ (by omega) (by omega) hle
        have hne : base + size / 2 ≠ k := by
          intro heq
          simp [heq, hkeq] at hgt
        by_contra hge
        have hlt' := hmono _ k hmid hklt (by omega)
        rw [hkeq] at hlt'
        exact absurd (of_decide_eq_true hgt) (not_lt_of_gt hlt')
      next hle' =>
        -- the middle value is not above the key, so the key is there or behind it
        apply ih _ _ (by omega) (by omega) _ (by omega)
        by_contra hlt'
        have hgt := hmono k _ hklt hmid (by omega)
        rw [hkeq] at hgt
        exact hle' (decide_eq_true hgt)

/-- The search finds the members of an ascending list. -/
theorem binarySearch_iff {l : List α} (h : l.Pairwise (· < ·)) (key : α) :
    binarySearch l key = true ↔ key ∈ l := by
  unfold binarySearch
  rw [beq_iff_eq]
  constructor
  · exact List.mem_of_getElem?
  · intro hmem
    obtain ⟨k, hk⟩ := List.getElem?_of_mem hmem
    obtain ⟨hlt, -⟩ := List.getElem?_eq_some_iff.1 hk
    rw [searchBase_eq h hk _ _ _ le_rfl (by omega) (Nat.zero_le k) (by omega)]
    exact hk

end RustSem
