import LuceneRust.Lib.Rearrange
import Mathlib.Data.Multiset.AddSub
import Mathlib.Order.Interval.Finset.Nat
import Mathlib.Algebra.Order.Group.Nat

/-!
# Heaps of any arity

A heap of the arity `d` over the places `1..n`: the family of the place `i` is the `d`
places from `d * (i - 1) + 2` on, of which the last families have fewer.

* `Ordered.root_le`: the first place is the least.
* `UpHole` is a heap but for the edge above one place, and `DownHole` one but for the
  edges below it.  `UpHole.step` and `DownHole.step` move the place along, and
  `UpHole.stop` and `DownHole.stop` say when the heap is in order.
* `contents` is what the places hold; exchanging two places keeps it.
* `Greatest` is what a heap of a fixed capacity keeps of what it is offered.
-/

namespace AryHeap

open Rearrange

variable {α : Type} {d n i j : Nat} {v w : Nat → α}

/-- The place above `i`. -/
def parent (d i : Nat) : Nat := (i - 2) / d + 1

/-- The first place below `i`. -/
def firstChild (d i : Nat) : Nat := d * (i - 1) + 2

theorem one_le_parent (d i : Nat) : 1 ≤ parent d i := Nat.le_add_left 1 _

theorem parent_lt (hi : 1 < i) : parent d i < i := by
  unfold parent
  have := Nat.div_le_self (i - 2) d
  omega

/-- The family of a place. -/
theorem parent_eq_iff (hd : 0 < d) (hi : 1 ≤ i) (hj : 1 < j) :
    parent d j = i ↔ firstChild d i ≤ j ∧ j < firstChild d i + d := by
  have hdiv : (j - 2) / d = i - 1 ↔ (i - 1) * d ≤ j - 2 ∧ j - 2 < (i - 1 + 1) * d := by
    rw [Nat.div_eq_iff hd]
    have : (i - 1 + 1) * d = (i - 1) * d + d := Nat.succ_mul _ _
    omega
  have hsucc : (i - 1 + 1) * d = d * (i - 1) + d := by
    rw [Nat.succ_mul, Nat.mul_comm]
  have hparent : parent d j = i ↔ (j - 2) / d = i - 1 := by
    unfold parent
    omega
  have hmul : (i - 1) * d = d * (i - 1) := Nat.mul_comm _ _
  rw [hparent, hdiv, hsucc, hmul, firstChild]
  omega

theorem lt_firstChild (hd : 0 < d) (hi : 1 ≤ i) : i < firstChild d i := by
  unfold firstChild
  have := Nat.le_mul_of_pos_left (i - 1) hd
  omega

/-! ## Contents -/

/-- What the places `1..n` hold. -/
def contents (n : Nat) (v : Nat → α) : Multiset α := (Finset.Ico 1 (n + 1)).val.map v

theorem mem_contents {a : α} : a ∈ contents n v ↔ ∃ i, 1 ≤ i ∧ i ≤ n ∧ v i = a := by
  simp only [contents, Multiset.mem_map, Finset.mem_val, Finset.mem_Ico]
  constructor
  · rintro ⟨i, hi, rfl⟩
    exact ⟨i, hi.1, by omega, rfl⟩
  · rintro ⟨i, hi, hn, rfl⟩
    exact ⟨i, ⟨hi, by omega⟩, rfl⟩

@[simp] theorem card_contents : (contents n v).card = n := by
  simp [contents]

@[simp] theorem contents_zero : contents 0 v = 0 := by
  simp [contents]

theorem contents_succ : contents (n + 1) v = v (n + 1) ::ₘ contents n v := by
  unfold contents
  rw [Nat.Ico_succ_right_eq_insert_Ico (Nat.le_add_left 1 n),
    Finset.insert_val_of_notMem Finset.right_notMem_Ico, Multiset.map_cons]

theorem contents_congr (h : ∀ i, 1 ≤ i → i ≤ n → w i = v i) : contents n w = contents n v := by
  apply Multiset.map_congr rfl
  intro i hi
  rw [Finset.mem_val, Finset.mem_Ico] at hi
  exact h i hi.1 (by omega)

theorem contents_rearranged (h : Rearranged 1 (n + 1) v w) : contents n w = contents n v := by
  obtain ⟨π, hπ, rfl⟩ := h
  have himage : (Finset.Ico 1 (n + 1)).map π.toEmbedding = Finset.Ico 1 (n + 1) := by
    apply Finset.map_perm
    intro x hx
    by_contra hout
    rw [Finset.mem_coe, Finset.mem_Ico] at hout
    exact hx (hπ x hout)
  unfold contents
  rw [← Multiset.map_map, ← Equiv.coe_toEmbedding, ← Finset.map_val, himage]

/-! ## Order -/

variable [LinearOrder α]

/-- Every place is at most what is below it. -/
def Ordered (d n : Nat) (v : Nat → α) : Prop :=
  ∀ i, 1 < i → i ≤ n → v (parent d i) ≤ v i

theorem Ordered.root_le (h : Ordered d n v) (hi : 1 ≤ i) (hn : i ≤ n) : v 1 ≤ v i := by
  induction i using Nat.strong_induction_on with
  | _ i ih =>
    rcases Nat.lt_or_ge 1 i with hlt | hle
    · have hp := parent_lt (d := d) hlt
      exact (ih _ hp (one_le_parent d i) (by omega)).trans (h i hlt hn)
    · rw [show i = 1 by omega]

/-- The first place holds the least of the contents. -/
theorem Ordered.least (h : Ordered d n v) (hn : 1 ≤ n) :
    v 1 ∈ contents n v ∧ ∀ a ∈ contents n v, v 1 ≤ a := by
  refine ⟨mem_contents.2 ⟨1, le_rfl, hn, rfl⟩, fun a ha => ?_⟩
  obtain ⟨i, hi, hin, rfl⟩ := mem_contents.1 ha
  exact h.root_le hi hin

/-- In order, but that the place `i` may be less than what is above it. -/
structure UpHole (d n i : Nat) (v : Nat → α) : Prop where
  pos : 1 ≤ i
  le : i ≤ n
  others : ∀ j, 1 < j → j ≤ n → j ≠ i → v (parent d j) ≤ v j
  across : ∀ j, 1 < j → j ≤ n → parent d j = i → 1 < i → v (parent d i) ≤ v j

theorem UpHole.stop (h : UpHole d n i v) (hi : 1 < i → v (parent d i) ≤ v i) : Ordered d n v := by
  intro j hj hn
  by_cases hji : j = i
  · rw [hji] at hj ⊢
    exact hi hj
  · exact h.others j hj hn hji

/-- The place goes up. -/
theorem UpHole.step (h : UpHole d n i v) (hi : 1 < i) (hlt : v i < v (parent d i)) :
    UpHole d n (parent d i) (swapAt v i (parent d i)) := by
  have hp := parent_lt (d := d) hi
  have hle := h.le
  have hother : ∀ x, x ≠ i → x ≠ parent d i → swapAt v i (parent d i) x = v x :=
    fun x hx hx' => swapAt_of_ne hx hx'
  refine ⟨one_le_parent d i, by omega, ?_, ?_⟩
  · intro j hj hn hjp
    by_cases hji : j = i
    · rw [hji, swapAt_right, swapAt_left]
      exact hlt.le
    · rw [hother j hji hjp]
      by_cases hpi : parent d j = i
      · rw [hpi, swapAt_left]
        exact h.across j hj hn hpi hi
      · by_cases hpp : parent d j = parent d i
        · rw [hpp, swapAt_right]
          exact hlt.le.trans (hpp ▸ h.others j hj hn hji)
        · rw [hother _ hpi hpp]
          exact h.others j hj hn hji
  · intro j hj hn hjp hpos
    have hpp := parent_lt (d := d) hpos
    rw [hother (parent d (parent d i)) (by omega) hpp.ne]
    have hedge := h.others (parent d i) hpos (by omega) hp.ne
    by_cases hji : j = i
    · rw [hji, swapAt_left]
      exact hedge
    · have hjp' : j ≠ parent d i := by
        intro heq
        have := parent_lt (d := d) hj
        omega
      rw [hother j hji hjp']
      exact hedge.trans (hjp ▸ h.others j hj hn hji)

/-- In order, but that the place `i` may be more than what is below it. -/
structure DownHole (d n i : Nat) (v : Nat → α) : Prop where
  pos : 1 ≤ i
  le : i ≤ n
  others : ∀ j, 1 < j → j ≤ n → parent d j ≠ i → v (parent d j) ≤ v j
  across : ∀ j, 1 < j → j ≤ n → parent d j = i → 1 < i → v (parent d i) ≤ v j

theorem DownHole.stop (h : DownHole d n i v)
    (hi : ∀ j, 1 < j → j ≤ n → parent d j = i → v i ≤ v j) : Ordered d n v := by
  intro j hj hn
  by_cases hji : parent d j = i
  · rw [hji]
    exact hi j hj hn hji
  · exact h.others j hj hn hji

/-- The place goes down to the least of its family. -/
theorem DownHole.step {c : Nat} (h : DownHole d n i v) (hc : 1 < c) (hcn : c ≤ n)
    (hp : parent d c = i) (hleast : ∀ j, 1 < j → j ≤ n → parent d j = i → v c ≤ v j)
    (hlt : v c < v i) : DownHole d n c (swapAt v i c) := by
  have hic : i < c := hp ▸ parent_lt hc
  have hpos := h.pos
  have hother : ∀ x, x ≠ i → x ≠ c → swapAt v i c x = v x := fun x hx hx' => swapAt_of_ne hx hx'
  refine ⟨by omega, hcn, ?_, ?_⟩
  · intro j hj hn hjc
    by_cases hjc' : j = c
    · rw [hjc', hp, swapAt_left, swapAt_right]
      exact hlt.le
    · by_cases hpi : parent d j = i
      · have hji : j ≠ i := by
          have := parent_lt (d := d) hj
          omega
        rw [hpi, swapAt_left, hother j hji hjc']
        exact hleast j hj hn hpi
      · rw [hother (parent d j) hpi hjc]
        by_cases hji : j = i
        · rw [hji, swapAt_left]
          rw [hji] at hj
          exact h.across c hc hcn hp hj
        · rw [hother j hji hjc']
          exact h.others j hj hn hpi
  · intro j hj hn hjc _
    have hlt' := parent_lt (d := d) hj
    rw [hp, swapAt_left, hother j (by omega) (by omega)]
    have := h.others j hj hn (by omega)
    rw [hjc] at this
    exact this

/-- Whatever is put at the first place of a heap. -/
theorem Ordered.downHole (h : Ordered d n v) (hn : 1 ≤ n) (hw : ∀ x, x ≠ 1 → w x = v x) :
    DownHole d n 1 w := by
  refine ⟨le_rfl, hn, ?_, fun _ _ _ _ hlt => absurd hlt (lt_irrefl 1)⟩
  intro j hj hjn hpj
  rw [hw _ hpj, hw j (by omega)]
  exact h j hj hjn

/-- Whatever is put behind the last place of a heap. -/
theorem Ordered.upHole (h : Ordered d n v) (hw : ∀ x, x ≠ n + 1 → w x = v x) :
    UpHole d (n + 1) (n + 1) w := by
  refine ⟨Nat.le_add_left 1 n, le_rfl, ?_, ?_⟩
  · intro j hj hjn hne
    have hp := parent_lt (d := d) hj
    rw [hw _ (by omega), hw j hne]
    exact h j hj (by omega)
  · intro j hj hjn hpj
    have := parent_lt (d := d) hj
    omega

/-! ## The greatest of what is offered -/

/-- `kept` is the `k` greatest of `offered`. -/
structure Greatest (k : Nat) (offered kept : Multiset α) : Prop where
  le : kept ≤ offered
  card : kept.card = min k offered.card
  greatest : ∀ a ∈ kept, ∀ b ∈ offered - kept, b ≤ a

variable {k : Nat} {offered kept : Multiset α} {least x : α}

theorem Greatest.all (h : offered.card ≤ k) : Greatest k offered offered where
  le := le_rfl
  card := by omega
  greatest := by
    intro a _ b hb
    rw [Multiset.mem_sub] at hb
    exact absurd hb (lt_irrefl _)

/-- There is room for one more. -/
theorem Greatest.room (h : Greatest k offered kept) (hk : kept.card < k) :
    Greatest k (x ::ₘ offered) (x ::ₘ kept) := by
  have hcard := h.card
  have hle : offered.card ≤ kept.card := by omega
  have hall : kept = offered := Multiset.eq_of_le_of_card_le h.le hle
  rw [hall] at hk ⊢
  exact Greatest.all (by rw [Multiset.card_cons]; omega)

/-- One that is less than what is kept. -/
theorem Greatest.refuse (h : Greatest k offered kept) (hk : k ≤ kept.card)
    (hx : ∀ a ∈ kept, x < a) : Greatest k (x ::ₘ offered) kept where
  le := h.le.trans (Multiset.le_cons_self _ _)
  card := by
    have hcard := h.card
    rw [Multiset.card_cons]
    omega
  greatest := by
    intro a ha b hb
    by_cases hbx : b = x
    · rw [hbx]
      exact (hx a ha).le
    · apply h.greatest a ha b
      rw [Multiset.mem_sub] at hb ⊢
      rwa [Multiset.count_cons_of_ne hbx] at hb

/-- One that is put in place of the least. -/
theorem Greatest.replace (h : Greatest k offered kept) (hk : k ≤ kept.card)
    (hmem : least ∈ kept) (hleast : ∀ a ∈ kept, least ≤ a) (hx : least ≤ x) :
    Greatest k (x ::ₘ offered) (x ::ₘ kept.erase least) where
  le := Multiset.cons_le_cons x ((Multiset.erase_le least kept).trans h.le)
  card := by
    have hcard := h.card
    have hpos := Multiset.card_pos_iff_exists_mem.2 ⟨least, hmem⟩
    rw [Multiset.card_cons, Multiset.card_cons, Multiset.card_erase_of_mem hmem, Nat.pred_eq_sub_one]
    omega
  greatest := by
    intro a ha b hb
    have hla : least ≤ a := by
      rcases Multiset.mem_cons.1 ha with rfl | ha
      · exact hx
      · exact hleast a (Multiset.mem_of_mem_erase ha)
    rw [Multiset.sub_cons, Multiset.erase_cons_head, Multiset.mem_sub] at hb
    by_cases hbl : b = least
    · rw [hbl]
      exact hla
    · rw [Multiset.count_erase_of_ne hbl, ← Multiset.mem_sub] at hb
      exact (h.greatest least hmem b hb).trans hla

end AryHeap
