import LuceneRust.Lib.AryHeap
import LuceneRust.Util.TernaryLongHeap

/-!
# `TernaryLongHeap` keeps its order

The two loops move a hole through the vector and put the value into it at the end.
With the value in the hole they are steps of a heap of the arity three over the places
`1..=size`.
-/

namespace LuceneRust.Util.TernaryLongHeap

open RustSem Rearrange AryHeap

variable {heap : List Int} {i n size : Nat} {value : Int}

/-- What stands at each place. -/
def view (heap : List Int) (i : Nat) : Int := heap.getD i 0

theorem getElem?_eq_view (h : i < heap.length) : heap[i]? = some (view heap i) := by
  rw [view, List.getD_eq_getElem?_getD, List.getElem?_eq_getElem h, Option.getD_some]

theorem view_set (h : i < heap.length) (x : Int) :
    view (heap.set i x) = Function.update (view heap) i x := by
  funext j
  unfold view
  rw [List.getD_eq_getElem?_getD, List.getElem?_set]
  by_cases hj : j = i
  · rw [hj, if_pos rfl, if_pos h, Function.update_self, Option.getD_some]
  · rw [if_neg (Ne.symm hj), Function.update_of_ne hj, List.getD_eq_getElem?_getD]

/-- The hole and the place that is moved into it. -/
theorem swapAt_update {α : Type} {v : Nat → α} {i j : Nat} (h : i ≠ j) (x : α) :
    swapAt (Function.update v i x) i j = Function.update (Function.update v i (v j)) j x := by
  funext k
  rcases swapAt_cases (Function.update v i x) i j k with ⟨rfl, hk⟩ | ⟨rfl, hk⟩ | ⟨hki, hkj, hk⟩
  · rw [hk, Function.update_of_ne h.symm, Function.update_of_ne h, Function.update_self]
  · rw [hk, Function.update_self, Function.update_self]
  · rw [hk, Function.update_of_ne hki, Function.update_of_ne hkj, Function.update_of_ne hki]

theorem put_ok (h : i < heap.length) (x : Int) : put heap i x = .ok (heap.set i x) := by
  rw [put, guardOk_pos h, ok_bind]

/-- The loops: the vector `s.1` with `value` at the hole `s.2` is the heap `v` permuted. -/
structure Hole (n : Nat) (v : Nat → Int) (value : Int) (len : Nat) (s : List Int × Nat) : Prop where
  length : s.1.length = len
  lt : n < len
  rearranged : Rearranged 1 (n + 1) v (Function.update (view s.1) s.2 value)

/-- One place moves into the hole. -/
theorem Hole.move {v : Nat → Int} {len : Nat} {s : List Int × Nat} (h : Hole n v value len s)
    (j : Nat) (hs : 1 ≤ s.2 ∧ s.2 ≤ n) (hj : 1 ≤ j ∧ j ≤ n) (hne : s.2 ≠ j) :
    put s.1 s.2 (view s.1 j) = .ok (s.1.set s.2 (view s.1 j)) ∧
      Hole n v value len (s.1.set s.2 (view s.1 j), j) ∧
      Function.update (view (s.1.set s.2 (view s.1 j))) j value =
        swapAt (Function.update (view s.1) s.2 value) s.2 j := by
  have hlen := h.length
  have hlt := h.lt
  have hview : Function.update (view (s.1.set s.2 (view s.1 j))) j value =
      swapAt (Function.update (view s.1) s.2 value) s.2 j := by
    rw [swapAt_update hne, view_set (by omega)]
  refine ⟨put_ok (by omega) _, ⟨by rw [List.length_set, hlen], hlt, ?_⟩, hview⟩
  dsimp only
  rw [hview]
  exact h.rearranged.trans (Rearranged.swap ⟨hs.1, by omega⟩ ⟨hj.1, by omega⟩ _)

/-- What the loops end with. -/
theorem Hole.finish {v : Nat → Int} {len : Nat} {s : List Int × Nat} (h : Hole n v value len s)
    (hs : s.2 ≤ n) (ho : Ordered arity n (Function.update (view s.1) s.2 value)) :
    ∃ heap', put s.1 s.2 value = .ok heap' ∧ heap'.length = len ∧ Ordered arity n (view heap') ∧
      Rearranged 1 (n + 1) v (view heap') := by
  have hlen := h.length
  have hlt := h.lt
  have hi : s.2 < s.1.length := by omega
  refine ⟨s.1.set s.2 value, put_ok hi value, by rw [List.length_set, hlen], ?_, ?_⟩
  · rw [view_set hi]
    exact ho
  · rw [view_set hi]
    exact h.rearranged

theorem Hole.start (i : Nat) (hn : n < heap.length) :
    Hole n (view heap) (view heap i) heap.length (heap, i) where
  length := rfl
  lt := hn
  rearranged := by
    rw [Function.update_eq_self]
    exact Rearranged.refl _ _ _

/-- The spec of `up_heap`. -/
theorem upHeap_ok (hn : n < heap.length) (h : UpHole arity n i (view heap)) :
    ∃ heap', upHeap heap i = .ok heap' ∧ heap'.length = heap.length ∧
      Ordered arity n (view heap') ∧ Rearranged 1 (n + 1) (view heap) (view heap') := by
  have hi : i < heap.length := by
    have := h.le
    omega
  have hloop := iterate_ok (upPass (view heap i))
    (fun s => Hole n (view heap) (view heap i) heap.length s ∧
      UpHole arity n s.2 (Function.update (view s.1) s.2 (view heap i)))
    Prod.snd
    (fun s => Hole n (view heap) (view heap i) heap.length s ∧ s.2 ≤ n ∧
      Ordered arity n (Function.update (view s.1) s.2 (view heap i)))
    (by
      rintro ⟨heap', j⟩ ⟨hole, hup⟩
      have hlen := hole.length
      have hpos := hup.pos
      have hle := hup.le
      dsimp only at hlen hpos hle
      unfold upPass
      dsimp only
      split
      next hj =>
        have hp : parent arity j < j := parent_lt hj
        have hne : j ≠ parent arity j := hp.ne'
        have hget : heap'[(j - 2) / arity + 1]? = some (view heap' (parent arity j)) :=
          getElem?_eq_view (by change parent arity j < _; omega)
        rw [hget, expect_some, ok_bind]
        obtain ⟨hput, hmove, hview⟩ := hole.move (parent arity j) ⟨hpos, hle⟩
          ⟨one_le_parent _ _, by omega⟩ hne
        split
        next hstop =>
          right
          refine ⟨_, rfl, hole, hle, hup.stop fun _ => ?_⟩
          rw [Function.update_of_ne hne.symm, Function.update_self]
          exact hstop
        next hgo =>
          left
          dsimp only at hput
          rw [hput, ok_bind]
          refine ⟨_, rfl, ⟨hmove, ?_⟩, hp⟩
          change UpHole arity n (parent arity j) (Function.update _ (parent arity j) _)
          rw [hview]
          apply hup.step hj
          dsimp only
          rw [Function.update_of_ne hne.symm, Function.update_self]
          exact not_le.1 hgo
      next hj =>
        exact .inr ⟨_, rfl, hole, hle, hup.stop fun hj' => absurd hj' hj⟩)
    (i + 1) (heap, i) ⟨Hole.start i hn, by rw [Function.update_eq_self]; exact h⟩
    (Nat.lt_succ_self i)
  obtain ⟨⟨heap', j⟩, hrun, hole, hle, ho⟩ := hloop
  obtain ⟨heap'', hput, hlen, ho', hre⟩ := hole.finish hle ho
  refine ⟨heap'', ?_, hlen, ho', hre⟩
  rw [upHeap, getElem?_eq_view hi, expect_some, ok_bind, hrun, ok_bind]
  exact hput

/-- The scan of a family. -/
theorem foldl_best {firstChild : Nat} (k : Nat) (children : List Int) (best : Nat × Int)
    (hk : firstChild + 1 + k + children.length ≤ heap.length)
    (hchildren : (heap.drop (firstChild + 1 + k)).take children.length = children)
    (hlo : firstChild ≤ best.1) (hhi : best.1 < firstChild + 1 + k)
    (hval : best.2 = view heap best.1)
    (hleast : ∀ j, firstChild ≤ j → j < firstChild + 1 + k → best.2 ≤ view heap j) :
    ∃ b, (children.zipIdx k).foldl (fun best child => if child.1 < best.2 then
        (firstChild + 1 + child.2, child.1) else best) best = (b, view heap b) ∧
      firstChild ≤ b ∧ b < firstChild + 1 + k + children.length ∧
      ∀ j, firstChild ≤ j → j < firstChild + 1 + k + children.length →
        view heap b ≤ view heap j := by
  induction children generalizing k best with
  | nil =>
    refine ⟨best.1, ?_, hlo, hhi, hval ▸ hleast⟩
    rw [← hval]
    rfl
  | cons x children ih =>
    rw [List.length_cons] at hk hchildren ⊢
    have hlt : firstChild + 1 + k < heap.length := by omega
    rw [List.drop_eq_getElem_cons hlt, List.take_succ_cons] at hchildren
    obtain ⟨hx, htail⟩ := List.cons.inj hchildren
    have hview : x = view heap (firstChild + 1 + k) := by
      rw [← hx]
      have := getElem?_eq_view hlt
      rw [List.getElem?_eq_getElem hlt] at this
      exact Option.some.inj this
    rw [List.zipIdx_cons, List.foldl_cons]
    have hsum : firstChild + 1 + k + (children.length + 1) =
        firstChild + 1 + (k + 1) + children.length := by omega
    rw [hsum] at hk ⊢
    apply ih (k + 1) _ hk htail
    · split
      · dsimp only
        omega
      · exact hlo
    · split
      · dsimp only
        omega
      · omega
    · split
      · exact hview
      · exact hval
    · intro j hj hjlt
      have hlast : j < firstChild + 1 + k ∨ j = firstChild + 1 + k := by omega
      split
      next hless =>
        rcases hlast with hj' | rfl
        · exact hless.le.trans (hleast j hj hj')
        · exact hview.le
      next hmore =>
        rcases hlast with hj' | rfl
        · exact hleast j hj hj'
        · rw [← hview]
          exact not_lt.1 hmore

theorem bestChild_ok {firstChild lastChild : Nat} (hle : firstChild ≤ lastChild)
    (hlt : lastChild < heap.length) :
    ∃ b, bestChild heap firstChild lastChild = .ok (b, view heap b) ∧ firstChild ≤ b ∧
      b ≤ lastChild ∧ ∀ j, firstChild ≤ j → j ≤ lastChild → view heap b ≤ view heap j := by
  have hlen : ((heap.drop (firstChild + 1)).take (lastChild + 1 - (firstChild + 1))).length =
      lastChild - firstChild := by
    rw [List.length_take, List.length_drop]
    omega
  obtain ⟨b, hb, hlo, hhi, hleast⟩ := foldl_best 0
    ((heap.drop (firstChild + 1)).take (lastChild + 1 - (firstChild + 1)))
    (firstChild, view heap firstChild) (by rw [hlen]; omega)
    (by rw [hlen, Nat.add_zero, Nat.add_sub_add_right]) le_rfl (by dsimp only; omega) rfl
    (by
      intro j hj hjlt
      rw [show j = firstChild by omega])
  rw [hlen] at hhi hleast
  refine ⟨b, ?_, hlo, by omega, fun j hj hjle => hleast j hj (by omega)⟩
  rw [bestChild, getElem?_eq_view (by omega), expect_some, ok_bind,
    slice_eq_some (by omega) (by omega), expect_some, ok_bind, hb]

/-- The spec of `down_heap`. -/
theorem downHeap_ok (hn : n < heap.length) (h : DownHole arity n i (view heap)) :
    ∃ heap', downHeap heap i n = .ok heap' ∧ heap'.length = heap.length ∧
      Ordered arity n (view heap') ∧ Rearranged 1 (n + 1) (view heap) (view heap') := by
  have hi : i < heap.length := by
    have := h.le
    omega
  have hloop := iterate_ok (downPass (view heap i) n)
    (fun s => Hole n (view heap) (view heap i) heap.length s ∧
      DownHole arity n s.2 (Function.update (view s.1) s.2 (view heap i)))
    (fun s => n - s.2)
    (fun s => Hole n (view heap) (view heap i) heap.length s ∧ s.2 ≤ n ∧
      Ordered arity n (Function.update (view s.1) s.2 (view heap i)))
    (by
      rintro ⟨heap', j⟩ ⟨hole, hdown⟩
      have hlen := hole.length
      have hpos := hdown.pos
      have hle := hdown.le
      dsimp only at hlen hpos hle
      have hfamily : ∀ k, 1 < k → (parent arity k = j ↔
          firstChild arity j ≤ k ∧ k < firstChild arity j + arity) :=
        fun k hk => parent_eq_iff (by decide) hpos hk
      have hbelow : j < firstChild arity j := lt_firstChild (by decide) hpos
      have hchild : ∀ k, firstChild arity j ≤ k → k < firstChild arity j + arity → k ≤ n →
          Function.update (view heap') j (view heap i) k = view heap' k :=
        fun k hk _ _ => Function.update_of_ne (by omega) _ _
      unfold downPass
      dsimp only
      rw [show arity * (j - 1) + 2 = firstChild arity j from rfl]
      split
      next hleaf =>
        refine .inr ⟨_, rfl, hole, hle, hdown.stop fun k hk hkn hp => ?_⟩
        have := (hfamily k hk).1 hp
        omega
      next hinner =>
        have hlast : firstChild arity j ≤ min (firstChild arity j + arity - 1) n := by
          have : 1 ≤ arity := by decide
          omega
        obtain ⟨b, hb, hlo, hhi, hleast⟩ := bestChild_ok hlast (show _ < heap'.length by omega)
        have hb1 : 1 < b := by omega
        have hbn : b ≤ n := by omega
        have hbp : parent arity b = j := (hfamily b hb1).2 ⟨hlo, by omega⟩
        have hbest : ∀ k, 1 < k → k ≤ n → parent arity k = j → view heap' b ≤ view heap' k := by
          intro k hk hkn hp
          have := (hfamily k hk).1 hp
          exact hleast k this.1 (by omega)
        have hne : j ≠ b := by omega
        obtain ⟨hput, hmove, hview⟩ := hole.move b ⟨hpos, hle⟩ ⟨by omega, hbn⟩ hne
        rw [hb, ok_bind]
        dsimp only
        split
        next hstop =>
          refine .inr ⟨_, rfl, hole, hle, hdown.stop fun k hk hkn hp => ?_⟩
          have hkc := (hfamily k hk).1 hp
          dsimp only
          rw [Function.update_self, hchild k hkc.1 hkc.2 hkn]
          exact hstop.trans (hbest k hk hkn hp)
        next hgo =>
          left
          dsimp only at hput
          rw [hput, ok_bind]
          refine ⟨_, rfl, ⟨hmove, ?_⟩, by dsimp only; omega⟩
          change DownHole arity n b (Function.update _ b _)
          rw [hview]
          apply hdown.step hb1 hbn hbp
          · intro k hk hkn hp
            have hkc := (hfamily k hk).1 hp
            dsimp only
            rw [hchild k hkc.1 hkc.2 hkn, hchild b hlo (by omega) hbn]
            exact hbest k hk hkn hp
          · dsimp only
            rw [hchild b hlo (by omega) hbn, Function.update_self]
            exact not_le.1 hgo)
    (n + 1) (heap, i) ⟨Hole.start i hn, by rw [Function.update_eq_self]; exact h⟩
    (by dsimp only; omega)
  obtain ⟨⟨heap', j⟩, hrun, hole, hle, ho⟩ := hloop
  obtain ⟨heap'', hput, hlen, ho', hre⟩ := hole.finish hle ho
  refine ⟨heap'', ?_, hlen, ho', hre⟩
  have hpos := h.pos
  have hle' := h.le
  rw [downHeap, if_neg (by omega), getElem?_eq_view hi, expect_some, ok_bind, hrun,
    ok_bind]
  exact hput

end LuceneRust.Util.TernaryLongHeap
