import LuceneRust.Util.Automata.LiveStates

/-!
# What `topo_sort_states` does

The search marks a state as on the stack when it pushes a child of it, and not
when it comes to the state.  A state that pushes no child, because all its
other destinations were visited before, is popped without a look at its own
bit, and a transition to itself goes unseen.

* `Searching` is the invariant of the loop.  The states in the order of their
  discovery and the path to the top of the stack are ghosts.
* `scan_cases` is the lemma of the loop over the transitions of a state.
  `Searching.push`, `Searching.pop`, `Searching.again` and `Searching.error`
  say what a pass does.
* `topo_exact_iff` is the result: the order is right, or the error is
  reported, for just the automata without `HiddenCycles`.
-/

namespace LuceneRust.Util.Automata

open RustSem DepthFirst

/-- The call fails just for the automata with a cycle, and returns the
reachable states in topological order for all others. -/
def TopoExact (a : Automaton) : Prop :=
  (a.HasCycle → ∃ e, topoSortStates a = .err e) ∧
    (¬ a.HasCycle → ∃ order, topoSortStates a = .ok order ∧ order.Nodup ∧
      (∀ q, q ∈ order ↔ a.Reachable q) ∧
      ∀ q d, q ∈ order → d ∈ a.succs q → [q, d].Sublist order)

/-- There is a cycle, and all cycles are self-loops of states other than the
initial one, each with every other destination before it in the order of the
smallest paths. -/
def HiddenCycles (a : Automaton) : Prop :=
  a.HasCycle ∧ ∀ q, a.Reachable q → ¬ OnLongCycle a.succs q ∧
    (Arc a.succs q q → q ≠ 0 ∧ ∀ d ∈ a.succs q, d ≠ q → PathBefore a.succs 0 d q)

variable {a : Automaton} {s : TopoState} {disc path : List Nat} {top : Nat} {back : Bool}

/-! ## The invariant -/

/-- The search has discovered `disc` and is at `top`, the end of `path`.
`back` says that it has come back to `top` from a child. -/
structure Searching (a : Automaton) (s : TopoState) (disc path : List Nat) (top : Nat)
    (back : Bool) : Prop where
  follow : follow a.succs 0 path = some top
  stack : s.stack = (along a.succs 0 path).reverse
  spine : Spine a.succs s.states.reverse 0 path
  topological : Topological a.succs s.states.reverse
  discovered : Discovered a.succs 0 disc
  nodup : disc.Nodup
  mem : ∀ v, v ∈ disc ↔ v ∈ s.states ∨ v ∈ s.stack
  lt : ∀ v ∈ disc, v < a.numStates
  order_nodup : (s.states ++ s.stack).Nodup
  stack_sublist : s.stack.Sublist disc
  visited : ∀ v < a.numStates, s.visited[v]? = some (decide (v ∈ disc ∧ v ≠ 0))
  onStack : ∀ v < a.numStates, s.onStack[v]? = some (decide (v ∈ s.stack ∧ (v = top → back = true)))
  came_back : back = true → ∃ w ∈ a.succs top, w ≠ top ∧ FoundBefore disc top w
  just_found : back = false → disc.head? = some top
  loops : ∀ v ∈ s.states, v ∈ a.succs v → v ≠ 0 ∧ ∀ d ∈ a.succs v, d ≠ v → FoundBefore disc d v

/-- What the result of the search says about the cycles: none is left but
hidden self-loops. -/
def Ordered (a : Automaton) (order : List Nat) : Prop :=
  order.Nodup ∧ Topological a.succs order ∧ (∀ q, q ∈ order ↔ Reach a.succs 0 q) ∧
    (∀ q ∈ order, q < a.numStates) ∧
    ∀ q ∈ order, q ∈ a.succs q → q ≠ 0 ∧ ∀ d ∈ a.succs q, d ≠ q → PathBefore a.succs 0 d q

/-- What the error of the search says about the cycles: one is not hidden. -/
def Detected (a : Automaton) : Prop :=
  ∃ q, Reach a.succs 0 q ∧ q < a.numStates ∧ (OnLongCycle a.succs q ∨
    Arc a.succs q q ∧ (q = 0 ∨ ∃ d ∈ a.succs q, d ≠ q ∧ ¬ PathBefore a.succs 0 d q))

/-- The search has found the initial state for the second time. -/
def Again (a : Automaton) (s : TopoState) : Prop :=
  (∃ rest, s.stack = 0 :: rest) ∧ a.numStates ≤ s.visited.length ∧
    a.numStates ≤ s.onStack.length ∧
    (∃ (i : Nat) (t : Transition), (a.row 0)[i]? = some t ∧ s.onStack[t.dest]? = some true ∧
      ∀ j ≤ i, ∀ u : Transition, (a.row 0)[j]? = some u → s.visited[u.dest]? = some true) ∧
    Detected a

/-! ## The loop over the transitions of a state -/

/-- The transitions below `i` lead to states that were visited and are not
marked as on the stack. -/
def Passed (s : TopoState) (ts : List Transition) (i : Nat) : Prop :=
  ∀ j < i, ∀ t, ts[j]? = some t →
    s.visited[t.dest]? = some true ∧ s.onStack[t.dest]? = some false

/-- The first transition that leads to a state that was not visited, or to one
that is marked as on the stack, decides. -/
theorem scan_cases {ts : List Transition} {n : Nat} (hlt : ∀ t ∈ ts, t.dest < n)
    (hvisited : n ≤ s.visited.length) (honStack : n ≤ s.onStack.length) :
    (∃ i t, ts[i]? = some t ∧ s.visited[t.dest]? = some false ∧ Passed s ts i ∧
      s.scan ts = .ok (some t.dest)) ∨
    (∃ i t, ts[i]? = some t ∧ s.visited[t.dest]? = some true ∧
      s.onStack[t.dest]? = some true ∧ Passed s ts i ∧ s.scan ts = .err cycleError) ∨
    Passed s ts ts.length ∧ s.scan ts = .ok none := by
  induction ts with
  | nil => exact .inr (.inr ⟨fun j hj => absurd hj (Nat.not_lt_zero j), rfl⟩)
  | cons t ts ih =>
    have htlt := hlt t List.mem_cons_self
    have hv : ∃ b, s.visited[t.dest]? = some b :=
      ⟨_, List.getElem?_eq_getElem (by omega)⟩
    have ho : ∃ b, s.onStack[t.dest]? = some b :=
      ⟨_, List.getElem?_eq_getElem (by omega)⟩
    rcases hv with ⟨vb, hv⟩
    rcases ho with ⟨ob, ho⟩
    rw [TopoState.scan, hv, expect_some, ok_bind]
    cases vb with
    | false => exact .inl ⟨0, t, rfl, hv, fun j hj => absurd hj (Nat.not_lt_zero j), rfl⟩
    | true =>
      rw [ho, expect_some, ok_bind]
      cases ob with
      | true =>
        exact .inr (.inl ⟨0, t, rfl, hv, ho, fun j hj => absurd hj (Nat.not_lt_zero j), rfl⟩)
      | false =>
        have hstep : ∀ i, Passed s ts i → Passed s (t :: ts) (i + 1) := by
          intro i hi j hj u hu
          cases j with
          | zero =>
            rw [List.getElem?_cons_zero, Option.some.injEq] at hu
            subst hu
            exact ⟨hv, ho⟩
          | succ j =>
            rw [List.getElem?_cons_succ] at hu
            exact hi j (by omega) u hu
        rcases ih fun u hu => hlt u (List.mem_cons_of_mem _ hu) with h | h | h
        · rcases h with ⟨i, u, hu, hvu, hi, hscan⟩
          exact .inl ⟨i + 1, u, hu, hvu, hstep i hi, hscan⟩
        · rcases h with ⟨i, u, hu, hvu, hou, hi, hscan⟩
          exact .inr (.inl ⟨i + 1, u, hu, hvu, hou, hstep i hi, hscan⟩)
        · exact .inr (.inr ⟨hstep _ h.1, h.2⟩)

theorem succs_getElem? {q i : Nat} : (a.succs q)[i]? = ((a.row q)[i]?).map (·.dest) := by
  rw [Automaton.succs, List.getElem?_map]

/-! ## What a pass does -/

namespace Searching

theorem top_mem_stack (h : Searching a s disc path top back) : ∃ rest, s.stack = top :: rest := by
  rcases List.eq_nil_or_concat path with hp | ⟨p, i, hp⟩
  · have hf := h.follow
    rw [hp, DepthFirst.follow, Option.some.injEq] at hf
    rw [h.stack, hp, along, hf]
    exact ⟨[], rfl⟩
  · have hf := h.follow
    rw [List.concat_eq_append] at hp
    rw [hp] at hf
    rcases follow_snoc_cases hf with ⟨v, hv, hd, -⟩
    rw [h.stack, hp, along_snoc hv hd, List.reverse_append]
    exact ⟨_, rfl⟩

theorem top_lt (h : Searching a s disc path top back) : top < a.numStates := by
  rcases h.top_mem_stack with ⟨rest, hrest⟩
  apply h.lt
  rw [h.mem, hrest]
  exact .inr List.mem_cons_self

/-- A destination that was passed is finished, or it is a state that was just
found and has a self-loop. -/
theorem passed (h : Searching a s disc path top back) (hfin : Finished a) {i : Nat}
    (hpassed : Passed s (a.row top) i) {j e : Nat} (hj : j < i)
    (he : (a.succs top)[j]? = some e) :
    e ∈ disc ∧ e ≠ 0 ∧ (e ∈ s.states ∨ e = top ∧ back = false) := by
  rw [succs_getElem?, Option.map_eq_some_iff] at he
  rcases he with ⟨t, ht, rfl⟩
  rcases hpassed j hj t ht with ⟨hv, ho⟩
  have hlt := hfin.dest_lt top t (List.mem_of_getElem? ht)
  rw [h.visited _ hlt, Option.some.injEq, decide_eq_true_eq] at hv
  rw [h.onStack _ hlt, Option.some.injEq, decide_eq_false_iff_not] at ho
  refine ⟨hv.1, hv.2, ?_⟩
  rcases (h.mem _).1 hv.1 with hs | hs
  · exact .inl hs
  · right
    by_contra hne
    apply ho
    refine ⟨hs, fun htop => ?_⟩
    cases hb : back with
    | true => rfl
    | false => exact absurd ⟨htop, hb⟩ hne

/-- A destination that was not visited is pushed, if it is not the initial
state. -/
theorem push (h : Searching a s disc path top back) (hfin : Finished a) {i : Nat}
    {t : Transition} (ht : (a.row top)[i]? = some t) (hv : s.visited[t.dest]? = some false)
    (hpassed : Passed s (a.row top) i) (hne0 : t.dest ≠ 0) :
    Searching a
      { s with
        visited := s.visited.set t.dest true
        stack := t.dest :: s.stack
        onStack := s.onStack.set top true }
      (t.dest :: disc) (path ++ [i]) t.dest false := by
  have hlt := hfin.dest_lt top t (List.mem_of_getElem? ht)
  have hnew : t.dest ∉ disc := by
    intro hmem
    rw [h.visited _ hlt, Option.some.injEq, decide_eq_false_iff_not] at hv
    exact hv ⟨hmem, hne0⟩
  have hd : (a.succs top)[i]? = some t.dest := by
    rw [succs_getElem?, ht]
    rfl
  rcases h.top_mem_stack with ⟨rest, hrest⟩
  have htop : top ∈ disc := by
    rw [h.mem, hrest]
    exact .inr List.mem_cons_self
  have hne : t.dest ≠ top := by
    intro heq
    rw [heq] at hnew
    exact hnew htop
  have hspine : Spine a.succs s.states.reverse 0 (path ++ [i]) := by
    apply h.spine.snoc h.follow hd hne
    intro j hj e he
    rcases h.passed hfin hpassed hj he with ⟨-, -, hs | ⟨heq, -⟩⟩
    · exact .inr (List.mem_reverse.2 hs)
    · exact .inl heq
  exact {
    follow := follow_snoc h.follow hd hne
    stack := by
      rw [along_snoc h.follow hd, List.reverse_append, ← h.stack]
      rfl
    spine := hspine
    topological := h.topological
    discovered := by
      refine ⟨⟨path ++ [i], follow_snoc h.follow hd hne, ?_⟩, h.discovered⟩
      intro p w hp hlt'
      rw [h.mem]
      rcases hspine.smaller h.topological hp hlt' with hw | hw
      · exact .inl (List.mem_reverse.1 hw)
      · right
        rw [along_snoc h.follow hd, List.dropLast_concat] at hw
        rw [h.stack]
        exact List.mem_reverse.2 hw
    nodup := List.nodup_cons.2 ⟨hnew, h.nodup⟩
    mem := by
      intro v
      simp only [List.mem_cons, h.mem]
      tauto
    lt := by
      intro v hv
      rcases List.mem_cons.1 hv with rfl | hv
      · exact hlt
      · exact h.lt v hv
    order_nodup := by
      rw [List.nodup_append_comm, List.cons_append, List.nodup_cons, List.nodup_append_comm]
      refine ⟨?_, h.order_nodup⟩
      intro hmem
      apply hnew
      rw [h.mem]
      exact (List.mem_append.1 hmem).symm
    stack_sublist := h.stack_sublist.cons_cons _
    visited := by
      intro v hvlt
      dsimp only
      have hold := h.visited v hvlt
      rw [List.getElem?_set]
      by_cases hvd : t.dest = v
      · subst hvd
        rcases List.getElem?_eq_some_iff.1 hold with ⟨hlen, -⟩
        rw [if_pos rfl, if_pos hlen, decide_eq_true ⟨List.mem_cons_self, hne0⟩]
      · rw [if_neg hvd, hold]
        congr 1
        simp [Ne.symm hvd]
    onStack := by
      intro v hvlt
      dsimp only
      have hold := h.onStack v hvlt
      rcases List.getElem?_eq_some_iff.1 hold with ⟨hlen, -⟩
      rw [List.getElem?_set]
      by_cases hvtop : top = v
      · subst hvtop
        rw [if_pos rfl, if_pos hlen, decide_eq_true]
        refine ⟨List.mem_cons_of_mem _ (by rw [hrest]; exact List.mem_cons_self), ?_⟩
        intro heq
        exact absurd heq.symm hne
      · rw [if_neg hvtop, hold]
        congr 1
        apply decide_eq_decide.2
        by_cases hvd : v = t.dest
        · subst hvd
          have hns : t.dest ∉ s.stack := fun hs => hnew ((h.mem _).2 (.inr hs))
          simp [hns]
        · simp [hvd, Ne.symm hvtop]
    came_back := by simp
    just_found := fun _ => rfl
    loops := by
      intro v hv hself
      refine ⟨(h.loops v hv hself).1, ?_⟩
      intro d hd hne'
      exact ((h.loops v hv hself).2 d hd hne').cons }

/-- A state with all destinations passed is finished after them. -/
theorem topological_pop (h : Searching a s disc path top back) (hfin : Finished a)
    (hpassed : Passed s (a.row top) (a.row top).length) :
    Topological a.succs (s.states ++ [top]).reverse ∧
      ∀ v ∈ s.states ++ [top], v ∈ a.succs v →
        v ≠ 0 ∧ ∀ d ∈ a.succs v, d ≠ v → FoundBefore disc d v := by
  have hdone : ∀ e ∈ a.succs top, e ∈ disc ∧ e ≠ 0 ∧ (e ∈ s.states ∨ e = top ∧ back = false) := by
    intro e he
    rcases List.mem_iff_getElem?.1 he with ⟨j, hj⟩
    have hjlt : j < (a.row top).length := by
      have := (List.getElem?_eq_some_iff.1 hj).1
      simpa [Automaton.succs] using this
    exact h.passed hfin hpassed hjlt hj
  rcases h.top_mem_stack with ⟨rest, hrest⟩
  have hnot : top ∉ s.states := by
    intro hmem
    have hdisj := (List.nodup_append.1 h.order_nodup).2.2 top hmem top
      (by rw [hrest]; exact List.mem_cons_self)
    exact hdisj rfl
  constructor
  · rw [List.reverse_append]
    refine ⟨?_, h.topological⟩
    intro e he
    rcases (hdone e he).2.2 with hs | ⟨heq, -⟩
    · exact .inr (List.mem_reverse.2 hs)
    · exact .inl heq
  · intro v hv hself
    rcases List.mem_append.1 hv with hv | hv
    · exact h.loops v hv hself
    · rw [List.mem_singleton] at hv
      subst hv
      rcases hdone v hself with ⟨-, hne0, hs | ⟨-, hback⟩⟩
      · exact absurd hs hnot
      · refine ⟨hne0, ?_⟩
        intro d hd hne
        -- nothing was discovered after `v`, so that `d` was before
        have hhead := h.just_found hback
        cases hdisc : disc with
        | nil =>
          rw [hdisc] at hhead
          cases hhead
        | cons w l =>
          rw [hdisc, List.head?_cons, Option.some.injEq] at hhead
          subst hhead
          have hdl := (hdone d hd).1
          rw [hdisc] at hdl
          exact ⟨l, List.suffix_refl _, (List.mem_cons.1 hdl).resolve_left hne⟩

/-- Popping a state other than the root of the search. -/
theorem pop {i : Nat} (h : Searching a s disc (path ++ [i]) top back) (hfin : Finished a)
    (hpassed : Passed s (a.row top) (a.row top).length) :
    ∃ top', Searching a
      { s with
        onStack := s.onStack.set top false
        stack := s.stack.tail
        states := s.states ++ [top] }
      disc path top' true := by
  rcases follow_snoc_cases h.follow with ⟨top', hv, hd, hne⟩
  have hstack : s.stack = top :: (along a.succs 0 path).reverse := by
    rw [h.stack, along_snoc hv hd, List.reverse_append]
    rfl
  have htail : s.stack.tail = (along a.succs 0 path).reverse := by
    rw [hstack, List.tail_cons]
  have hnodup := h.order_nodup
  rw [hstack] at hnodup
  have htop' : ∃ rest, (along a.succs 0 path).reverse = top' :: rest := by
    rcases List.eq_nil_or_concat path with hp | ⟨p, j, hp⟩
    · rw [hp, DepthFirst.follow, Option.some.injEq] at hv
      rw [hp, along, hv]
      exact ⟨[], rfl⟩
    · rw [List.concat_eq_append] at hp
      rw [hp] at hv
      rcases follow_snoc_cases hv with ⟨v, hv', hd', -⟩
      rw [hp, along_snoc hv' hd', List.reverse_append]
      exact ⟨_, rfl⟩
  rcases htop' with ⟨rest, hrest⟩
  rcases h.topological_pop hfin hpassed with ⟨htopo, hloops⟩
  refine ⟨top', ?_⟩
  exact {
    follow := hv
    stack := htail
    spine := by
      apply h.spine.dropLast.mono
      intro v hv
      rw [List.reverse_append]
      exact List.mem_append_right _ hv
    topological := htopo
    discovered := h.discovered
    nodup := h.nodup
    mem := by
      intro v
      rw [h.mem, hstack]
      simp only [List.tail_cons, List.mem_cons, List.mem_append, List.not_mem_nil, or_false]
      tauto
    lt := h.lt
    order_nodup := by
      simp only [htail]
      simpa using hnodup
    stack_sublist := (List.tail_sublist _).trans h.stack_sublist
    visited := h.visited
    onStack := by
      intro v hvlt
      dsimp only
      have hold := h.onStack v hvlt
      rcases List.getElem?_eq_some_iff.1 hold with ⟨hlen, -⟩
      rw [List.getElem?_set]
      by_cases hvtop : top = v
      · subst hvtop
        have hns : top ∉ s.stack.tail := by
          rw [htail]
          have := List.nodup_append.1 hnodup
          exact (List.nodup_cons.1 this.2.1).1
        rw [if_pos rfl, if_pos hlen]
        simp [hns]
      · rw [if_neg hvtop, hold]
        congr 1
        apply decide_eq_decide.2
        rw [hstack]
        simp [Ne.symm hvtop]
    came_back := by
      intro _
      refine ⟨top, List.mem_of_getElem? hd, hne, foundBefore_of_sublist ?_⟩
      have hsub := h.stack_sublist
      rw [hstack, hrest] at hsub
      exact List.Sublist.trans (by simp) hsub
    just_found := by simp
    loops := hloops }

/-- Popping the root ends the search. -/
theorem ordered (h : Searching a s disc [] top back) (hfin : Finished a)
    (hpassed : Passed s (a.row top) (a.row top).length) :
    s.stack.tail = [] ∧ Ordered a (s.states ++ [top]).reverse := by
  have htop : top = 0 := by
    have hf := h.follow
    rw [DepthFirst.follow, Option.some.injEq] at hf
    exact hf.symm
  have hstack : s.stack = [top] := by
    rw [h.stack, along, htop]
    rfl
  rcases h.topological_pop hfin hpassed with ⟨htopo, hloops⟩
  have hmem : ∀ q, q ∈ (s.states ++ [top]).reverse ↔ q ∈ disc := by
    intro q
    rw [List.mem_reverse, h.mem, hstack, List.mem_append]
  have hreach : ∀ l, Discovered a.succs 0 l → ∀ q ∈ l, Reach a.succs 0 q := by
    intro l
    induction l with
    | nil =>
      intro _ q hq
      cases hq
    | cons v l ih =>
      intro hl q hq
      rcases List.mem_cons.1 hq with rfl | hq
      · rcases hl.1 with ⟨ρ, hρ, -⟩
        exact follow_reach hρ
      · exact ih hl.2 q hq
  refine ⟨by rw [hstack, List.tail_cons], ?_, htopo, ?_, ?_, ?_⟩
  · have := h.order_nodup
    rw [hstack] at this
    rwa [List.nodup_reverse]
  · intro q
    constructor
    · intro hq
      exact hreach disc h.discovered q ((hmem q).1 hq)
    · intro hq
      apply htopo.closed_reach _ hq
      simp [htop]
  · intro q hq
    exact h.lt q ((hmem q).1 hq)
  · intro q hq hself
    have hq' := List.mem_reverse.1 hq
    refine ⟨(hloops q hq' hself).1, ?_⟩
    intro d hd hne
    have hdmem : d ∈ disc := (hmem d).1 (htopo.closed hq hd)
    exact (h.discovered.pathBefore_iff h.nodup hdmem ((hmem q).1 hq) hne).2
      ((hloops q hq' hself).2 d hd hne)

/-- A destination that is marked as on the stack closes a cycle. -/
theorem error (h : Searching a s disc path top back) (hfin : Finished a) {i : Nat}
    {t : Transition} (ht : (a.row top)[i]? = some t) (hv : s.visited[t.dest]? = some true)
    (ho : s.onStack[t.dest]? = some true) : Detected a := by
  have hlt := hfin.dest_lt top t (List.mem_of_getElem? ht)
  rw [h.visited _ hlt, Option.some.injEq, decide_eq_true_eq] at hv
  rw [h.onStack _ hlt, Option.some.injEq, decide_eq_true_eq] at ho
  have harc : Arc a.succs top t.dest := by
    apply List.mem_of_getElem? (i := i)
    rw [succs_getElem?, ht]
    rfl
  have hon : t.dest ∈ along a.succs 0 path := by
    have := ho.1
    rw [h.stack] at this
    exact List.mem_reverse.1 this
  rcases reach_of_mem_along h.follow hon with ⟨hreach, hup⟩
  refine ⟨t.dest, hreach, hlt, ?_⟩
  by_cases heq : t.dest = top
  · right
    refine ⟨by rw [heq] at harc ⊢; exact harc, .inr ?_⟩
    rcases h.came_back (ho.2 heq) with ⟨w, hw, hne, hfound⟩
    rw [heq]
    refine ⟨w, hw, hne, ?_⟩
    intro hbefore
    have htopmem : top ∈ disc := by
      rw [← heq]
      exact hv.1
    have hwmem : w ∈ disc := by
      rcases hfound with ⟨l, hl, -⟩
      exact hl.subset List.mem_cons_self
    exact hfound.not_symm h.nodup
      ((h.discovered.pathBefore_iff h.nodup hwmem htopmem hne).1 hbefore)
  · left
    exact ⟨top, Ne.symm heq, hup, .single harc⟩

/-- When the initial state is found again, its row has a marked destination,
with only visited ones before it. -/
theorem again (h : Searching a s disc path top back) (hfin : Finished a) {i : Nat}
    {t : Transition} (ht : (a.row top)[i]? = some t) (hpassed : Passed s (a.row top) i)
    (h0 : t.dest = 0) :
    Again a
      { s with
        visited := s.visited.set t.dest true
        stack := t.dest :: s.stack
        onStack := s.onStack.set top true } := by
  have hpos : 0 < a.numStates := by
    have := h.top_lt
    omega
  have hlt := hfin.dest_lt top t (List.mem_of_getElem? ht)
  have hlen : ∀ v < a.numStates, v < s.visited.length ∧ v < s.onStack.length := by
    intro v hv
    have h₁ := (List.getElem?_eq_some_iff.1 (h.visited v hv)).1
    have h₂ := (List.getElem?_eq_some_iff.1 (h.onStack v hv)).1
    exact ⟨h₁, h₂⟩
  have hlens : a.numStates ≤ s.visited.length ∧ a.numStates ≤ s.onStack.length := by
    have := hlen (a.numStates - 1) (by omega)
    omega
  have hseen : ∀ v, v ∈ disc → (s.visited.set t.dest true)[v]? = some true := by
    intro v hv
    rw [h0, List.getElem?_set]
    by_cases hv0 : 0 = v
    · rw [if_pos hv0, if_pos (hlen 0 hpos).1]
    · rw [if_neg hv0, h.visited v (h.lt v hv), decide_eq_true ⟨hv, Ne.symm hv0⟩]
  have hdet : Detected a := by
    refine ⟨0, .refl, hpos, ?_⟩
    have harc : Arc a.succs top 0 := by
      apply List.mem_of_getElem? (i := i)
      rw [succs_getElem?, ht, ← h0]
      rfl
    by_cases htop : top = 0
    · rw [htop] at harc
      exact .inr ⟨harc, .inl rfl⟩
    · exact .inl ⟨top, htop, follow_reach h.follow, .single harc⟩
  refine ⟨⟨s.stack, by rw [h0]⟩, by simpa using hlens.1, by simpa using hlens.2, ?_, hdet⟩
  dsimp only
  cases path with
  | nil =>
    -- the arc that was taken is a self-loop, and it is seen again
    have htop : top = 0 := by
      have hf := h.follow
      rw [DepthFirst.follow, Option.some.injEq] at hf
      exact hf.symm
    subst htop
    refine ⟨i, t, ht, ?_, ?_⟩
    · rw [h0, List.getElem?_set, if_pos rfl, if_pos (hlen 0 hpos).2]
    · intro j hj u hu
      rcases Nat.lt_or_eq_of_le hj with hj | rfl
      · apply hseen
        exact (h.passed hfin hpassed hj (by rw [succs_getElem?, hu]; rfl)).1
      · rw [ht, Option.some.injEq] at hu
        rw [← hu, List.getElem?_set, if_pos rfl, if_pos (hlen _ hlt).1]
  | cons k p =>
    -- the first arc of the path leads to a state that is marked by now
    rcases h.spine with ⟨d, hd, hne, hleft, -⟩
    have hmem0 : (0 : Nat) ∈ disc := by
      rw [h.mem, h.stack, List.mem_reverse, along, hd]
      exact .inr List.mem_cons_self
    have hdstack : d ∈ s.stack := by
      rw [h.stack, List.mem_reverse, along, hd]
      apply List.mem_cons_of_mem
      cases p <;> simp only [along]
      · exact List.mem_cons_self
      · split <;> exact List.mem_cons_self
    have hdmem : d ∈ disc := (h.mem d).2 (.inr hdstack)
    rw [succs_getElem?, Option.map_eq_some_iff] at hd
    rcases hd with ⟨u, hu, rfl⟩
    refine ⟨k, u, hu, ?_, ?_⟩
    · rw [List.getElem?_set]
      by_cases htop : top = u.dest
      · rw [if_pos htop, if_pos (hlen _ h.top_lt).2]
      · rw [if_neg htop, h.onStack _ (h.lt _ hdmem)]
        simp [hdstack, Ne.symm htop]
    · intro j hj w hw
      apply hseen
      rcases Nat.lt_or_eq_of_le hj with hj | rfl
      · rcases hleft j hj w.dest (by rw [succs_getElem?, hw]; rfl) with heq | hout
        · rw [heq]
          exact hmem0
        · exact (h.mem _).2 (.inl (List.mem_reverse.1 hout))
      · rw [hu, Option.some.injEq] at hw
        rw [← hw]
        exact hdmem

end Searching

/-- The next pass after finding the initial state again reports the cycle. -/
theorem Again.error (h : Again a s) (hfin : Finished a) :
    topoPass a s = .err cycleError ∧ Detected a := by
  rcases h with ⟨⟨rest, hstack⟩, hvisited, honStack, ⟨i, t, ht, ho, hseen⟩, hdet⟩
  refine ⟨?_, hdet⟩
  have hscan : s.scan (a.row 0) = .err cycleError := by
    rcases scan_cases (fun u hu => hfin.dest_lt 0 u hu) hvisited honStack with h | h | h
    · rcases h with ⟨k, u, hu, hvu, hpassed, -⟩
      -- the marked destination would have been passed
      have hik : i < k := by
        by_contra hle
        have := hseen k (by omega) u hu
        rw [hvu] at this
        cases this
      have := (hpassed i hik t ht).2
      rw [ho] at this
      cases this
    · rcases h with ⟨k, u, -, -, -, -, hscan⟩
      exact hscan
    · have hlt := (List.getElem?_eq_some_iff.1 ht).1
      have := (h.1 i hlt t ht).2
      rw [ho] at this
      cases this
  rw [topoPass, hstack]
  simp only [hscan, err_bind]

/-! ## The whole search -/

/-- What holds between the passes. -/
def TopoInv (a : Automaton) (s : TopoState) : Prop :=
  (∃ disc path top back, Searching a s disc path top back) ∨ Again a s ∨
    s.stack = [] ∧ Ordered a s.states.reverse

/-- A pass that pushes takes an unvisited state, and one that pops takes one
of the stack. -/
def topoMeasure (s : TopoState) : Nat :=
  2 * s.visited.count false + s.stack.length

theorem topoMeasure_push {q i : Nat} (h : s.visited[i]? = some false) :
    topoMeasure
      { s with
        visited := s.visited.set i true
        stack := i :: s.stack
        onStack := s.onStack.set q true } < topoMeasure s := by
  rcases List.getElem?_eq_some_iff.1 h with ⟨hlt, hget⟩
  have hpos : 0 < s.visited.count false := List.count_pos_iff.2 (List.mem_of_getElem? h)
  unfold topoMeasure
  dsimp only
  rw [List.count_set hlt, hget, List.length_cons]
  simp only [beq_self_eq_true, if_true, beq_false, Bool.not_true, Bool.false_eq_true, if_false]
  omega

theorem topoPass_meets (hfin : Finished a) (h : TopoInv a s) :
    (topoPass a s).Meets
      (Sum.elim (fun s' => TopoInv a s' ∧ topoMeasure s' < topoMeasure s) (Ordered a))
      (fun _ => Detected a) := by
  rcases h with ⟨disc, path, top, back, h⟩ | h | ⟨hstack, hordered⟩
  · rcases h.top_mem_stack with ⟨rest, hstack⟩
    have hlens : a.numStates ≤ s.visited.length ∧ a.numStates ≤ s.onStack.length := by
      have hlt := h.top_lt
      have h₁ := (List.getElem?_eq_some_iff.1 (h.visited (a.numStates - 1) (by omega))).1
      have h₂ := (List.getElem?_eq_some_iff.1 (h.onStack (a.numStates - 1) (by omega))).1
      omega
    rw [topoPass, hstack]
    dsimp only
    rcases scan_cases (fun u hu => hfin.dest_lt top u hu) hlens.1 hlens.2 with hs | hs | hs
    · rcases hs with ⟨i, t, ht, hv, hpassed, hscan⟩
      rw [hscan, ok_bind, ← hstack]
      refine ⟨?_, topoMeasure_push hv⟩
      by_cases h0 : t.dest = 0
      · exact .inr (.inl (h.again hfin ht hpassed h0))
      · exact .inl ⟨_, _, _, _, h.push hfin ht hv hpassed h0⟩
    · rcases hs with ⟨i, t, ht, hv, ho, -, hscan⟩
      rw [hscan, err_bind]
      exact h.error hfin ht hv ho
    · rcases hs with ⟨hpassed, hscan⟩
      rw [hscan, ok_bind]
      have hrest : rest = s.stack.tail := by rw [hstack, List.tail_cons]
      refine ⟨?_, ?_⟩
      · rcases List.eq_nil_or_concat path with hp | ⟨p, j, hp⟩
        · rw [hp] at h
          rcases h.ordered hfin hpassed with ⟨htail, hordered⟩
          exact .inr (.inr ⟨hrest.trans htail, hordered⟩)
        · rw [List.concat_eq_append] at hp
          rw [hp] at h
          rcases h.pop hfin hpassed with ⟨top', hpop⟩
          rw [hrest]
          exact .inl ⟨_, _, _, _, hpop⟩
      · unfold topoMeasure
        dsimp only
        rw [hstack, List.length_cons]
        omega
  · rw [(h.error hfin).1]
    exact h.error hfin |>.2
  · rw [topoPass, hstack]
    exact hordered

theorem topoInv_start (hpos : 0 < a.numStates) :
    TopoInv a
      { onStack := List.replicate a.numStates false
        visited := List.replicate a.numStates false
        stack := [0]
        states := [] } := by
  refine .inl ⟨[0], [], 0, false, ?_⟩
  exact {
    follow := rfl
    stack := rfl
    spine := trivial
    topological := trivial
    discovered := by
      refine ⟨⟨[], rfl, ?_⟩, trivial⟩
      intro p w _ hlt
      exact absurd hlt (List.not_lt_nil p)
    nodup := List.nodup_singleton 0
    mem := by simp
    lt := by simpa using hpos
    order_nodup := List.nodup_singleton 0
    stack_sublist := List.Sublist.refl _
    visited := by
      intro v hv
      rw [List.getElem?_replicate, if_pos hv]
      simp
    onStack := by
      intro v hv
      rw [List.getElem?_replicate, if_pos hv]
      simp
    came_back := by simp
    just_found := fun _ => rfl
    loops := by simp }

theorem topoSortStates_meets (hfin : Finished a) (hpos : 0 < a.numStates) :
    (topoSortStates a).Meets (Ordered a) (fun _ => Detected a) := by
  rw [topoSortStates, if_neg (by omega)]
  apply iterate_meets (TopoInv a) topoMeasure _ _ (fun s hs => topoPass_meets hfin hs)
  · exact topoInv_start hpos
  · unfold topoMeasure
    simp

/-! ## When the result is right -/

theorem Detected.hasCycle (h : Detected a) : a.HasCycle ∧ ¬ HiddenCycles a := by
  rcases h with ⟨q, hreach, hlt, hq⟩
  have hcycle : a.HasCycle := by
    rcases hq with hlong | ⟨hself, -⟩
    · exact ⟨q, ⟨hlt, hreach⟩, hlong.onCycle⟩
    · exact ⟨q, ⟨hlt, hreach⟩, .single hself⟩
  refine ⟨hcycle, ?_⟩
  intro ⟨_, hhidden⟩
  rcases hhidden q ⟨hlt, hreach⟩ with ⟨hlong, hself⟩
  rcases hq with hq | ⟨harc, h0 | ⟨d, hd, hne, hnot⟩⟩
  · exact hlong hq
  · exact (hself harc).1 h0
  · exact hnot ((hself harc).2 d hd hne)

theorem Ordered.hiddenCycles {order : List Nat} (h : Ordered a order) (hcycle : a.HasCycle) :
    HiddenCycles a := by
  rcases h with ⟨hnodup, htopo, hmem, hlt, hloops⟩
  refine ⟨hcycle, ?_⟩
  intro q ⟨_, hreach⟩
  have hq := (hmem q).2 hreach
  exact ⟨htopo.not_onLongCycle hnodup hq, hloops q hq⟩

/-- `topo_sort_states` reports a cycle just for the automata that have one,
and returns the reachable states in topological order for all others, unless
the only cycles are hidden self-loops. -/
theorem topo_exact_iff (hfin : Finished a) : TopoExact a ↔ ¬ HiddenCycles a := by
  rcases Nat.eq_zero_or_pos a.numStates with h0 | hpos
  · have hnone : ∀ q, ¬ a.Reachable q := by
      intro q hq
      have := hq.1
      omega
    constructor
    · intro _ ⟨⟨q, hq, _⟩, _⟩
      exact hnone q hq
    · intro _
      refine ⟨fun ⟨q, hq, _⟩ => absurd hq (hnone q), fun _ => ⟨[], ?_, List.nodup_nil, ?_, ?_⟩⟩
      · rw [topoSortStates, if_pos h0]
        rfl
      · intro q
        simp [hnone q]
      · intro q d hq
        cases hq
  · have hmeets := topoSortStates_meets hfin hpos
    cases hres : topoSortStates a with
    | panic =>
      rw [hres] at hmeets
      exact hmeets.elim
    | err e =>
      rw [hres] at hmeets
      have hdet : Detected a := hmeets
      have := hdet.hasCycle
      constructor
      · intro _
        exact this.2
      · intro _
        exact ⟨fun _ => ⟨e, hres⟩, fun hno => absurd this.1 hno⟩
    | ok order =>
      rw [hres] at hmeets
      have hordered : Ordered a order := hmeets
      constructor
      · intro hexact hhidden
        rcases hexact.1 hhidden.1 with ⟨e, he⟩
        rw [hres] at he
        cases he
      · intro hnot
        refine ⟨fun hcycle => absurd (hordered.hiddenCycles hcycle) hnot, fun hno => ?_⟩
        rcases hordered with ⟨hnodup, htopo, hmem, hlt, -⟩
        refine ⟨order, hres, hnodup, ?_, ?_⟩
        · intro q
          exact ⟨fun hq => ⟨hlt q hq, (hmem q).1 hq⟩, fun hq => (hmem q).2 hq.2⟩
        · intro q d hq hd
          apply htopo.sublist hq hd
          intro heq
          rw [heq] at hd
          exact hno ⟨q, ⟨hlt q hq, (hmem q).1 hq⟩, .single hd⟩

/-- Two states with a transition each to the other. -/
def backAndForth : Automaton where
  transitions := [[⟨1, 97, 97⟩], [⟨0, 98, 98⟩]]
  accepts := [false, true]
  curState := none
  deterministic := true

theorem topo_exact_backAndForth : TopoExact backAndForth := by
  have hfin : Finished backAndForth := by
    apply finished_of_rows <;> decide
  apply (topo_exact_iff hfin).2
  intro ⟨_, hhidden⟩
  have h01 : Arc backAndForth.succs 0 1 := by
    show 1 ∈ backAndForth.succs 0
    decide
  have h10 : Arc backAndForth.succs 1 0 := by
    show 0 ∈ backAndForth.succs 1
    decide
  exact (hhidden 0 ⟨by decide, .refl⟩).1 ⟨1, by decide, .single h01, .single h10⟩

/-- A state with a transition to itself behind the initial state. -/
def selfLoop : Automaton where
  transitions := [[⟨1, 97, 97⟩], [⟨1, 98, 98⟩]]
  accepts := [false, true]
  curState := none
  deterministic := true

example :
    (do
      let (a, s0) := Automaton.empty.createState
      let (a, s1) := a.createState
      let a ← a.setAccept s1 true
      let a ← a.addTransitionLabel s0 s1 97
      let a ← a.addTransitionLabel s1 s1 98
      pure a.finishState : Result Automaton) = .ok selfLoop := by
  rfl

/-- The self-loop goes unseen. -/
theorem topo_misses_selfLoop :
    Finished selfLoop ∧ selfLoop.HasCycle ∧ topoSortStates selfLoop = .ok [0, 1] := by
  refine ⟨?_, ⟨1, ⟨by decide, .single ?_⟩, .single ?_⟩, ?_⟩
  · apply finished_of_rows <;> decide
  · show 1 ∈ selfLoop.succs 0
    decide
  · show 1 ∈ selfLoop.succs 1
    decide
  · decide

end LuceneRust.Util.Automata
