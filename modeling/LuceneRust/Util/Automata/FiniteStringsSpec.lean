import LuceneRust.Util.Automata.FiniteStrings
import LuceneRust.Util.Automata.LiveStates
import Mathlib.Data.Int.Range
import Mathlib.Data.List.Nodup

/-!
# What the finite-strings cursor yields

* `stringsBelow a k q` lists the strings of less than `k` labels that are
  accepted from `q`, those of the transitions first.
* `Emits` is what a run of passes returns, and `emits_node` says what the
  cursor returns while a node is on top: the strings behind its remaining
  labels, and its own when it is popped.
* `strings_exact_iff` is the result.  A root with transitions is popped like
  all other states, so that an accepted empty string is returned for the
  second time.  A row is read as it is when it is `Readable`.
-/

namespace LuceneRust.Util.Automata

open RustSem DepthFirst NfaPaths

variable {a : Automaton} {q d k n : Nat} {c : Int} {s : List Int} {ts : List Transition}

/-! ## The strings in order -/

/-- The labels of a row in order, each with its destination. -/
def labelled (ts : List Transition) : List (Int × Nat) :=
  ts.flatMap fun t => (Int.range t.min (t.max + 1)).map (·, t.dest)

/-- The strings of less than `k` labels that are accepted from `q`. -/
def stringsBelow (a : Automaton) : Nat → Nat → List (List Int)
  | 0, _ => []
  | k + 1, q =>
    ((labelled (a.row q)).flatMap fun e => (stringsBelow a k e.2).map (e.1 :: ·)) ++
      if a.isAccept q then [[]] else []

theorem mem_labelled : (c, d) ∈ labelled ts ↔ RowEdge ts c d := by
  unfold labelled RowEdge Transition.Covers
  simp only [List.mem_flatMap, List.mem_map, Int.mem_range_iff, Prod.mk.injEq]
  constructor
  · intro ⟨t, ht, c', hc, hcc, hd⟩
    subst hcc
    exact ⟨t, ht, hd, hc.1, by omega⟩
  · intro ⟨t, ht, hd, hlo, hhi⟩
    exact ⟨t, ht, c, ⟨hlo, by omega⟩, rfl, hd⟩

theorem mem_stringsBelow :
    s ∈ stringsBelow a k q ↔ s.length < k ∧ NfaPaths.Accepts a.nfa q s := by
  induction k generalizing q s with
  | zero => simp [stringsBelow]
  | succ k ih =>
    rw [stringsBelow, List.mem_append, List.mem_flatMap]
    cases s with
    | nil =>
      rw [accepts_nil, mem_nfa_accept]
      simp
    | cons c s =>
      have hnil : c :: s ∉ (if a.isAccept q then [[]] else [] : List (List Int)) := by
        split <;> simp
      rw [accepts_cons, List.length_cons, Nat.add_lt_add_iff_right]
      simp only [hnil, or_false, List.mem_map, List.cons.injEq]
      constructor
      · intro ⟨e, he, s', hs, hc, hss⟩
        subst hc hss
        rcases ih.1 hs with ⟨hlen, hacc⟩
        exact ⟨hlen, e.2, mem_labelled.1 he, hacc⟩
      · intro ⟨hlen, d, hd, hacc⟩
        exact ⟨(c, d), mem_labelled.2 hd, s, ih.2 ⟨hlen, hacc⟩, rfl, rfl⟩

theorem nodup_range (lo hi : Int) : (Int.range lo hi).Nodup := by
  unfold Int.range
  apply List.nodup_range.map
  intro i j hij
  dsimp only at hij
  omega

/-- No label comes up twice in a row of separate transitions. -/
theorem labelled_nodup (h : ts.Pairwise Before) : ((labelled ts).map (·.1)).Nodup := by
  unfold labelled
  rw [List.map_flatMap, List.nodup_flatMap]
  constructor
  · intro t _
    rw [List.map_map]
    show ((Int.range t.min (t.max + 1)).map id).Nodup
    rw [List.map_id]
    exact nodup_range _ _
  · apply h.imp
    intro t u htu
    unfold Before at htu
    unfold Function.onFun List.Disjoint
    intro c hc hc'
    simp only [List.map_map, List.mem_map, Int.mem_range_iff, Function.comp_apply] at hc hc'
    rcases hc with ⟨x, hx, rfl⟩
    rcases hc' with ⟨y, hy, heq⟩
    omega

/-- A deterministic automaton has every string once. -/
theorem stringsBelow_nodup (h : Finished a) (hdet : a.deterministic = true) :
    (stringsBelow a k q).Nodup := by
  induction k generalizing q with
  | zero => exact List.nodup_nil
  | succ k ih =>
    rw [stringsBelow, List.nodup_append]
    refine ⟨?_, ?_, ?_⟩
    · rw [List.nodup_flatMap]
      constructor
      · intro e _
        apply ih.map
        intro x y hxy
        exact (List.cons.inj hxy).2
      · have hnodup := labelled_nodup (h.pairwise hdet q)
        unfold List.Nodup at hnodup
        rw [List.pairwise_map] at hnodup
        apply hnodup.imp
        intro e f hef x hx hx'
        rcases List.mem_map.1 hx with ⟨y, -, rfl⟩
        rcases List.mem_map.1 hx' with ⟨z, -, hz⟩
        exact hef (List.cons.inj hz).1.symm
    · split <;> simp
    · intro x hx y hy hxy
      subst hxy
      rcases List.mem_flatMap.1 hx with ⟨e, -, hx⟩
      rcases List.mem_map.1 hx with ⟨z, -, rfl⟩
      split at hy <;> simp at hy

/-! ## The height of a state -/

section Height

open Classical

/-- The number of states that can be reached from `q`. -/
noncomputable def Automaton.height (a : Automaton) (q : Nat) : Nat :=
  ((Finset.range a.numStates).filter (Reach a.succs q ·)).card

theorem height_le : a.height q ≤ a.numStates := by
  unfold Automaton.height
  have := Finset.card_filter_le (Finset.range a.numStates) (Reach a.succs q ·)
  rw [Finset.card_range] at this
  exact this

theorem Automaton.Reachable.succ (hq : a.Reachable q) (h : Finished a) (hd : d ∈ a.succs q) :
    a.Reachable d :=
  ⟨h.succs_lt hd, hq.2.tail hd⟩

/-- Without a cycle, a transition leads to a state with less in reach. -/
theorem height_lt (hacyclic : ¬ a.HasCycle) (hq : a.Reachable q) (hd : d ∈ a.succs q) :
    a.height d < a.height q := by
  unfold Automaton.height
  apply Finset.card_lt_card
  rw [Finset.ssubset_iff_of_subset]
  · refine ⟨q, ?_, ?_⟩
    · rw [Finset.mem_filter, Finset.mem_range]
      exact ⟨hq.1, .refl⟩
    · rw [Finset.mem_filter]
      intro ⟨_, hback⟩
      exact hacyclic ⟨q, hq, .head' hd hback⟩
  · intro e he
    rw [Finset.mem_filter] at he ⊢
    exact ⟨he.1, .head hd he.2⟩

theorem height_pos (hq : q < a.numStates) : 0 < a.height q := by
  unfold Automaton.height
  rw [Finset.card_pos]
  exact ⟨q, by rw [Finset.mem_filter, Finset.mem_range]; exact ⟨hq, .refl⟩⟩

end Height

theorem length_lt_height (h : Finished a) (hacyclic : ¬ a.HasCycle) (hq : a.Reachable q)
    (hs : NfaPaths.Accepts a.nfa q s) : s.length < a.height q := by
  induction s generalizing q with
  | nil => exact height_pos hq.1
  | cons c s ih =>
    rcases accepts_cons.1 hs with ⟨d, ⟨t, ht, htd, -⟩, hacc⟩
    have hd : d ∈ a.succs q := by
      rw [← htd]
      exact List.mem_map_of_mem ht
    have := ih (hq.succ h hd) hacc
    have := height_lt hacyclic hq hd
    rw [List.length_cons]
    omega

/-! ## One node -/

/-- The labels that a node has left, each with its destination. -/
def PathNode.left (a : Automaton) (node : PathNode) : List (Int × Nat) :=
  (Int.range node.label (node.t.max + 1)).map (·, node.t.dest) ++
    labelled ((a.row node.state).drop (node.transition + 1))

/-- The node is at one of the transitions of its state. -/
structure PathNode.At (a : Automaton) (node : PathNode) : Prop where
  get : (a.row node.state)[node.transition]? = some node.t
  toState : node.toState = node.t.dest
  label : node.t.min ≤ node.label

/-- `next_label` can read the row: no transition has the label `-1`, which
stands for the end of the row, or the label `i32::MAX`, which has none behind
it, and an empty transition is the first one. -/
structure Readable (ts : List Transition) : Prop where
  sentinel : ∀ t ∈ ts, ¬ t.Covers (-1)
  label : ∀ t ∈ ts, ∀ c, t.Covers c → IsI32 (c + 1)
  nonempty : ∀ t ∈ ts.tail, t.min ≤ t.max

theorem range_cons {lo hi : Int} (h : lo < hi) : Int.range lo hi = lo :: Int.range (lo + 1) hi := by
  unfold Int.range
  have hlen : (hi - lo).toNat = (hi - (lo + 1)).toNat + 1 := by omega
  rw [hlen, List.range_succ_eq_map, List.map_cons, List.map_map]
  congr 1
  · simp
  · apply List.map_congr_left
    intro i _
    simp only [Function.comp_apply]
    push_cast
    omega

theorem range_eq_nil {lo hi : Int} (h : hi ≤ lo) : Int.range lo hi = [] := by
  unfold Int.range
  rw [show (hi - lo).toNat = 0 by omega]
  rfl

theorem getTransition_ok {index : Nat} {t : Transition} (h : (a.row q)[index]? = some t) :
    a.getTransition q index = .ok t := by
  unfold Automaton.getTransition
  rw [h]
  rfl

theorem resetState_ok {t : Transition} (h : (a.row q)[0]? = some t) :
    PathNode.resetState a q =
      .ok { state := q, toState := t.dest, transition := 0, label := t.min, t := t } := by
  unfold PathNode.resetState
  rw [getTransition_ok h]
  rfl

/-- A node that was reset has all labels of its state left. -/
theorem left_resetState {t : Transition} (h : (a.row q)[0]? = some t) :
    PathNode.left a { state := q, toState := t.dest, transition := 0, label := t.min, t := t } =
      labelled (a.row q) := by
  unfold PathNode.left labelled
  dsimp only
  cases hrow : a.row q with
  | nil =>
    rw [hrow] at h
    cases h
  | cons u us =>
    rw [hrow, List.getElem?_cons_zero, Option.some.injEq] at h
    subst h
    simp

/-- `next_label` takes the first label that is left. -/
theorem nextLabel_cases {node : PathNode} (h : node.At a) (hrow : Readable (a.row node.state)) :
    (node.left a = [] ∧ ∃ node', node.nextLabel a = .ok (node', -1) ∧ node'.state = node.state) ∨
    ∃ c node', node.left a = (c, node'.toState) :: node'.left a ∧
      node.nextLabel a = .ok (node', c) ∧ node'.state = node.state ∧ node'.At a ∧ c ≠ -1 ∧
      a.Edge node.state c node'.toState := by
  unfold PathNode.nextLabel
  by_cases hmax : node.label > node.t.max
  · rw [if_pos hmax]
    have hleft : node.left a = labelled ((a.row node.state).drop (node.transition + 1)) := by
      unfold PathNode.left
      rw [range_eq_nil (by omega)]
      rfl
    dsimp only
    by_cases hnum : node.transition + 1 ≥ a.numTransitions node.state
    · rw [if_pos hnum]
      left
      refine ⟨?_, _, rfl, rfl⟩
      rw [hleft, List.drop_eq_nil_of_le hnum]
      rfl
    · rw [if_neg hnum]
      right
      have hlt : node.transition + 1 < (a.row node.state).length := not_le.1 hnum
      have hget := List.getElem?_eq_getElem hlt
      generalize (a.row node.state)[node.transition + 1] = t at hget
      have hmem := List.mem_of_getElem? hget
      -- a transition behind the first one has a label
      have htail : t ∈ (a.row node.state).tail := by
        rw [← List.getElem?_tail] at hget
        exact List.mem_of_getElem? hget
      have hin : t.Covers t.min := ⟨le_refl _, hrow.nonempty t htail⟩
      rw [getTransition_ok hget, ok_bind, addI32_ok (hrow.label t hmem _ hin), ok_bind]
      refine ⟨t.min, _, ?_, rfl, rfl, ⟨hget, rfl, by dsimp only; omega⟩, ?_, ⟨t, hmem, rfl, hin⟩⟩
      · rw [hleft]
        unfold PathNode.left
        dsimp only
        rw [List.drop_eq_getElem_cons hlt, (List.getElem?_eq_some_iff.1 hget).2]
        unfold labelled
        rw [List.flatMap_cons, range_cons (by have := hin.2; omega)]
        rfl
      · intro heq
        rw [heq] at hin
        exact hrow.sentinel t hmem hin
  · rw [if_neg hmax]
    right
    have hmem := List.mem_of_getElem? h.get
    have hin : node.t.Covers node.label := ⟨h.label, not_lt.1 hmax⟩
    rw [addI32_ok (hrow.label _ hmem _ hin), ok_bind]
    refine ⟨node.label, _, ?_, rfl, rfl,
      ⟨h.get, h.toState, by have := h.label; dsimp only; omega⟩, ?_, ⟨_, hmem, h.toState.symm, hin⟩⟩
    · unfold PathNode.left
      dsimp only
      rw [range_cons (by omega), List.map_cons, h.toState]
      rfl
    · intro heq
      rw [heq] at hin
      exact hrow.sentinel _ hmem hin

/-- All rows that a string leads to can be read. -/
def RowsReadable (a : Automaton) : Prop :=
  ∀ s q, Reads a.nfa 0 s q → Readable (a.row q)

/-! ## Runs of passes -/

/-- The passes from `it` to `it'` return the strings `l`. -/
inductive Emits (a : Automaton) :
    FiniteStringsCursor → List (List Int) → FiniteStringsCursor → Prop
  | refl (it : FiniteStringsCursor) : Emits a it [] it
  | quiet {it it' it'' : FiniteStringsCursor} {l : List (List Int)}
      (hpass : it.pass a = .ok (.inl it')) (h : Emits a it' l it'') : Emits a it l it''
  | out {it it' it'' : FiniteStringsCursor} {l : List (List Int)} {s : List Int}
      (hpass : it.pass a = .ok (.inr (it', some s))) (hemit : it'.emitEmptyString = false)
      (h : Emits a it' l it'') : Emits a it (s :: l) it''

theorem Emits.trans {it it' it'' : FiniteStringsCursor} {l l' : List (List Int)}
    (h : Emits a it l it') (h' : Emits a it' l' it'') : Emits a it (l ++ l') it'' := by
  induction h with
  | refl _ => exact h'
  | quiet hpass _ ih => exact .quiet hpass (ih h')
  | out hpass hemit _ ih => exact .out hpass hemit (ih h')

/-- What the cursor returns while a node with the labels `left` is on top. -/
def nodeStrings (a : Automaton) (k : Nat) (p : List Int) (left : List (Int × Nat)) (q : Nat) :
    List (List Int) :=
  (left.flatMap fun e => (stringsBelow a k e.2).map fun s => p ++ e.1 :: s) ++
    if a.isAccept q then [p] else []

theorem nodeStrings_cons {p : List Int} {e : Int × Nat} {left : List (Int × Nat)} :
    nodeStrings a k p (e :: left) q =
      (stringsBelow a k e.2).map (fun s => p ++ e.1 :: s) ++ nodeStrings a k p left q := by
  unfold nodeStrings
  rw [List.flatMap_cons, List.append_assoc]

/-- A fresh node returns the strings of its state, behind those that led to
it. -/
theorem nodeStrings_labelled {p : List Int} :
    nodeStrings a k p (labelled (a.row q)) q = (stringsBelow a (k + 1) q).map (p ++ ·) := by
  unfold nodeStrings
  rw [stringsBelow, List.map_append, List.map_flatMap]
  congr 1
  · apply List.flatMap_congr
    intro e _
    rw [List.map_map]
    rfl
  · split <;> simp

/-- The situation of the cursor with a node on top that the string `p` leads
to. -/
structure OnTop (a : Automaton) (it : FiniteStringsCursor) (node : PathNode)
    (rest : List PathNode) (p : List Int) : Prop where
  nodes : it.nodes = node :: rest
  string : ∃ x, it.string = p ++ [x]
  length : p.length = rest.length
  endState : it.endState = none
  emit : it.emitEmptyString = false
  at_node : node.At a
  reachable : a.Reachable node.state
  reads : Reads a.nfa 0 p node.state
  states : it.pathStates.length = a.numStates
  path : ∀ x, it.pathStates[x]? = some true → Reach a.succs x node.state

section Node

variable {it : FiniteStringsCursor} {node : PathNode} {rest : List PathNode} {p : List Int}

/-- A node without a label left is popped, and its own string is returned. -/
theorem OnTop.pop (h : OnTop a it node rest p) {node' : PathNode}
    (hnext : node.nextLabel a = .ok (node', -1)) (hstate : node'.state = node.state) :
    Emits a it (if a.isAccept node.state then [p] else [])
      { it with
        nodes := rest
        string := p
        pathStates := it.pathStates.set node.state false } := by
  rcases h.string with ⟨x, hx⟩
  have htake : it.string.take rest.length = p := by
    rw [hx, ← h.length, List.take_left]
  have hlt : node.state < it.pathStates.length := by
    rw [h.states]
    exact h.reachable.1
  have hpass : it.pass a =
      if a.isAccept node.state then
        .ok (.inr ({ it with
          nodes := rest
          string := p
          pathStates := it.pathStates.set node.state false }, some p))
      else
        .ok (.inl { it with
          nodes := rest
          string := p
          pathStates := it.pathStates.set node.state false }) := by
    unfold FiniteStringsCursor.pass
    rw [h.nodes]
    dsimp only
    rw [hnext, ok_bind]
    dsimp only
    rw [if_neg (by simp), hstate, guardOk_pos hlt, ok_bind, htake]
    rfl
  cases hacc : a.isAccept node.state with
  | true =>
    rw [hacc, if_pos rfl] at hpass
    exact .out hpass h.emit (.refl _)
  | false =>
    rw [hacc, if_neg Bool.false_ne_true] at hpass
    exact .quiet hpass (.refl _)

/-- The cursor after `next_label` has taken the label `c`. -/
def labelTaken (it : FiniteStringsCursor) (node : PathNode) (rest : List PathNode) (p : List Int)
    (c : Int) : FiniteStringsCursor :=
  { it with nodes := node :: rest, string := p ++ [c] }

theorem OnTop.taken (h : OnTop a it node rest p) {node' : PathNode} (hat : node'.At a)
    (hstate : node'.state = node.state) : OnTop a (labelTaken it node' rest p c) node' rest p where
  nodes := rfl
  string := ⟨c, rfl⟩
  length := h.length
  endState := h.endState
  emit := h.emit
  at_node := hat
  reachable := by
    rw [hstate]
    exact h.reachable
  reads := by
    rw [hstate]
    exact h.reads
  states := h.states
  path := by
    rw [hstate]
    exact h.path

theorem OnTop.set_string (h : OnTop a it node rest p) :
    it.string.set rest.length c = p ++ [c] := by
  rcases h.string with ⟨x, hx⟩
  rw [hx, ← h.length, List.set_append_right _ _ (le_refl _), Nat.sub_self]
  rfl

/-- A label that leads to a state without transitions. -/
theorem OnTop.leaf (h : OnTop a it node rest p) {node' : PathNode}
    (hnext : node.nextLabel a = .ok (node', c)) (hc : c ≠ -1) (hleaf : a.row node'.toState = []) :
    Emits a it ((stringsBelow a (k + 1) node'.toState).map fun s => p ++ c :: s)
      (labelTaken it node' rest p c) := by
  have hstrings : stringsBelow a (k + 1) node'.toState =
      if a.isAccept node'.toState then [[]] else [] := by
    rw [stringsBelow, hleaf]
    rfl
  have hpass : it.pass a =
      if a.isAccept node'.toState then .ok (.inr (labelTaken it node' rest p c, some (p ++ [c])))
      else .ok (.inl (labelTaken it node' rest p c)) := by
    unfold FiniteStringsCursor.pass
    rw [h.nodes]
    dsimp only
    rw [hnext, ok_bind]
    dsimp only
    rw [if_pos hc, h.set_string, if_neg (by simp [Automaton.numTransitions, hleaf]),
      h.endState]
    simp only [reduceCtorEq, false_or]
    unfold labelTaken
    rw [h.endState]
    rfl
  rw [hstrings]
  cases hacc : a.isAccept node'.toState with
  | true =>
    rw [hacc, if_pos rfl] at hpass
    rw [if_pos rfl, List.map_singleton]
    exact .out hpass h.emit (.refl _)
  | false =>
    rw [hacc, if_neg Bool.false_ne_true] at hpass
    exact .quiet hpass (.refl _)

/-- A label that leads to a state with transitions: its node is pushed. -/
theorem OnTop.push (h : OnTop a it node rest p) (hfin : Finished a) (hacyclic : ¬ a.HasCycle)
    {node' : PathNode} (hnext : node.nextLabel a = .ok (node', c)) (hc : c ≠ -1) (hat : node'.At a)
    (hstate : node'.state = node.state) (hedge : a.Edge node.state c node'.toState) {t : Transition}
    (ht : (a.row node'.toState)[0]? = some t) :
    ∃ it' child, it.pass a = .ok (.inl it') ∧ OnTop a it' child (node' :: rest) (p ++ [c]) ∧
      child.left a = labelled (a.row node'.toState) ∧ child.state = node'.toState ∧
      { it' with
        nodes := node' :: rest
        string := p ++ [c]
        pathStates := it'.pathStates.set node'.toState false } = labelTaken it node' rest p c := by
  have harc : node'.toState ∈ a.succs node.state := by
    rw [← hstate, hat.toState]
    exact List.mem_map_of_mem (List.mem_of_getElem? hat.get)
  have hreach := h.reachable.succ hfin harc
  have hlt : node'.toState < it.pathStates.length := by
    rw [h.states]
    exact hreach.1
  -- a state on the path reaches the node, which would close a cycle
  have hfree : it.pathStates[node'.toState]? = some false := by
    rw [List.getElem?_eq_getElem hlt]
    cases hpath : it.pathStates[node'.toState] with
    | false => rfl
    | true =>
      have hback := h.path node'.toState (by rw [List.getElem?_eq_getElem hlt, hpath])
      exact absurd ⟨_, hreach, Relation.TransGen.tail' hback harc⟩ hacyclic
  have hset : (it.pathStates.set node'.toState true).set node'.toState false = it.pathStates := by
    rw [List.set_set]
    rcases List.getElem?_eq_some_iff.1 hfree with ⟨_, hget⟩
    rw [← hget, List.set_getElem_self]
  refine ⟨{ labelTaken it node' rest p c with
      pathStates := it.pathStates.set node'.toState true
      nodes := { state := node'.toState, toState := t.dest, transition := 0, label := t.min, t := t } ::
        node' :: rest
      string := p ++ [c] ++ [0] }, _, ?_, ?_, left_resetState ht, rfl, ?_⟩
  · unfold FiniteStringsCursor.pass
    rw [h.nodes]
    dsimp only
    have hrow : a.numTransitions node'.toState ≠ 0 := by
      have := (List.getElem?_eq_some_iff.1 ht).1
      unfold Automaton.numTransitions
      omega
    rw [hnext, ok_bind]
    dsimp only
    rw [if_pos hc, h.set_string, h.endState, if_pos ⟨hrow, by simp⟩, hfree,
      expect_some, ok_bind, if_neg Bool.false_ne_true, resetState_ok ht,
      ok_bind]
    unfold labelTaken
    rw [h.endState]
    rfl
  · exact {
      nodes := rfl
      string := ⟨0, rfl⟩
      length := by rw [List.length_append, List.length_singleton, List.length_cons, h.length]
      endState := h.endState
      emit := h.emit
      at_node := ⟨ht, rfl, le_refl _⟩
      reachable := hreach
      reads := reads_snoc.2 ⟨_, h.reads, hedge⟩
      states := by
        dsimp only
        rw [List.length_set]
        exact h.states
      path := by
        intro x hx
        dsimp only at hx ⊢
        rw [List.getElem?_set] at hx
        by_cases hxd : node'.toState = x
        · rw [hxd]
          exact .refl
        · rw [if_neg hxd] at hx
          exact (h.path x hx).tail harc }
  · dsimp only
    rw [hset]
    rfl

end Node

/-- A node on top returns the strings behind the labels that it has left, and
its own, and is popped. -/
theorem emits_node (hfin : Finished a) (hrows : RowsReadable a) (hacyclic : ¬ a.HasCycle) :
    ∀ (k : Nat) (left : List (Int × Nat)) (it : FiniteStringsCursor) (node : PathNode)
      (rest : List PathNode) (p : List Int),
      OnTop a it node rest p → node.left a = left → a.height node.state ≤ k →
      Emits a it (nodeStrings a k p left node.state)
        { it with
          nodes := rest
          string := p
          pathStates := it.pathStates.set node.state false } := by
  intro k
  induction k with
  | zero =>
    intro left it node rest p h _ hheight
    have := height_pos h.reachable.1
    omega
  | succ k ihk =>
    intro left
    induction left with
    | nil =>
      intro it node rest p h hleft hheight
      rcases nextLabel_cases h.at_node (hrows _ _ h.reads) with
        ⟨_, node', hnext, hstate⟩ | ⟨c, node', hcons, _⟩
      · exact h.pop hnext hstate
      · rw [hleft] at hcons
        cases hcons
    | cons e left ih =>
      intro it node rest p h hleft hheight
      rcases nextLabel_cases h.at_node (hrows _ _ h.reads) with
        ⟨hnil, _⟩ | ⟨c, node', hcons, hnext, hstate, hat, hc, hedge⟩
      · rw [hleft] at hnil
        cases hnil
      · rw [hleft] at hcons
        injection hcons with he hleft'
        subst he
        rw [nodeStrings_cons]
        -- the strings behind this label, and then those of the node with one label less
        have hrest := ih (labelTaken it node' rest p c) node' rest p (h.taken hat hstate) hleft'.symm
          (by rw [hstate]; exact hheight)
        rw [hstate] at hrest
        apply Emits.trans _ hrest
        cases hrow : (a.row node'.toState)[0]? with
        | none =>
          apply h.leaf hnext hc
          rw [List.getElem?_eq_none_iff, Nat.le_zero, List.length_eq_zero_iff] at hrow
          exact hrow
        | some t =>
          rcases h.push hfin hacyclic hnext hc hat hstate hedge hrow with
            ⟨it', child, hpass, htop, hchild, hcstate, hback⟩
          have harc : node'.toState ∈ a.succs node.state := by
            rw [← hstate, hat.toState]
            exact List.mem_map_of_mem (List.mem_of_getElem? hat.get)
          have hlow := height_lt hacyclic h.reachable harc
          have hrun := ihk _ it' child (node' :: rest) (p ++ [c]) htop hchild
            (by rw [hcstate]; omega)
          rw [hcstate, nodeStrings_labelled, hback] at hrun
          apply Emits.quiet hpass
          simpa using hrun

/-! ## From passes to calls -/

/-- The loop of `next_string` ends with `r`, with enough passes. -/
def Settles (a : Automaton) (it : FiniteStringsCursor)
    (r : FiniteStringsCursor × Option (List Int)) : Prop :=
  ∃ enough, ∀ fuel ≥ enough, iterate (FiniteStringsCursor.pass a) fuel it = .ok r

/-- The calls of `next_string` return the strings `l`, and then nothing. -/
def Drains (a : Automaton) : List (List Int) → FiniteStringsCursor → Prop
  | [], it => ∃ it', Settles a it (it', none)
  | s :: l, it =>
    ∃ it', Settles a it (it', some s) ∧ it'.emitEmptyString = false ∧ Drains a l it'

theorem Settles.quiet {it it' : FiniteStringsCursor} {r : FiniteStringsCursor × Option (List Int)}
    (hpass : it.pass a = .ok (.inl it')) (h : Settles a it' r) : Settles a it r := by
  rcases h with ⟨enough, hrun⟩
  refine ⟨enough + 1, ?_⟩
  intro fuel hfuel
  cases fuel with
  | zero => omega
  | succ fuel =>
    rw [iterate_continue hpass]
    exact hrun fuel (by omega)

theorem settles_leave {it : FiniteStringsCursor} {r : FiniteStringsCursor × Option (List Int)}
    (hpass : it.pass a = .ok (.inr r)) : Settles a it r := by
  refine ⟨1, ?_⟩
  intro fuel hfuel
  cases fuel with
  | zero => omega
  | succ fuel => exact iterate_leave hpass

theorem Emits.drains {it it' : FiniteStringsCursor} {l : List (List Int)} (h : Emits a it l it')
    (hend : it'.nodes = []) : Drains a l it := by
  induction h with
  | refl it =>
    refine ⟨it, settles_leave ?_⟩
    unfold FiniteStringsCursor.pass
    rw [hend]
    rfl
  | @quiet it it₁ it₂ l hpass _ ih =>
    cases l with
    | nil =>
      rcases ih hend with ⟨it₃, hset⟩
      exact ⟨it₃, hset.quiet hpass⟩
    | cons s l =>
      rcases ih hend with ⟨it₃, hset, hemit, hrest⟩
      exact ⟨it₃, hset.quiet hpass, hemit, hrest⟩
  | out hpass hemit _ ih => exact ⟨_, settles_leave hpass, hemit, ih hend⟩

theorem Drains.drain {l : List (List Int)} : ∀ {it : FiniteStringsCursor}, Drains a l it →
    it.emitEmptyString = false → ∃ enough, ∀ fuel ≥ enough, it.drain a fuel = .ok l := by
  induction l with
  | nil =>
    intro it ⟨it', enough, hrun⟩ hemit
    refine ⟨enough + 1, ?_⟩
    intro fuel hfuel
    cases fuel with
    | zero => omega
    | succ fuel =>
      unfold FiniteStringsCursor.drain FiniteStringsCursor.nextString
      rw [hemit, if_neg Bool.false_ne_true, hrun fuel (by omega)]
      rfl
  | cons s l ih =>
    intro it ⟨it', ⟨enough, hrun⟩, hemit', hrest⟩ hemit
    rcases ih hrest hemit' with ⟨enough', hdrain⟩
    refine ⟨max enough enough' + 1, ?_⟩
    intro fuel hfuel
    cases fuel with
    | zero => omega
    | succ fuel =>
      unfold FiniteStringsCursor.drain FiniteStringsCursor.nextString
      rw [hemit, if_neg Bool.false_ne_true, hrun fuel (by omega), ok_bind]
      dsimp only
      rw [hdrain fuel (by omega)]
      rfl

/-- The empty string is returned in front of the others. -/
theorem Drains.drain_emit {l : List (List Int)} {it : FiniteStringsCursor} (h : Drains a l it)
    (hemit : it.emitEmptyString = false) (emit : Bool) :
    ∃ enough, ∀ fuel ≥ enough, ({ it with emitEmptyString := emit } : FiniteStringsCursor).drain a
      fuel = .ok ((if emit then [[]] else []) ++ l) := by
  rcases h.drain hemit with ⟨enough, hdrain⟩
  have hit : ({ it with emitEmptyString := false } : FiniteStringsCursor) = it := by
    rw [← hemit]
  cases emit with
  | false =>
    refine ⟨enough, ?_⟩
    rw [hit]
    exact hdrain
  | true =>
    refine ⟨enough + 1, ?_⟩
    intro fuel hfuel
    cases fuel with
    | zero => omega
    | succ fuel =>
      unfold FiniteStringsCursor.drain FiniteStringsCursor.nextString
      rw [if_pos rfl, Outcome.pure_eq, ok_bind]
      dsimp only
      rw [hit, hdrain fuel (by omega)]
      rfl

/-- What a new cursor returns: the accepted strings, and the empty one in
front of them, when it is accepted and the initial state has transitions. -/
theorem strings_eq (hfin : Finished a) (hrows : RowsReadable a) (hacyclic : ¬ a.HasCycle) :
    ∃ enough, ∀ fuel ≥ enough, FiniteStringsCursor.strings a fuel =
      .ok ((if a.isAccept 0 = true ∧ a.row 0 ≠ [] then [[]] else []) ++
        stringsBelow a (a.numStates + 1) 0) := by
  unfold FiniteStringsCursor.strings FiniteStringsCursor.new FiniteStringsCursor.withRange
  dsimp only
  cases hrow : (a.row 0)[0]? with
  | none =>
    rw [List.getElem?_eq_none_iff, Nat.le_zero, List.length_eq_zero_iff] at hrow
    rw [if_neg (by simp [Automaton.numTransitions, hrow])]
    have hdrains : Drains a []
        { endState := none
          pathStates := List.replicate a.numStates false
          string := []
          nodes := []
          emitEmptyString := false } := (Emits.refl _).drains rfl
    have hbelow : stringsBelow a (a.numStates + 1) 0 = if a.isAccept 0 then [[]] else [] := by
      rw [stringsBelow, hrow]
      rfl
    rw [hbelow, if_neg (by simp [hrow]), List.nil_append]
    rcases hdrains.drain_emit rfl (a.isAccept 0) with ⟨enough, hdrain⟩
    rw [List.append_nil] at hdrain
    exact ⟨enough, hdrain⟩
  | some t =>
    have hlen : 0 < (a.row 0).length := (List.getElem?_eq_some_iff.1 hrow).1
    have hpos : 0 < a.numStates := by
      by_contra hzero
      unfold Automaton.row at hlen
      rw [List.getD_eq_default _ _ (not_lt.1 hzero)] at hlen
      exact absurd hlen (Nat.lt_irrefl 0)
    rw [if_pos ⟨hpos, hlen⟩, resetState_ok hrow]
    have htop : OnTop a
        { endState := none
          pathStates := (List.replicate a.numStates false).set 0 true
          string := [((0 : Nat) : Int)]
          nodes := [{ state := 0, toState := t.dest, transition := 0, label := t.min, t := t }]
          emitEmptyString := false }
        { state := 0, toState := t.dest, transition := 0, label := t.min, t := t } [] [] := {
      nodes := rfl
      string := ⟨0, rfl⟩
      length := rfl
      endState := rfl
      emit := rfl
      at_node := ⟨hrow, rfl, le_refl _⟩
      reachable := ⟨hpos, .refl⟩
      reads := reads_nil.2 rfl
      states := by
        dsimp only
        rw [List.length_set, List.length_replicate]
      path := by
        intro x hx
        dsimp only at hx ⊢
        rw [List.getElem?_set] at hx
        by_cases hx0 : 0 = x
        · rw [hx0]
          exact .refl
        · rw [if_neg hx0, List.getElem?_replicate] at hx
          split at hx <;> simp at hx }
    have hrun := emits_node hfin hrows hacyclic a.numStates _ _ _ _ _ htop (left_resetState hrow)
      height_le
    have hstrings : nodeStrings a a.numStates [] (labelled (a.row 0)) 0 =
        stringsBelow a (a.numStates + 1) 0 := by
      rw [nodeStrings_labelled]
      exact List.map_id _
    rw [hstrings] at hrun
    rcases (hrun.drains rfl).drain_emit rfl (a.isAccept 0) with ⟨enough, hdrain⟩
    refine ⟨enough, ?_⟩
    intro fuel hfuel
    have hne : a.row 0 ≠ [] := List.ne_nil_of_length_pos hlen
    simp only [hne, ne_eq, not_false_eq_true, and_true]
    exact hdrain fuel hfuel

/-! ## Errors -/

/-- The nodes of the cursor are on one path from the initial state. -/
structure OnPath (a : Automaton) (it : FiniteStringsCursor) : Prop where
  node : ∀ node ∈ it.nodes, a.Reachable node.state ∧ node.toState ∈ a.succs node.state
  chain : it.nodes.Pairwise fun upper lower => Reach a.succs lower.state upper.state
  path : ∀ x, it.pathStates[x]? = some true → ∃ node ∈ it.nodes, node.state = x

/-- `P` holds of what the call returns, and `E` when it reports an error. -/
def ReturnsOr {α : Type} (P : α → Prop) (E : Prop) : Result α → Prop
  | .ok x => P x
  | .err _ => E
  | .panic => True

theorem ReturnsOr.bind {α β : Type} {P : α → Prop} {Q : β → Prop} {E : Prop} {x : Result α}
    {f : α → Result β} (hx : ReturnsOr P E x) (hf : ∀ y, P y → ReturnsOr Q E (f y)) :
    ReturnsOr Q E (x >>= f) := by
  cases x with
  | ok y => exact hf y hx
  | err e => exact hx
  | panic => trivial

theorem returnsOr_expect {α : Type} {E : Prop} {x : Option α} :
    ReturnsOr (fun y => x = some y) E (Outcome.expect x) := by
  cases x with
  | none => trivial
  | some y => rfl

theorem returnsOr_resetState {E : Prop} :
    ReturnsOr (fun node => node.state = q ∧ node.toState ∈ a.succs q) E
      (PathNode.resetState a q) := by
  unfold PathNode.resetState Automaton.getTransition
  apply returnsOr_expect.bind
  intro t ht
  exact ⟨rfl, List.mem_map_of_mem (List.mem_of_getElem? ht)⟩

theorem returnsOr_addI32 {E : Prop} {x y : Int} :
    ReturnsOr (fun _ => True) E (addI32 x y) := by
  unfold addI32 Outcome.guardOk
  split <;> trivial

theorem returnsOr_nextLabel {E : Prop} {node : PathNode} :
    ReturnsOr (fun r => r.1.state = node.state ∧
      (node.toState ∈ a.succs node.state → r.1.toState ∈ a.succs node.state)) E
      (node.nextLabel a) := by
  unfold PathNode.nextLabel Automaton.getTransition
  by_cases hmax : node.label > node.t.max
  · rw [if_pos hmax]
    dsimp only
    by_cases hnum : node.transition + 1 ≥ a.numTransitions node.state
    · rw [if_pos hnum]
      exact ⟨rfl, id⟩
    · rw [if_neg hnum]
      apply returnsOr_expect.bind
      intro t ht
      apply returnsOr_addI32.bind
      intro _ _
      exact ⟨rfl, fun _ => List.mem_map_of_mem (List.mem_of_getElem? ht)⟩
  · rw [if_neg hmax]
    apply returnsOr_addI32.bind
    intro _ _
    exact ⟨rfl, id⟩

theorem returnsOr_guardOk {E p : Prop} [Decidable p] :
    ReturnsOr (fun _ => True) E (Outcome.guardOk p : Result Unit) := by
  unfold Outcome.guardOk
  split <;> trivial

/-- A pass keeps the nodes on one path.  A state that is found on the path
again closes a cycle. -/
theorem OnPath.pass {it : FiniteStringsCursor} (h : OnPath a it) (hfin : Finished a) :
    ReturnsOr (Sum.elim (OnPath a) fun r => OnPath a r.1) a.HasCycle (it.pass a) := by
  unfold FiniteStringsCursor.pass
  cases hnodes : it.nodes with
  | nil => exact h
  | cons node rest =>
    have htop := h.node node (by rw [hnodes]; exact List.mem_cons_self)
    have hchain := h.chain
    rw [hnodes, List.pairwise_cons] at hchain
    dsimp only
    apply returnsOr_nextLabel.bind
    intro ⟨node', label⟩ ⟨hstate, hto⟩
    replace hto := hto htop.2
    dsimp only at hstate hto ⊢
    -- the node with its next label in place of the one on top
    have hnode' : OnPath a { it with
        nodes := node' :: rest
        string := it.string.set rest.length label } := by
      refine ⟨?_, ?_, ?_⟩
      · intro m hm
        rcases List.mem_cons.1 hm with rfl | hm
        · rw [hstate]
          exact ⟨htop.1, hto⟩
        · exact h.node m (by rw [hnodes]; exact List.mem_cons_of_mem _ hm)
      · rw [List.pairwise_cons, hstate]
        exact hchain
      · intro x hx
        rcases h.path x hx with ⟨m, hm, hmx⟩
        rw [hnodes] at hm
        rcases List.mem_cons.1 hm with rfl | hm
        · exact ⟨node', List.mem_cons_self, hstate.trans hmx⟩
        · exact ⟨m, List.mem_cons_of_mem _ hm, hmx⟩
    by_cases hlabel : label ≠ -1
    · rw [if_pos hlabel]
      by_cases hdeep : a.numTransitions node'.toState ≠ 0 ∧ it.endState ≠ some node'.toState
      · rw [if_pos hdeep]
        apply returnsOr_expect.bind
        intro onPath hon
        have harc : node'.toState ∈ a.succs node'.state := by
          rw [hstate]
          exact hto
        have hreach : a.Reachable node'.toState := by
          apply Automaton.Reachable.succ _ hfin hto
          exact htop.1
        have hup : ∀ m ∈ node' :: rest, Reach a.succs m.state node'.toState := by
          intro m hm
          rcases List.mem_cons.1 hm with rfl | hm
          · exact .single harc
          · have := hchain.1 m hm
            rw [← hstate] at this
            exact this.tail harc
        cases onPath with
        | true =>
          rcases hnode'.path _ hon with ⟨m, hm, hmx⟩
          refine ⟨node'.toState, hreach, ?_⟩
          rcases List.mem_cons.1 hm with rfl | hm
          · exact .single (by rw [hmx] at harc; exact harc)
          · have hback := hchain.1 m hm
            rw [hmx, ← hstate] at hback
            exact Relation.TransGen.tail' hback harc
        | false =>
          apply returnsOr_resetState.bind
          intro child ⟨hcstate, hcto⟩
          refine ⟨?_, ?_, ?_⟩
          · intro m hm
            rcases List.mem_cons.1 hm with rfl | hm
            · rw [hcstate]
              exact ⟨hreach, hcto⟩
            · exact hnode'.node m hm
          · apply List.pairwise_cons.2
            constructor
            · rw [hcstate]
              exact hup
            · exact hnode'.chain
          · intro x hx
            dsimp only at hx
            rw [List.getElem?_set] at hx
            by_cases hxt : node'.toState = x
            · exact ⟨child, List.mem_cons_self, hcstate.trans hxt⟩
            · rw [if_neg hxt] at hx
              rcases hnode'.path x hx with ⟨m, hm, hmx⟩
              exact ⟨m, List.mem_cons_of_mem _ hm, hmx⟩
      · rw [if_neg hdeep]
        split <;> exact hnode'
    · rw [if_neg hlabel]
      have hpop : OnPath a { it with
          pathStates := it.pathStates.set node'.state false
          nodes := rest
          string := it.string.take rest.length } := by
        refine ⟨?_, hchain.2, ?_⟩
        · intro m hm
          exact h.node m (by rw [hnodes]; exact List.mem_cons_of_mem _ hm)
        · intro x hx
          dsimp only at hx
          rw [List.getElem?_set] at hx
          by_cases hxs : node'.state = x
          · rw [if_pos hxs] at hx
            split at hx <;> simp at hx
          · rw [if_neg hxs] at hx
            rcases hnode'.path x hx with ⟨m, hm, hmx⟩
            rcases List.mem_cons.1 hm with rfl | hm
            · exact absurd hmx hxs
            · exact ⟨m, hm, hmx⟩
      apply returnsOr_guardOk.bind
      intro _ _
      split <;> exact hpop

/-- A call that reports an error has found a cycle. -/
theorem OnPath.nextString {it : FiniteStringsCursor} (h : OnPath a it) (hfin : Finished a)
    (fuel : Nat) : ReturnsOr (fun r => OnPath a r.1) a.HasCycle (it.nextString a fuel) := by
  have hloop : ∀ (fuel : Nat) (it : FiniteStringsCursor), OnPath a it →
      ReturnsOr (fun r => OnPath a r.1) a.HasCycle
        (iterate (FiniteStringsCursor.pass a) fuel it) := by
    intro fuel
    induction fuel with
    | zero =>
      intro it _
      trivial
    | succ fuel ih =>
      intro it h
      have hpass := h.pass hfin
      rw [iterate]
      cases hres : it.pass a with
      | panic => trivial
      | err e =>
        rw [hres] at hpass
        exact hpass
      | ok x =>
        rw [hres] at hpass
        cases x with
        | inl it' => exact ih it' hpass
        | inr r => exact hpass
  unfold FiniteStringsCursor.nextString
  split
  · exact ⟨h.node, h.chain, h.path⟩
  · exact hloop fuel it h

theorem OnPath.drain (hfin : Finished a) : ∀ (fuel : Nat) {it : FiniteStringsCursor}, OnPath a it →
    ReturnsOr (fun _ => True) a.HasCycle (it.drain a fuel) := by
  intro fuel
  induction fuel with
  | zero =>
    intro it _
    trivial
  | succ fuel ih =>
    intro it h
    unfold FiniteStringsCursor.drain
    apply (h.nextString hfin fuel).bind
    intro ⟨it', s⟩ hit'
    cases s with
    | none => trivial
    | some s =>
      apply (ih hit').bind
      intro _ _
      trivial

/-- An error is reported only if there is a cycle, whatever the labels are. -/
theorem strings_error (hfin : Finished a) (fuel : Nat) :
    ReturnsOr (fun _ => True) a.HasCycle (FiniteStringsCursor.strings a fuel) := by
  have hnew : ReturnsOr (OnPath a) a.HasCycle (FiniteStringsCursor.new a) := by
    have hnone : ∀ x : Nat, (List.replicate a.numStates false)[x]? ≠ some true := by
      intro x
      rw [List.getElem?_replicate]
      split <;> simp
    unfold FiniteStringsCursor.new FiniteStringsCursor.withRange
    dsimp only
    by_cases h : a.numStates > 0 ∧ a.numTransitions 0 > 0
    · rw [if_pos h]
      apply returnsOr_resetState.bind
      intro node ⟨hstate, hto⟩
      refine ⟨?_, List.pairwise_singleton _ _, ?_⟩
      · intro m hm
        rw [List.mem_singleton] at hm
        rw [hm, hstate]
        exact ⟨⟨h.1, .refl⟩, hto⟩
      · intro x hx
        dsimp only at hx
        rw [List.getElem?_set] at hx
        by_cases hx0 : 0 = x
        · exact ⟨node, List.mem_singleton_self _, hstate.trans hx0⟩
        · rw [if_neg hx0] at hx
          exact absurd hx (hnone x)
    · rw [if_neg h]
      exact ⟨by simp, List.Pairwise.nil, fun x hx => absurd hx (hnone x)⟩
  unfold FiniteStringsCursor.strings
  apply hnew.bind
  intro it hit
  exact hit.drain hfin fuel

/-! ## The initial state is popped -/

/-- The lowest node is that of the initial state. -/
def Rooted (nodes : List PathNode) : Prop :=
  ∃ above root, nodes = above ++ [root] ∧ root.state = 0

theorem Rooted.cons {nodes : List PathNode} (h : Rooted nodes) (node : PathNode) :
    Rooted (node :: nodes) := by
  rcases h with ⟨above, root, rfl, hroot⟩
  exact ⟨node :: above, root, rfl, hroot⟩

/-- Under an accepting initial state, the pass that pops the last node returns
the empty string. -/
theorem Rooted.pass {it : FiniteStringsCursor} (h : Rooted it.nodes) (haccept : a.isAccept 0 = true) :
    ReturnsOr (Sum.elim (fun it' => Rooted it'.nodes)
      fun r => ∃ s, r.2 = some s ∧ (s = [] ∨ Rooted r.1.nodes)) True (it.pass a) := by
  unfold FiniteStringsCursor.pass
  cases hnodes : it.nodes with
  | nil =>
    rcases h with ⟨above, root, heq, -⟩
    rw [hnodes] at heq
    simp at heq
  | cons node rest =>
    have hrest : (rest = [] ∧ node.state = 0) ∨ Rooted rest := by
      rcases h with ⟨above, root, heq, hroot⟩
      rw [hnodes] at heq
      cases above with
      | nil =>
        injection heq with hnode hnil
        exact .inl ⟨hnil, by rw [hnode, hroot]⟩
      | cons n above =>
        injection heq with _ heq
        exact .inr ⟨above, root, heq, hroot⟩
    dsimp only
    apply returnsOr_nextLabel.bind
    intro ⟨node', label⟩ ⟨hstate, _⟩
    dsimp only at hstate ⊢
    have hnode' : Rooted (node' :: rest) := by
      rcases hrest with ⟨rfl, hroot⟩ | hrest
      · exact ⟨[], node', rfl, hstate.trans hroot⟩
      · exact hrest.cons node'
    by_cases hlabel : label ≠ -1
    · rw [if_pos hlabel]
      by_cases hdeep : a.numTransitions node'.toState ≠ 0 ∧ it.endState ≠ some node'.toState
      · rw [if_pos hdeep]
        apply returnsOr_expect.bind
        intro onPath _
        cases onPath with
        | true => trivial
        | false =>
          apply returnsOr_resetState.bind
          intro child _
          exact hnode'.cons child
      · rw [if_neg hdeep]
        split
        · exact ⟨_, rfl, .inr hnode'⟩
        · exact hnode'
    · rw [if_neg hlabel]
      apply returnsOr_guardOk.bind
      intro _ _
      rcases hrest with ⟨rfl, hroot⟩ | hrest
      · rw [if_pos (by rw [hstate, hroot]; exact haccept)]
        exact ⟨_, rfl, .inl rfl⟩
      · split
        · exact ⟨_, rfl, .inr hrest⟩
        · exact hrest

theorem Rooted.loop (haccept : a.isAccept 0 = true) : ∀ (fuel : Nat) {it : FiniteStringsCursor},
    Rooted it.nodes → ReturnsOr (fun r => ∃ s, r.2 = some s ∧ (s = [] ∨ Rooted r.1.nodes)) True
      (iterate (FiniteStringsCursor.pass a) fuel it) := by
  intro fuel
  induction fuel with
  | zero =>
    intro it _
    trivial
  | succ fuel ih =>
    intro it h
    have hpass := h.pass haccept
    rw [iterate]
    cases hres : it.pass a with
    | panic => trivial
    | err e => trivial
    | ok x =>
      rw [hres] at hpass
      cases x with
      | inl it' => exact ih hpass
      | inr r => exact hpass

/-- The empty string is among those that are returned until the nodes are
used up. -/
theorem Rooted.drain (haccept : a.isAccept 0 = true) : ∀ (fuel : Nat) {it : FiniteStringsCursor},
    Rooted it.nodes → ReturnsOr (fun l => [] ∈ l) True (it.drain a fuel) := by
  intro fuel
  induction fuel with
  | zero =>
    intro it _
    trivial
  | succ fuel ih =>
    intro it h
    have hnext : ReturnsOr (fun r => ∃ s, r.2 = some s ∧ (s = [] ∨ Rooted r.1.nodes)) True
        (it.nextString a fuel) := by
      unfold FiniteStringsCursor.nextString
      split
      · exact ⟨[], rfl, .inl rfl⟩
      · exact Rooted.loop haccept fuel h
    unfold FiniteStringsCursor.drain
    apply hnext.bind
    intro ⟨it', s⟩ ⟨s', hs, hcase⟩
    dsimp only at hs hcase
    subst hs
    dsimp only
    rcases hcase with rfl | hrooted
    · have hany : ReturnsOr (fun _ => True) True (it'.drain a fuel) := by
        cases it'.drain a fuel <;> trivial
      apply hany.bind
      intro l _
      exact List.mem_cons_self
    · apply (ih hrooted).bind
      intro l hl
      exact List.mem_cons_of_mem _ hl

/-- An accepted empty string comes twice, when the initial state has
transitions. -/
theorem strings_twice (haccept : a.isAccept 0 = true) (hrow : a.row 0 ≠ []) (fuel : Nat) :
    ReturnsOr (fun l => ¬ l.Nodup) True (FiniteStringsCursor.strings a fuel) := by
  unfold FiniteStringsCursor.strings FiniteStringsCursor.new FiniteStringsCursor.withRange
  have hlen : 0 < (a.row 0).length := List.length_pos_of_ne_nil hrow
  have hpos : 0 < a.numStates := by
    by_contra hzero
    unfold Automaton.row at hlen
    rw [List.getD_eq_default _ _ (not_lt.1 hzero)] at hlen
    exact absurd hlen (Nat.lt_irrefl 0)
  dsimp only
  rw [if_pos ⟨hpos, hlen⟩, resetState_ok (List.getElem?_eq_getElem hlen), ok_bind, Outcome.pure_eq,
    ok_bind]
  cases fuel with
  | zero => trivial
  | succ fuel =>
    unfold FiniteStringsCursor.drain FiniteStringsCursor.nextString
    rw [if_pos haccept, Outcome.pure_eq, ok_bind]
    apply (Rooted.drain haccept fuel ⟨[], _, rfl, rfl⟩).bind
    intro l hl hnodup
    exact (List.nodup_cons.1 hnodup).1 hl

/-! ## When the strings are right -/

/-- A deterministic automaton without a cycle yields every accepted string
just once, and an error is reported only for an automaton with a cycle. -/
def StringsExact (a : Automaton) : Prop :=
  (a.deterministic = true → ¬ a.HasCycle →
    ∃ l, (∃ enough, ∀ fuel ≥ enough, FiniteStringsCursor.strings a fuel = .ok l) ∧
      l.Nodup ∧ ∀ s, s ∈ l ↔ a.Accepts s) ∧
  ∀ fuel e, FiniteStringsCursor.strings a fuel = .err e → a.HasCycle

/-- The cursor is not exact when the initial state accepts and has
transitions, whatever the labels are.  Otherwise it is, when it can read the
rows of a deterministic automaton without cycles. -/
theorem strings_exact_iff (hfin : Finished a) :
    (a.deterministic = true ∧ ¬ a.HasCycle ∧ a.isAccept 0 = true ∧ a.row 0 ≠ [] →
      ¬ StringsExact a) ∧
    (¬ (a.deterministic = true ∧ ¬ a.HasCycle ∧ a.isAccept 0 = true ∧ a.row 0 ≠ []) →
      (a.deterministic = true → ¬ a.HasCycle → RowsReadable a) → StringsExact a) := by
  constructor
  · intro ⟨hdet, hacyclic, haccept, hrow⟩ ⟨hexact, _⟩
    rcases hexact hdet hacyclic with ⟨l, ⟨enough, hrun⟩, hnodup, -⟩
    have htwice := strings_twice haccept hrow enough
    rw [hrun enough (le_refl _)] at htwice
    exact htwice hnodup
  · intro hnot hreadable
    constructor
    · intro hdet hacyclic
      have hempty : ¬ (a.isAccept 0 = true ∧ a.row 0 ≠ []) := by
        intro h
        exact hnot ⟨hdet, hacyclic, h⟩
      refine ⟨stringsBelow a (a.numStates + 1) 0, ?_, stringsBelow_nodup hfin hdet, ?_⟩
      · rcases strings_eq hfin (hreadable hdet hacyclic) hacyclic with ⟨enough, hrun⟩
        rw [if_neg hempty] at hrun
        exact ⟨enough, hrun⟩
      · intro s
        rw [mem_stringsBelow, accepts_iff]
        constructor
        · exact And.right
        · intro hs
          refine ⟨?_, hs⟩
          by_cases hpos : 0 < a.numStates
          · have hlt := length_lt_height hfin hacyclic ⟨hpos, .refl⟩ hs
            have hle := height_le (a := a) (q := 0)
            omega
          · rcases reach_of_accepts hs with ⟨f, hf, -⟩
            have := hfin.lt_of_accept hf
            omega
    · intro fuel e he
      have := strings_error hfin fuel
      rw [he] at this
      exact this

/-- The words `a` and `b`, and `ac`. -/
def threeWords : Automaton where
  transitions := [[⟨1, 97, 97⟩, ⟨2, 98, 98⟩], [⟨2, 99, 99⟩], []]
  accepts := [false, true, true]
  curState := none
  deterministic := true

theorem strings_exact_threeWords : StringsExact threeWords := by
  have hfin : Finished threeWords := by
    apply finished_of_rows <;> decide
  have hrows : ∀ q, Readable (threeWords.row q) := by
    apply Automaton.forall_rows
    · exact ⟨by simp, by simp, by simp⟩
    · intro ts hts
      constructor
      · revert ts
        decide
      · intro t ht c hc
        have hlabel : ∀ ts ∈ threeWords.transitions, ∀ t ∈ ts, 0 ≤ t.min ∧ t.max ≤ 100 := by decide
        have hin := hlabel ts hts t ht
        unfold IsI32
        unfold Transition.Covers at hc
        omega
      · revert ts
        decide
  apply (strings_exact_iff hfin).2
  · intro ⟨_, _, haccept, _⟩
    cases haccept
  · intro _ _ s q _
    exact hrows q

/-- The empty word and `a`. -/
def optionalA : Automaton where
  transitions := [[⟨1, 97, 97⟩], []]
  accepts := [true, true]
  curState := none
  deterministic := true

/-- The empty string comes twice. -/
theorem strings_optionalA :
    Finished optionalA ∧ ¬ optionalA.HasCycle ∧
      FiniteStringsCursor.strings optionalA 10 = .ok [[], [97], []] := by
  refine ⟨?_, ?_, ?_⟩
  · apply finished_of_rows <;> decide
  · intro ⟨q, _, hcycle⟩
    -- the only transition leads from 0 to 1
    have harc : ∀ p d, Arc optionalA.succs p d → p = 0 ∧ d = 1 := by
      intro p d hd
      match p, hd with
      | 0, hd => exact ⟨rfl, List.mem_singleton.1 hd⟩
      | 1, hd => cases hd
      | n + 2, hd => cases hd
    rcases Relation.TransGen.head'_iff.1 hcycle with ⟨d, hqd, -⟩
    rcases Relation.TransGen.tail'_iff.1 hcycle with ⟨p, -, hpq⟩
    have h₀ := (harc q d hqd).1
    have h₁ := (harc p q hpq).2
    omega
  · rfl

end LuceneRust.Util.Automata
