import LuceneRust.Util.Automata.Operations
import LuceneRust.Util.Automata.AutomatonSpec
import LuceneRust.Lib.DepthFirst

/-!
# The live states of an automaton

`get_live_states` marks the states that can be reached from the initial state
and can reach an accepting one.  Both directions are a search with a work
list, and `workList_reaches` is the result on such a search, whatever the
neighbours are.

`getLiveStates_spec` is what `get_live_states` returns, in terms of the
transitions of the automaton.  A transition whose interval is empty counts as well.
-/

namespace LuceneRust.Util.Automata

open RustSem DepthFirst

/-- The destinations of the transitions of a state. -/
def Automaton.succs (a : Automaton) (q : Nat) : List Nat :=
  (a.row q).map (·.dest)

/-- `q` is a state that can be reached from the initial state. -/
def Automaton.Reachable (a : Automaton) (q : Nat) : Prop :=
  q < a.numStates ∧ Reach a.succs 0 q

/-- Some cycle can be reached from the initial state. -/
def Automaton.HasCycle (a : Automaton) : Prop :=
  ∃ q, a.Reachable q ∧ OnCycle a.succs q

variable {a : Automaton} {s : WorkList} {next : Nat → List Nat} {n q d : Nat} {start : Nat → Prop}

/-! ## The work list -/

/-- The state `q` was put on the work list at some time. -/
def WorkList.Marked (s : WorkList) (q : Nat) : Prop :=
  s.live[q]? = some true

/-- What a search from the states `start` keeps: the marked states can be
reached, and the neighbours of those that have left the list are marked. -/
structure Exploring (next : Nat → List Nat) (start : Nat → Prop) (n : Nat) (s : WorkList) : Prop where
  length : s.live.length = n
  marked : ∀ q ∈ s.work, s.Marked q
  started : ∀ q, start q → s.Marked q
  sound : ∀ q, s.Marked q → ∃ p, start p ∧ Reach next p q
  closed : ∀ q, s.Marked q → q ∉ s.work → ∀ d ∈ next q, s.Marked d

/-- The states that are not marked, and those on the list. -/
def WorkList.left (s : WorkList) : Nat :=
  s.live.count false + s.work.length

theorem WorkList.Marked.lt (h : s.Marked q) : q < s.live.length :=
  (List.getElem?_eq_some_iff.1 h).1

/-- A state that is put on the list is marked, and the others stay as they
were. -/
theorem WorkList.push_ok (hd : d < s.live.length) :
    ∃ s', s.push d = .ok s' ∧ s'.live.length = s.live.length ∧ s'.left = s.left ∧
      (∀ q, s'.Marked q ↔ s.Marked q ∨ q = d) ∧
      (∀ q ∈ s.work, q ∈ s'.work) ∧ (∀ q ∈ s'.work, q ∈ s.work ∨ s'.Marked q) ∧
      ∀ q, s'.Marked q → s.Marked q ∨ q ∈ s'.work := by
  have hget : s.live[d]? = some s.live[d] := List.getElem?_eq_getElem hd
  unfold WorkList.push
  rw [hget, expect_some, ok_bind]
  cases hseen : s.live[d] with
  | true =>
    have hmarked : s.Marked d := by
      unfold WorkList.Marked
      rw [hget, hseen]
    refine ⟨s, rfl, rfl, rfl, ?_, fun q hq => hq, fun q hq => .inl hq, fun q hq => .inl hq⟩
    intro q
    constructor
    · exact .inl
    · intro h
      rcases h with h | rfl
      · exact h
      · exact hmarked
  | false =>
    have hiff : ∀ q, (s.live.set d true)[q]? = some true ↔ s.Marked q ∨ q = d := by
      intro q
      unfold WorkList.Marked
      rw [List.getElem?_set]
      by_cases hq : d = q
      · subst hq
        simp [hd]
      · simp [hq, Ne.symm hq]
    refine ⟨_, rfl, List.length_set, ?_, hiff, ?_, ?_, ?_⟩
    · have hpos : 0 < s.live.count false := by
        rw [List.count_pos_iff, ← hseen]
        exact List.getElem_mem hd
      unfold WorkList.left
      dsimp only
      rw [List.count_set hd, hseen, List.length_append]
      simp only [beq_self_eq_true, if_true, beq_false, Bool.not_true, Bool.false_eq_true, if_false,
        List.length_singleton]
      omega
    · intro q hq
      exact List.mem_append_left _ hq
    · intro q hq
      rcases List.mem_append.1 hq with hq | hq
      · exact .inl hq
      · exact .inr ((hiff q).2 (.inr (List.mem_singleton.1 hq)))
    · intro q hq
      rcases (hiff q).1 hq with hq | rfl
      · exact .inl hq
      · exact .inr (by simp)

/-- The loop over the neighbours of a state. -/
theorem WorkList.push_foldlM {ds : List Nat} (hds : ∀ d ∈ ds, d < s.live.length) :
    ∃ s', ds.foldlM WorkList.push s = (.ok s' : Result WorkList) ∧
      s'.live.length = s.live.length ∧ s'.left = s.left ∧
      (∀ q, s'.Marked q ↔ s.Marked q ∨ q ∈ ds) ∧
      (∀ q ∈ s.work, q ∈ s'.work) ∧ (∀ q ∈ s'.work, q ∈ s.work ∨ s'.Marked q) ∧
      ∀ q, s'.Marked q → s.Marked q ∨ q ∈ s'.work := by
  induction ds generalizing s with
  | nil =>
    exact ⟨s, rfl, rfl, rfl, by simp, fun q hq => hq, fun q hq => .inl hq, fun q hq => .inl hq⟩
  | cons d ds ih =>
    rcases WorkList.push_ok (hds d List.mem_cons_self) with
      ⟨t, ht, hlen, hleft, hmarked, hwork, hback, hnew⟩
    have hds' : ∀ e ∈ ds, e < t.live.length := by
      intro e he
      rw [hlen]
      exact hds e (List.mem_cons_of_mem _ he)
    rcases ih hds' with ⟨s', hs', hlen', hleft', hmarked', hwork', hback', hnew'⟩
    refine ⟨s', ?_, hlen'.trans hlen, hleft'.trans hleft, ?_, ?_, ?_, ?_⟩
    · rw [List.foldlM_cons, ht, ok_bind, hs']
    · intro q
      rw [hmarked', hmarked, List.mem_cons]
      tauto
    · intro q hq
      exact hwork' q (hwork q hq)
    · intro q hq
      rcases hback' q hq with hq | hq
      · exact (hback q hq).imp_right fun hm => (hmarked' q).2 (.inl hm)
      · exact .inr hq
    · intro q hq
      rcases hnew' q hq with hq | hq
      · rcases hnew q hq with hq | hq
        · exact .inl hq
        · exact .inr (hwork' q hq)
      · exact .inr hq

/-- One pass takes a state off the list. -/
theorem Exploring.pass (h : Exploring next start n s) (hnext : ∀ q < n, ∀ d ∈ next q, d < n) :
    (∃ s', workPass next s = .ok (.inl s') ∧ Exploring next start n s' ∧ s'.left < s.left) ∨
    ∃ live, workPass next s = .ok (.inr live) ∧ live.length = n ∧
      ∀ q, live[q]? = some true ↔ ∃ p, start p ∧ Reach next p q := by
  unfold workPass
  cases hwork : s.work with
  | nil =>
    right
    refine ⟨s.live, rfl, h.length, ?_⟩
    intro q
    refine ⟨h.sound q, ?_⟩
    intro ⟨p, hp, hreach⟩
    unfold Reach at hreach
    induction hreach with
    | refl => exact h.started p hp
    | tail _ harc ih => exact h.closed _ ih (by rw [hwork]; exact List.not_mem_nil) _ harc
  | cons q work =>
    left
    dsimp only
    have hq : s.Marked q := h.marked q (by rw [hwork]; exact List.mem_cons_self)
    have hqn : q < n := by
      rw [← h.length]
      exact hq.lt
    have hds : ∀ d ∈ next q, d < ({ s with work := work } : WorkList).live.length := by
      intro d hd
      show d < s.live.length
      rw [h.length]
      exact hnext q hqn d hd
    rcases WorkList.push_foldlM hds with
      ⟨s', hs', hlen, hleft, hmarked, hsub, hback, hnew⟩
    have hmarked' : ∀ p, s'.Marked p ↔ s.Marked p ∨ p ∈ next q := hmarked
    rw [hs', ok_bind]
    refine ⟨s', rfl, ⟨hlen.trans h.length, ?_, ?_, ?_, ?_⟩, ?_⟩
    · intro p hp
      rcases hback p hp with hp | hp
      · rw [hmarked']
        left
        apply h.marked
        rw [hwork]
        exact List.mem_cons_of_mem q hp
      · exact hp
    · intro p hp
      exact (hmarked' p).2 (.inl (h.started p hp))
    · intro p hp
      rcases (hmarked' p).1 hp with hp | hp
      · exact h.sound p hp
      · rcases h.sound q hq with ⟨r, hr, hreach⟩
        exact ⟨r, hr, Relation.ReflTransGen.tail hreach hp⟩
    · intro p hp hnot d hd
      rw [hmarked']
      rcases hnew p hp with hold | hin
      · by_cases hpq : p = q
        · rw [hpq] at hd
          exact .inr hd
        · left
          apply h.closed p hold _ d hd
          rw [hwork]
          intro hmem
          rcases List.mem_cons.1 hmem with heq | hmem
          · exact hpq heq
          · exact hnot (hsub p hmem)
      · exact absurd hin hnot
    · rw [hleft]
      unfold WorkList.left
      rw [hwork, List.length_cons]
      dsimp only
      omega

/-- A search marks the states that can be reached from those that are marked
before it. -/
theorem workList_reaches {live : List Bool} {work : List Nat} {fuel : Nat}
    (hwork : ∀ q, q ∈ work ↔ live[q]? = some true)
    (hnext : ∀ q < live.length, ∀ d ∈ next q, d < live.length)
    (hfuel : live.count false + work.length < fuel) :
    ∃ live', iterate (workPass next) fuel { live := live, work := work } =
        (.ok live' : Result (List Bool)) ∧
      live'.length = live.length ∧
      ∀ q, live'[q]? = some true ↔ ∃ p, live[p]? = some true ∧ Reach next p q := by
  have hstart : Exploring next (fun q => live[q]? = some true) live.length
      { live := live, work := work } := {
    length := rfl
    marked := fun q hq => (hwork q).1 hq
    started := fun _ hq => hq
    sound := fun q hq => ⟨q, hq, .refl⟩
    closed := fun q hq hnot => absurd ((hwork q).2 hq) hnot }
  exact iterate_ok _ (Exploring next _ _) WorkList.left _ (fun _ hs => hs.pass hnext) fuel _
    hstart hfuel

/-! ## Both directions -/

theorem Finished.succs_lt (h : Finished a) (hd : d ∈ a.succs q) : d < a.numStates := by
  rcases List.mem_map.1 hd with ⟨t, ht, rfl⟩
  exact h.dest_lt q t ht

theorem Automaton.succs_of_ge (hq : a.numStates ≤ q) : a.succs q = [] := by
  unfold Automaton.succs Automaton.row
  rw [List.getD_eq_default _ _ hq]
  rfl

/-- `get_live_states_from_initial`. -/
theorem getLiveStatesFromInitial_spec (h : Finished a) :
    ∃ live, getLiveStatesFromInitial a = .ok live ∧ live.length = a.numStates ∧
      ∀ q, live[q]? = some true ↔ 0 < a.numStates ∧ Reach a.succs 0 q := by
  unfold getLiveStatesFromInitial
  dsimp only
  by_cases hn : a.numStates = 0
  · rw [if_pos hn]
    refine ⟨[], rfl, hn.symm, ?_⟩
    intro q
    simp [hn]
  · rw [if_neg hn]
    have hpos : 0 < a.numStates := Nat.pos_of_ne_zero hn
    have hlen : ((List.replicate a.numStates false).set 0 true).length = a.numStates := by
      rw [List.length_set, List.length_replicate]
    have hmarked : ∀ q, ((List.replicate a.numStates false).set 0 true)[q]? = some true ↔
        q = 0 := by
      intro q
      rw [List.getElem?_set]
      by_cases hq : 0 = q
      · subst hq
        simp [hpos]
      · simp [hq, Ne.symm hq, List.getElem?_replicate]
    generalize (List.replicate a.numStates false).set 0 true = live at hlen hmarked ⊢
    have hwork : ∀ q, q ∈ [0] ↔ live[q]? = some true := by
      intro q
      rw [hmarked, List.mem_singleton]
    have hcount : live.count false + [0].length < a.numStates + 2 := by
      have := List.count_le_length (a := false) (l := live)
      rw [List.length_singleton]
      omega
    have hnext : ∀ q < live.length, ∀ d ∈ a.succs q, d < live.length := by
      intro q _ d hd
      rw [hlen]
      exact h.succs_lt hd
    rcases workList_reaches hwork hnext hcount with ⟨live', hrun, hlen', hmem⟩
    refine ⟨live', hrun, hlen'.trans hlen, ?_⟩
    intro q
    rw [hmem]
    simp only [hmarked, exists_eq_left, hpos, true_and]

theorem reverseRows_spec (h : Finished a) :
    ∃ rows, reverseRows a = .ok rows ∧ rows.length = a.numStates ∧
      ∀ d q, q ∈ rows.getD d [] ↔ d ∈ a.succs q := by
  -- one transition appends its source to the row of its destination
  have hpush : ∀ (q : Nat) (rows : List (List Nat)) (t : Transition), t.dest < rows.length →
      ∃ rows', pushReverse q rows t = .ok rows' ∧ rows'.length = rows.length ∧
        ∀ d p, p ∈ rows'.getD d [] ↔ p ∈ rows.getD d [] ∨ p = q ∧ d = t.dest := by
    intro q rows t ht
    refine ⟨rows.modify t.dest (· ++ [q]), ?_, List.length_modify _ _ _, ?_⟩
    · unfold pushReverse
      rw [guardOk_pos ht]
      rfl
    · intro d p
      simp only [List.getD_eq_getElem?_getD, List.getElem?_modify]
      by_cases hd : t.dest = d
      · subst hd
        simp [ht]
      · simp [hd, Ne.symm hd]
  have hrow : ∀ (q : Nat) (rows : List (List Nat)) (ts : List Transition),
      (∀ t ∈ ts, t.dest < rows.length) →
      ∃ rows', ts.foldlM (pushReverse q) rows = (.ok rows' : Result (List (List Nat))) ∧
        rows'.length = rows.length ∧
        ∀ d p, p ∈ rows'.getD d [] ↔ p ∈ rows.getD d [] ∨ p = q ∧ d ∈ ts.map (·.dest) := by
    intro q rows ts
    induction ts generalizing rows with
    | nil =>
      intro _
      exact ⟨rows, rfl, rfl, by simp⟩
    | cons t ts ih =>
      intro hts
      rcases hpush q rows t (hts t List.mem_cons_self) with ⟨rows₁, h₁, hlen₁, hmem₁⟩
      have hts' : ∀ u ∈ ts, u.dest < rows₁.length := by
        intro u hu
        rw [hlen₁]
        exact hts u (List.mem_cons_of_mem _ hu)
      rcases ih rows₁ hts' with ⟨rows₂, h₂, hlen₂, hmem₂⟩
      refine ⟨rows₂, ?_, hlen₂.trans hlen₁, ?_⟩
      · rw [List.foldlM_cons, h₁, ok_bind, h₂]
      · intro d p
        rw [hmem₂, hmem₁, List.map_cons, List.mem_cons]
        tauto
  have hall : ∀ n ≤ a.numStates, ∃ rows, (List.range n).foldlM
      (fun reverse s => (a.row s).foldlM (pushReverse s) reverse)
      (List.replicate a.numStates []) = (.ok rows : Result (List (List Nat))) ∧
      rows.length = a.numStates ∧
      ∀ d p, p ∈ rows.getD d [] ↔ p < n ∧ d ∈ a.succs p := by
    intro n
    induction n with
    | zero =>
      intro _
      refine ⟨_, rfl, List.length_replicate, ?_⟩
      intro d p
      simp [List.getElem?_replicate]
      split <;> simp
    | succ n ih =>
      intro hn
      rcases ih (by omega) with ⟨rows₁, h₁, hlen₁, hmem₁⟩
      have hts : ∀ t ∈ a.row n, t.dest < rows₁.length := by
        intro t ht
        rw [hlen₁]
        exact h.dest_lt n t ht
      rcases hrow n rows₁ (a.row n) hts with ⟨rows₂, h₂, hlen₂, hmem₂⟩
      refine ⟨rows₂, ?_, hlen₂.trans hlen₁, ?_⟩
      · rw [List.range_succ, List.foldlM_append, h₁, ok_bind, List.foldlM_cons, h₂]
        rfl
      · intro d p
        rw [hmem₂, hmem₁]
        constructor
        · intro hp
          rcases hp with hp | ⟨rfl, hp⟩
          · exact ⟨by omega, hp.2⟩
          · exact ⟨by omega, hp⟩
        · intro ⟨hp, hd⟩
          rcases Nat.lt_succ_iff_lt_or_eq.1 hp with hp | rfl
          · exact .inl ⟨hp, hd⟩
          · exact .inr ⟨rfl, hd⟩
  rcases hall a.numStates (le_refl _) with ⟨rows, hrows, hlen, hmem⟩
  refine ⟨rows, hrows, hlen, ?_⟩
  intro d q
  rw [hmem]
  constructor
  · exact And.right
  · intro hd
    refine ⟨?_, hd⟩
    by_contra hq
    rw [Automaton.succs_of_ge (not_lt.1 hq)] at hd
    cases hd

theorem count_false_map {f : Nat → Bool} (l : List Nat) :
    (l.map f).count false + (l.filter f).length = l.length := by
  induction l with
  | nil => rfl
  | cons x l ih =>
    cases hx : f x <;> simp [hx] <;> omega

/-- Reaching backwards is reaching forwards. -/
theorem reach_reverse {rev : Nat → List Nat} (hrev : ∀ d q, q ∈ rev d ↔ d ∈ a.succs q) :
    Reach rev d q ↔ Reach a.succs q d := by
  unfold Reach
  rw [← Relation.reflTransGen_swap]
  have harc : Function.swap (Arc rev) = Arc a.succs := by
    funext x y
    exact propext (hrev y x)
  rw [harc]

theorem Finished.lt_of_accept (h : Finished a) (hq : a.isAccept q = true) : q < a.numStates := by
  by_contra hge
  unfold Automaton.isAccept at hq
  rw [List.getD_eq_default _ _ (by rw [h.accepts_length]; exact not_lt.1 hge)] at hq
  cases hq

/-- `get_live_states_to_accept`. -/
theorem getLiveStatesToAccept_spec (h : Finished a) :
    ∃ live, getLiveStatesToAccept a = .ok live ∧ live.length = a.numStates ∧
      ∀ q, live[q]? = some true ↔ ∃ f, a.isAccept f = true ∧ Reach a.succs q f := by
  rcases reverseRows_spec h with ⟨rows, hrows, hlen, hmem⟩
  unfold getLiveStatesToAccept
  rw [hrows, ok_bind]
  have hmarked : ∀ q, ((List.range a.numStates).map a.isAccept)[q]? = some true ↔
      a.isAccept q = true := by
    intro q
    rw [List.getElem?_map, Option.map_eq_some_iff]
    constructor
    · intro ⟨p, hp, hacc⟩
      rcases List.getElem?_eq_some_iff.1 hp with ⟨hlt, hget⟩
      rw [List.getElem_range] at hget
      rwa [hget]
    · intro hq
      exact ⟨q, List.getElem?_range (h.lt_of_accept hq), hq⟩
  have hwork : ∀ q, q ∈ (List.range a.numStates).filter a.isAccept ↔
      ((List.range a.numStates).map a.isAccept)[q]? = some true := by
    intro q
    rw [hmarked, List.mem_filter, List.mem_range]
    exact ⟨And.right, fun hq => ⟨h.lt_of_accept hq, hq⟩⟩
  have hnext : ∀ q < ((List.range a.numStates).map a.isAccept).length,
      ∀ d ∈ rows.getD q [], d < ((List.range a.numStates).map a.isAccept).length := by
    intro q _ d hd
    rw [List.length_map, List.length_range]
    by_contra hge
    have := (hmem q d).1 hd
    rw [Automaton.succs_of_ge (not_lt.1 hge)] at this
    cases this
  have hfuel : ((List.range a.numStates).map a.isAccept).count false +
      ((List.range a.numStates).filter a.isAccept).length < a.numStates + 2 := by
    rw [count_false_map, List.length_range]
    omega
  rcases workList_reaches hwork hnext hfuel with ⟨live, hrun, hlen', hreach⟩
  refine ⟨live, hrun, by rw [hlen', List.length_map, List.length_range], ?_⟩
  intro q
  rw [hreach]
  simp only [hmarked, reach_reverse hmem]

/-- `q` can be reached from the initial state, and can reach an accepting
one. -/
def Automaton.Live (a : Automaton) (q : Nat) : Prop :=
  Reach a.succs 0 q ∧ ∃ f, a.isAccept f = true ∧ Reach a.succs q f

theorem Finished.lt_of_live (h : Finished a) (hq : a.Live q) : q < a.numStates := by
  rcases hq with ⟨-, f, hf, hreach⟩
  rcases Relation.ReflTransGen.cases_head hreach with rfl | ⟨d, hd, -⟩
  · exact h.lt_of_accept hf
  · by_contra hge
    have hnil := a.succs_of_ge (not_lt.1 hge)
    unfold Arc at hd
    rw [hnil] at hd
    cases hd

/-- `get_live_states`. -/
theorem getLiveStates_spec (h : Finished a) :
    ∃ live, getLiveStates a = .ok live ∧ live.length = a.numStates ∧
      ∀ q, live.getD q false = true ↔ a.Live q := by
  rcases getLiveStatesFromInitial_spec h with ⟨live₁, h₁, hlen₁, hmem₁⟩
  rcases getLiveStatesToAccept_spec h with ⟨live₂, h₂, hlen₂, hmem₂⟩
  refine ⟨List.zipWith (· && ·) live₁ live₂, ?_, ?_, ?_⟩
  · unfold getLiveStates
    rw [h₁, ok_bind, h₂, ok_bind]
    rfl
  · rw [List.length_zipWith, hlen₁, hlen₂, Nat.min_self]
  · intro q
    by_cases hq : q < a.numStates
    · have hpos : 0 < a.numStates := by omega
      have hget₁ : live₁[q]? = some (live₁.getD q false) := by
        rw [List.getElem?_eq_getElem (by omega), List.getD_eq_getElem _ _ (by omega)]
      have hget₂ : live₂[q]? = some (live₂.getD q false) := by
        rw [List.getElem?_eq_getElem (by omega), List.getD_eq_getElem _ _ (by omega)]
      have hfrom : Reach a.succs 0 q ↔ live₁[q]? = some true := by
        rw [hmem₁]
        simp [hpos]
      unfold Automaton.Live
      rw [← hmem₂, hfrom, List.getD_eq_getElem?_getD, List.getElem?_zipWith, hget₁, hget₂]
      simp
    · rw [List.getD_eq_default]
      · simp only [Bool.false_eq_true, false_iff]
        exact fun hlive => hq (h.lt_of_live hlive)
      · rw [List.length_zipWith]
        omega

/-- What can be read leads along the transitions. -/
theorem reach_of_reads {x : List Int} (hx : NfaPaths.Reads a.nfa q x d) : Reach a.succs q d := by
  induction x generalizing q with
  | nil =>
    rw [NfaPaths.reads_nil.1 hx]
    exact .refl
  | cons c x ih =>
    rcases NfaPaths.reads_cons.1 hx with ⟨e, ⟨t, ht, rfl, -⟩, he⟩
    exact .head (List.mem_map_of_mem ht) (ih he)

/-- What accepts something can reach an accepting state. -/
theorem reach_of_accepts {x : List Int} (hx : NfaPaths.Accepts a.nfa q x) :
    ∃ f, a.isAccept f = true ∧ Reach a.succs q f := by
  rcases hx with ⟨f, hf, hreads⟩
  exact ⟨f, hf, reach_of_reads hreads⟩

end LuceneRust.Util.Automata
