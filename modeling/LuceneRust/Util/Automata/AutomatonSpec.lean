import LuceneRust.Util.Automata.RowSpec
import Mathlib.Data.List.GetD

/-!
# What a built automaton holds

`Built a log` follows an automaton through its construction: `log` lists the
transitions that were added, in order, each with its source.  The state that
transitions are being added to still has them as they came, and every other
state has them finished.

* `Built.addTransition` and its companions are the lemmas of the calls.
  `addTransition_foldlM` is the loop that adds transitions source by source.
* `Built.edge_iff`: the edges are those of the log, whenever a state was
  finished.
* `Finished` is what `finish_state` leaves, and what the functions that take
  an automaton rely on.  `Built.finished` is its introduction.
* `Finished.step_eq_some` says that `step` follows the edges of a
  deterministic automaton.
-/

namespace LuceneRust.Util.Automata

open RustSem

variable {a : Automaton} {log : List (Nat × Transition)} {e : Nat × Transition}
  {q d : Nat} {c : Int}

/-- The transitions of the log with the source `q`. -/
def logRow (log : List (Nat × Transition)) (q : Nat) : List Transition :=
  (log.filter (·.1 = q)).map (·.2)

@[simp] theorem logRow_nil : logRow [] q = [] := rfl

theorem logRow_append (log log' : List (Nat × Transition)) :
    logRow (log ++ log') q = logRow log q ++ logRow log' q := by
  simp [logRow]

theorem logRow_singleton :
    logRow [e] q = if e.1 = q then [e.2] else [] := by
  by_cases h : e.1 = q
  · simp [logRow, h]
  · simp [logRow, h]

theorem mem_logRow {t : Transition} : t ∈ logRow log q ↔ (q, t) ∈ log := by
  unfold logRow
  simp only [List.mem_map, List.mem_filter, decide_eq_true_eq, Prod.exists]
  constructor
  · intro ⟨p, u, ⟨hmem, hp⟩, hu⟩
    rwa [← hp, ← hu]
  · intro hmem
    exact ⟨q, t, ⟨hmem, rfl⟩, rfl⟩

theorem logRow_eq_nil : logRow log q = [] ↔ ∀ t, (q, t) ∉ log := by
  rw [List.eq_nil_iff_forall_not_mem]
  simp only [mem_logRow]

theorem logRow_map_self (ts : List Transition) : logRow (ts.map fun t => (q, t)) q = ts := by
  unfold logRow
  rw [List.filter_eq_self.2 (by simp), List.map_map]
  exact List.map_id ts

theorem logRow_map_ne {p : Nat} (ts : List Transition) (h : p ≠ q) :
    logRow (ts.map fun t => (q, t)) p = [] := by
  rw [logRow_eq_nil]
  intro t ht
  rcases List.mem_map.1 ht with ⟨u, _, heq⟩
  exact h (congrArg Prod.fst heq).symm

theorem rowEdge_logRow : RowEdge (logRow log q) c d ↔ ∃ t, (q, t) ∈ log ∧ t.dest = d ∧ t.Covers c := by
  simp only [RowEdge, mem_logRow]

/-! ## The invariant of the construction -/

/-- `a` was built by adding the transitions of `log`. -/
structure Built (a : Automaton) (log : List (Nat × Transition)) : Prop where
  accepts_length : a.accepts.length = a.numStates
  lt : ∀ e ∈ log, e.1 < a.numStates ∧ e.2.dest < a.numStates
  row : ∀ q, a.row q = if a.curState = some q then logRow log q else finishRow (logRow log q)
  det : a.deterministic = true ↔
    ∀ q, a.curState ≠ some q → rowDeterministic (finishRow (logRow log q)) = true

theorem Built.empty : Built Automaton.empty [] where
  accepts_length := rfl
  lt := by simp
  row := by simp [Automaton.row, Automaton.empty]
  det := by simp [Automaton.empty, rowDeterministic]

/-- The states of the log are among the states of the automaton. -/
theorem Built.row_of_ge (h : Built a log) (hq : a.numStates ≤ q) : logRow log q = [] := by
  rw [logRow_eq_nil]
  intro t ht
  have := (h.lt _ ht).1
  omega

theorem Built.row_eq_nil (h : Built a log) : a.row q = [] ↔ logRow log q = [] := by
  rw [h.row]
  split
  · rfl
  · exact finishRow_eq_nil

/-- The edges of the automaton are those of the log. -/
theorem Built.edge_iff (h : Built a log) :
    a.Edge q c d ↔ ∃ t, (q, t) ∈ log ∧ t.dest = d ∧ t.Covers c := by
  rw [← rowEdge_logRow]
  unfold Automaton.Edge
  rw [h.row]
  split
  · rfl
  · exact rowEdge_finishRow

theorem Built.edge_iff_row (h : Built a log) : a.Edge q c d ↔ RowEdge (logRow log q) c d :=
  h.edge_iff.trans rowEdge_logRow.symm

/-! ## The calls -/

@[simp] theorem Automaton.numStates_createState (a : Automaton) :
    a.createState.1.numStates = a.numStates + 1 := by
  simp [Automaton.createState, Automaton.numStates]

@[simp] theorem Automaton.curState_createState (a : Automaton) :
    a.createState.1.curState = a.curState := rfl

@[simp] theorem Automaton.createState_snd (a : Automaton) :
    a.createState.2 = a.numStates := rfl

theorem Automaton.row_createState (a : Automaton) : a.createState.1.row q = a.row q := by
  unfold Automaton.createState Automaton.row
  rcases lt_trichotomy q a.transitions.length with h | h | h
  · rw [List.getD_append _ _ _ _ h]
  · rw [List.getD_append_right _ _ _ _ h.ge, List.getD_eq_default _ _ h.ge]
    simp [h]
  · rw [List.getD_eq_default _ _ (by simp; omega), List.getD_eq_default _ _ h.le]

theorem Built.isAccept_of_ge (h : Built a log) (hq : a.numStates ≤ q) : a.isAccept q = false := by
  unfold Automaton.isAccept
  rw [List.getD_eq_default]
  rw [h.accepts_length]
  exact hq

theorem Built.createState (h : Built a log) : Built a.createState.1 log where
  accepts_length := by
    simp [Automaton.createState, Automaton.numStates, h.accepts_length]
  lt e he := by
    have := h.lt e he
    rw [Automaton.numStates_createState]
    omega
  row q := by
    rw [Automaton.row_createState, h.row]
    rfl
  det := h.det

theorem Automaton.isAccept_createState (a : Automaton) :
    a.createState.1.isAccept q = a.isAccept q := by
  unfold Automaton.isAccept Automaton.createState
  rcases lt_trichotomy q a.accepts.length with hq | hq | hq
  · rw [List.getD_append _ _ _ _ hq]
  · rw [List.getD_append_right _ _ _ _ hq.ge, List.getD_eq_default _ _ hq.ge]
    simp [hq]
  · rw [List.getD_eq_default _ _ (by simp; omega), List.getD_eq_default _ _ hq.le]

/-- `set_accept` on a state that exists. -/
theorem Built.setAccept (h : Built a log) (hq : q < a.numStates) (accept : Bool) :
    ∃ a', a.setAccept q accept = .ok a' ∧ Built a' log ∧ a'.numStates = a.numStates ∧
      a'.curState = a.curState ∧
      ∀ p, a'.isAccept p = if p = q then accept else a.isAccept p := by
  refine ⟨{ a with accepts := a.accepts.set q accept }, ?_, ?_, rfl, rfl, ?_⟩
  · unfold Automaton.setAccept
    rw [guardOk_pos hq]
    rfl
  · exact ⟨by simpa [Automaton.numStates] using h.accepts_length, h.lt, h.row, h.det⟩
  · intro p
    unfold Automaton.isAccept
    have hlen : q < a.accepts.length := by
      rw [h.accepts_length]
      exact hq
    simp only [List.getD_eq_getElem?_getD, List.getElem?_set]
    by_cases hp : p = q
    · simp [hp, hlen]
    · rw [if_neg hp, if_neg (Ne.symm hp)]

theorem Automaton.row_set (a : Automaton) {cur : Nat} (hcur : cur < a.numStates)
    (ts : List Transition) :
    ({ a with transitions := a.transitions.set cur ts } : Automaton).row q =
      if q = cur then ts else a.row q := by
  unfold Automaton.row
  simp only [List.getD_eq_getElem?_getD, List.getElem?_set]
  by_cases hq : q = cur
  · have hlen : cur < a.transitions.length := hcur
    simp [hq, hlen]
  · rw [if_neg hq, if_neg (Ne.symm hq)]

/-- Finishing the current state, and turning away from it. -/
theorem Built.leave (h : Built a log) {cur : Nat} (hcur : a.curState = some cur) :
    Built { a.finishCurrentState cur with curState := none } log := by
  have hrow : a.row cur = logRow log cur := by
    rw [h.row, if_pos hcur]
  have hne : ∀ q, a.curState ≠ some q ↔ q ≠ cur := by
    intro q
    rw [hcur, ne_eq, Option.some.injEq, ne_comm]
  unfold Automaton.finishCurrentState
  dsimp only
  by_cases hnum : a.numTransitions cur ≤ 1
  · rw [if_pos hnum]
    have hfin : finishRow (logRow log cur) = logRow log cur := by
      apply finishRow_of_length
      rw [← hrow]
      exact hnum
    refine ⟨h.accepts_length, h.lt, ?_, ?_⟩
    · intro q
      rw [if_neg (by simp)]
      show a.row q = _
      rw [h.row]
      by_cases hq : q = cur
      · subst hq
        rw [if_pos hcur, hfin]
      · rw [if_neg ((hne q).2 hq)]
    · show a.deterministic = true ↔ _
      rw [h.det]
      constructor
      · intro hdet q _
        by_cases hq : q = cur
        · subst hq
          rw [hfin, rowDeterministic_iff]
          rw [Automaton.numTransitions, hrow] at hnum
          match hl : logRow log q, hnum with
          | [], _ => simp
          | [t], _ => simp
        · exact hdet q ((hne q).2 hq)
      · intro hdet q _
        exact hdet q (by simp)
  · rw [if_neg hnum]
    have hlt : cur < a.numStates := by
      by_contra hge
      have hnil := h.row_of_ge (not_lt.1 hge)
      rw [Automaton.numTransitions, hrow, hnil] at hnum
      simp at hnum
    refine ⟨?_, ?_, ?_, ?_⟩
    · simpa [Automaton.numStates] using h.accepts_length
    · intro e he
      simpa [Automaton.numStates] using h.lt e he
    · intro q
      rw [if_neg (by simp)]
      have hset := a.row_set (q := q) hlt (finishRow (a.row cur))
      unfold Automaton.row at hset ⊢
      rw [hset]
      change (if q = cur then finishRow (a.row cur) else a.row q) = _
      by_cases hq : q = cur
      · rw [if_pos hq, hrow, hq]
      · rw [if_neg hq, h.row, if_neg ((hne q).2 hq)]
    · dsimp only
      rw [Bool.and_eq_true, h.det, hrow]
      constructor
      · intro ⟨hdet, hc⟩ q _
        by_cases hq : q = cur
        · rw [hq]
          exact hc
        · exact hdet q ((hne q).2 hq)
      · intro hdet
        exact ⟨fun q _ => hdet q (by simp), hdet cur (by simp)⟩

theorem Automaton.numStates_finishCurrentState (a : Automaton) (cur : Nat) :
    (a.finishCurrentState cur).numStates = a.numStates := by
  unfold Automaton.finishCurrentState
  dsimp only
  split
  · rfl
  · simp [Automaton.numStates]

theorem Automaton.accepts_finishCurrentState (a : Automaton) (cur : Nat) :
    (a.finishCurrentState cur).accepts = a.accepts := by
  unfold Automaton.finishCurrentState
  dsimp only
  split <;> rfl

/-- Leaving the current state, if there is one. -/
theorem Built.leaveState (h : Built a log) :
    Built { a.leaveState with curState := none } log ∧
      a.leaveState.numStates = a.numStates ∧ a.leaveState.accepts = a.accepts := by
  cases hcur : a.curState with
  | none =>
    have hleave : a.leaveState = a := by
      unfold Automaton.leaveState
      rw [hcur]
    rw [hleave]
    refine ⟨?_, rfl, rfl⟩
    rw [← hcur]
    exact h
  | some cur =>
    have hleave : a.leaveState = a.finishCurrentState cur := by
      unfold Automaton.leaveState
      rw [hcur]
    rw [hleave]
    exact ⟨h.leave hcur, a.numStates_finishCurrentState cur, a.accepts_finishCurrentState cur⟩

/-- `finish_state`. -/
theorem Built.finishState (h : Built a log) :
    Built a.finishState log ∧ a.finishState.curState = none ∧
      a.finishState.numStates = a.numStates ∧ a.finishState.accepts = a.accepts := by
  rcases h.leaveState with ⟨hbuilt, hn, hacc⟩
  exact ⟨hbuilt, rfl, hn, hacc⟩

/-- A state may get transitions while it is the current one, or has none. -/
def Open (a : Automaton) (log : List (Nat × Transition)) (q : Nat) : Prop :=
  a.curState = some q ∨ logRow log q = []

/-- Turning to a state that may get transitions. -/
theorem Built.enterState (h : Built a log) (hopen : Open a log q) :
    ∃ a', a.enterState q = .ok a' ∧ Built a' log ∧ a'.curState = some q ∧
      a'.numStates = a.numStates ∧ a'.accepts = a.accepts := by
  unfold Automaton.enterState
  by_cases hcur : a.curState = some q
  · rw [if_pos hcur]
    exact ⟨a, rfl, h, hcur, rfl, rfl⟩
  · rw [if_neg hcur]
    have hnil : logRow log q = [] := hopen.resolve_left hcur
    rcases h.leaveState with ⟨hbuilt, hn, hacc⟩
    generalize a.leaveState = b at hbuilt hn hacc ⊢
    dsimp only
    have hrow : b.row q = [] := hbuilt.row_eq_nil.2 hnil
    rw [guardOk_pos hrow]
    refine ⟨_, rfl, ?_, rfl, hn, hacc⟩
    refine ⟨hbuilt.accepts_length, hbuilt.lt, ?_, ?_⟩
    · intro p
      have hp := hbuilt.row p
      rw [if_neg (by simp)] at hp
      change b.row p = _ at hp
      show b.row p = _
      rw [hp]
      by_cases hpq : p = q
      · rw [if_pos (by rw [hpq]), hpq, hnil]
        rfl
      · rw [if_neg (by simp [Ne.symm hpq])]
    · show b.deterministic = true ↔ _
      rw [show b.deterministic = true ↔ _ from hbuilt.det]
      constructor
      · intro hdet p _
        exact hdet p (by simp)
      · intro hdet p _
        by_cases hpq : p = q
        · rw [hpq, hnil]
          rfl
        · exact hdet p (by simp [Ne.symm hpq])

/-- `add_transition` to a state that may get transitions. -/
theorem Built.addTransition (h : Built a log) (hopen : Open a log q) (hq : q < a.numStates)
    (hd : d < a.numStates) (lo hi : Int) :
    ∃ a', a.addTransition q d lo hi = .ok a' ∧ Built a' (log ++ [(q, ⟨d, lo, hi⟩)]) ∧
      a'.curState = some q ∧ a'.numStates = a.numStates ∧ a'.accepts = a.accepts := by
  rcases h.enterState hopen with ⟨b, hb, hbuilt, hcur, hn, hacc⟩
  unfold Automaton.addTransition
  rw [guardOk_pos hq, guardOk_pos hd, ok_bind, ok_bind, hb,
    ok_bind]
  have hqb : q < b.transitions.length := by
    rw [← hn] at hq
    exact hq
  have hrow : ∀ p, ({ b with transitions := b.transitions.modify q (· ++ [⟨d, lo, hi⟩]) } :
      Automaton).row p = if p = q then b.row q ++ [⟨d, lo, hi⟩] else b.row p := by
    intro p
    unfold Automaton.row
    simp only [List.getD_eq_getElem?_getD, List.getElem?_modify]
    by_cases hp : p = q
    · subst hp
      simp [hqb]
    · simp [hp, Ne.symm hp]
  refine ⟨_, rfl, ?_, hcur, ?_, hacc⟩
  · refine ⟨?_, ?_, ?_, ?_⟩
    · simpa [Automaton.numStates] using hbuilt.accepts_length
    · intro e he
      simp only [Automaton.numStates, List.length_modify]
      rcases List.mem_append.1 he with he | he
      · exact hbuilt.lt e he
      · rw [List.mem_singleton] at he
        subst he
        change q < b.numStates ∧ d < b.numStates
        omega
    · intro p
      rw [hrow, logRow_append, logRow_singleton, hbuilt.row, hbuilt.row]
      dsimp only
      rw [if_pos hcur]
      by_cases hp : p = q
      · rw [if_pos hp, if_pos hp.symm, if_pos (by rw [hcur, hp]), hp]
      · rw [if_neg hp, if_neg (Ne.symm hp), List.append_nil]
    · show b.deterministic = true ↔ _
      rw [hbuilt.det]
      dsimp only
      rw [hcur]
      have hsame : ∀ p, some q ≠ some p →
          logRow (log ++ [(q, ⟨d, lo, hi⟩)]) p = logRow log p := by
        intro p hp
        rw [logRow_append, logRow_singleton, if_neg (fun h => hp (congrArg some h)),
          List.append_nil]
      constructor
      · intro hdet p hp
        rw [hsame p hp]
        exact hdet p hp
      · intro hdet p hp
        rw [← hsame p hp]
        exact hdet p hp
  · simpa [Automaton.numStates] using hn

/-! ## Adding transitions source by source -/

/-- A loop that adds transitions in the order of their sources. -/
theorem Built.addTransition_foldlM (h : Built a log) {l : List (Nat × Transition)}
    (hsorted : l.Pairwise fun e f => e.1 ≤ f.1)
    (hopen : ∀ e ∈ l, logRow log e.1 = [] ∨ a.curState = some e.1 ∧ ∀ f ∈ l, e.1 ≤ f.1)
    (hlt : ∀ e ∈ l, e.1 < a.numStates ∧ e.2.dest < a.numStates) :
    ∃ a', l.foldlM (fun a e => a.addTransition e.1 e.2.dest e.2.min e.2.max) a =
        (.ok a' : Result Automaton) ∧
      Built a' (log ++ l) ∧ a'.numStates = a.numStates ∧ a'.accepts = a.accepts := by
  induction l generalizing a log with
  | nil => exact ⟨a, rfl, by simpa using h, rfl, rfl⟩
  | cons e l ih =>
    rw [List.pairwise_cons] at hsorted
    have he := hlt e List.mem_cons_self
    have hopene : Open a log e.1 := (hopen e List.mem_cons_self).symm.imp_left And.left
    rcases h.addTransition hopene he.1 he.2 e.2.min e.2.max with ⟨b, hb, hbuilt, hcur, hn, hacc⟩
    rw [List.foldlM_cons, hb, ok_bind]
    have hopen' : ∀ f ∈ l, logRow (log ++ [(e.1, e.2)]) f.1 = [] ∨
        b.curState = some f.1 ∧ ∀ g ∈ l, f.1 ≤ g.1 := by
      intro f hf
      have hle := hsorted.1 f hf
      by_cases hef : e.1 = f.1
      · right
        rw [← hef]
        exact ⟨hcur, hsorted.1⟩
      · left
        rw [logRow_append, logRow_singleton, if_neg hef, List.append_nil]
        rcases hopen f (List.mem_cons_of_mem _ hf) with hnil | ⟨-, hmin⟩
        · exact hnil
        · have := hmin e List.mem_cons_self
          omega
    have hlt' : ∀ f ∈ l, f.1 < b.numStates ∧ f.2.dest < b.numStates := by
      intro f hf
      rw [hn]
      exact hlt f (List.mem_cons_of_mem _ hf)
    rcases ih hbuilt hsorted.2 hopen' hlt' with ⟨a', ha', hbuilt', hn', hacc'⟩
    refine ⟨a', ha', ?_, hn'.trans hn, hacc'.trans hacc⟩
    simpa using hbuilt'

/-- A loop that adds transitions of the current state. -/
theorem Built.addTransition_row (h : Built a log) (hcur : a.curState = some q)
    (hq : q < a.numStates) {ts : List Transition} (hts : ∀ t ∈ ts, t.dest < a.numStates) :
    ∃ a', ts.foldlM (fun a t => a.addTransition q t.dest t.min t.max) a = (.ok a' : Result Automaton) ∧
      Built a' (log ++ ts.map fun t => (q, t)) ∧ a'.curState = some q ∧
      a'.numStates = a.numStates ∧ a'.accepts = a.accepts := by
  induction ts generalizing a log with
  | nil => exact ⟨a, rfl, by simpa using h, hcur, rfl, rfl⟩
  | cons t ts ih =>
    have ht : t.dest < a.numStates := hts t List.mem_cons_self
    rcases h.addTransition (.inl hcur) hq ht t.min t.max with ⟨b, hb, hbuilt, hcur', hn, hacc⟩
    have hts' : ∀ u ∈ ts, u.dest < b.numStates := by
      intro u hu
      rw [hn]
      exact hts u (List.mem_cons_of_mem _ hu)
    rcases ih hbuilt hcur' (hn ▸ hq) hts' with ⟨a', ha', hbuilt', hcur'', hn', hacc'⟩
    refine ⟨a', ?_, ?_, hcur'', hn'.trans hn, hacc'.trans hacc⟩
    · rw [List.foldlM_cons, hb, ok_bind, ha']
    · simpa using hbuilt'

/-! ## Finished automata -/

/-- What `finish_state` leaves, and what the functions that take an automaton
rely on. -/
structure Finished (a : Automaton) : Prop where
  curState : a.curState = none
  accepts_length : a.accepts.length = a.numStates
  dest_lt : ∀ q, ∀ t ∈ a.row q, t.dest < a.numStates
  sorted : ∀ q, (a.row q).Pairwise Transition.LabelLe
  det : a.deterministic = true ↔ ∀ q, (a.row q).IsChain Before

/-- Every transition of `a` has an interval of labels between `lo` and `hi`. -/
def LabelsIn (lo hi : Int) (a : Automaton) : Prop :=
  ∀ q, ∀ t ∈ a.row q, LabelIn lo hi t

theorem Built.row_of_done (h : Built a log) (hcur : a.curState = none) :
    a.row q = finishRow (logRow log q) := by
  rw [h.row, if_neg (by simp [hcur])]

theorem Built.finished (h : Built a log) (hcur : a.curState = none) : Finished a where
  curState := hcur
  accepts_length := h.accepts_length
  dest_lt q t ht := by
    rw [h.row_of_done hcur] at ht
    rcases dest_of_mem_finishRow ht with ⟨u, hu, hd⟩
    rw [hd]
    exact (h.lt _ (mem_logRow.1 hu)).2
  sorted q := by
    rw [h.row_of_done hcur]
    exact sorted_finishRow
  det := by
    rw [h.det]
    simp only [hcur, ne_eq, reduceCtorEq, not_false_eq_true, forall_const,
      h.row_of_done hcur, rowDeterministic_iff]

/-- The finished automata can be told by their rows. -/
theorem finished_of_rows (hcur : a.curState = none) (haccepts : a.accepts.length = a.numStates)
    (hrows : ∀ ts ∈ a.transitions,
      (∀ t ∈ ts, t.dest < a.numStates) ∧ ts.Pairwise Transition.LabelLe)
    (hdet : a.deterministic = a.transitions.all rowDeterministic) : Finished a := by
  have hrow : ∀ q, a.row q = [] ∨ a.row q ∈ a.transitions := by
    intro q
    unfold Automaton.row
    rcases Nat.lt_or_ge q a.transitions.length with hq | hq
    · right
      rw [List.getD_eq_getElem _ _ hq]
      exact List.getElem_mem hq
    · exact .inl (List.getD_eq_default _ _ hq)
  have hmem : ∀ ts ∈ a.transitions, ∃ q, a.row q = ts := by
    intro ts hts
    rcases List.mem_iff_getElem.1 hts with ⟨q, hq, hget⟩
    refine ⟨q, ?_⟩
    unfold Automaton.row
    rw [List.getD_eq_getElem _ _ hq, hget]
  refine ⟨hcur, haccepts, ?_, ?_, ?_⟩
  · intro q t ht
    rcases hrow q with hnil | hq
    · rw [hnil] at ht
      cases ht
    · exact (hrows _ hq).1 t ht
  · intro q
    rcases hrow q with hnil | hq
    · rw [hnil]
      exact List.Pairwise.nil
    · exact (hrows _ hq).2
  · rw [hdet, List.all_eq_true]
    simp only [rowDeterministic_iff]
    constructor
    · intro hall q
      rcases hrow q with hnil | hq
      · rw [hnil]
        exact List.IsChain.nil
      · exact hall _ hq
    · intro hall ts hts
      rcases hmem ts hts with ⟨q, rfl⟩
      exact hall q

theorem Automaton.forall_rows {P : List Transition → Prop} (hnil : P [])
    (h : ∀ ts ∈ a.transitions, P ts) (q : Nat) : P (a.row q) := by
  unfold Automaton.row
  rcases Nat.lt_or_ge q a.transitions.length with hq | hq
  · rw [List.getD_eq_getElem _ _ hq]
    exact h _ (List.getElem_mem hq)
  · rw [List.getD_eq_default _ _ hq]
    exact hnil

theorem Automaton.forall_row {P : Transition → Prop} (h : ∀ ts ∈ a.transitions, ∀ t ∈ ts, P t)
    (q : Nat) : ∀ t ∈ a.row q, P t :=
  Automaton.forall_rows (P := fun ts => ∀ t ∈ ts, P t) (by simp) h q

theorem Built.labelsIn (h : Built a log) (hcur : a.curState = none) {lo hi : Int}
    (hlog : ∀ e ∈ log, LabelIn lo hi e.2) : LabelsIn lo hi a := by
  intro q t ht
  rw [h.row_of_done hcur] at ht
  exact labelIn_finishRow (fun u hu => hlog _ (mem_logRow.1 hu)) ht

/-- An automaton that was built from intervals, without a label that leads
from one state to two, is deterministic. -/
theorem Built.deterministic (h : Built a log)
    (hvalid : ∀ e ∈ log, e.2.min ≤ e.2.max) (hdet : ∀ q, RowDet (logRow log q)) :
    a.deterministic = true := by
  rw [h.det]
  intro q _
  rw [rowDeterministic_iff]
  apply List.Pairwise.isChain
  exact chain_finishRow (fun t ht => hvalid _ (mem_logRow.1 ht)) (hdet q)

theorem Finished.pairwise (h : Finished a) (hdet : a.deterministic = true) (q : Nat) :
    (a.row q).Pairwise Before :=
  pairwise_of_chain (h.sorted q) (h.det.1 hdet q)

theorem mem_nfa_step : d ∈ a.nfa.step q c ↔ a.Edge q c d := Iff.rfl

theorem mem_nfa_accept : q ∈ a.nfa.accept ↔ a.isAccept q = true := Iff.rfl

theorem accepts_iff {s : List Int} : a.Accepts s ↔ NfaPaths.Accepts a.nfa 0 s :=
  NfaPaths.mem_accepts_iff rfl

theorem Finished.edge_lt (h : Finished a) (he : a.Edge q c d) : q < a.numStates ∧ d < a.numStates := by
  rcases he with ⟨t, ht, rfl, -⟩
  refine ⟨?_, h.dest_lt q t ht⟩
  by_contra hge
  have hnil : a.row q = [] := by
    unfold Automaton.row
    exact List.getD_eq_default _ _ (not_lt.1 hge)
  rw [hnil] at ht
  cases ht

theorem Finished.nfa_deterministic (h : Finished a) (hdet : a.deterministic = true) :
    NfaPaths.Deterministic a.nfa := by
  intro q c d d' hd hd'
  exact rowDet_of_pairwise (h.pairwise hdet q) c d d' hd hd'

/-- `step` follows the edges of a deterministic automaton. -/
theorem Finished.step_eq_some (h : Finished a) (hdet : a.deterministic = true) :
    a.step q c = some d ↔ a.Edge q c d := by
  apply searchRow_spec (h.pairwise hdet q) (h.sorted q)
  · exact le_refl _
  · rw [Nat.sub_zero]
    exact Nat.lt_succ_self _
  · intro i t hi _
    exact ⟨Nat.zero_le _, (List.getElem?_eq_some_iff.1 hi).1⟩

/-! ## The builder -/

instance : Std.Total Builder.KeyLe where
  total t u := by
    unfold Builder.KeyLe Transition.LabelLe
    omega

instance : IsTrans (Nat × Transition) Builder.KeyLe where
  trans t u v := by
    unfold Builder.KeyLe Transition.LabelLe
    omega

/-- The states of the builder, with their flags. -/
theorem finishStates_spec (b : Builder) :
    ∃ a, b.finishStates = .ok a ∧ Built a [] ∧ a.curState = none ∧ a.numStates = b.numStates ∧
      ∀ q, a.isAccept q = b.isAccept q := by
  have hloop : ∀ n ≤ b.numStates, ∃ a, (List.range n).foldlM
      (fun a state => (a.createState.1).setAccept state (b.isAccept state)) Automaton.empty =
        (.ok a : Result Automaton) ∧
      Built a [] ∧ a.curState = none ∧ a.numStates = n ∧
      ∀ q, a.isAccept q = if q < n then b.isAccept q else false := by
    intro n
    induction n with
    | zero =>
      intro _
      exact ⟨Automaton.empty, rfl, .empty, rfl, rfl, fun q => by simp [Automaton.isAccept, Automaton.empty]⟩
    | succ n ih =>
      intro hn
      rcases ih (by omega) with ⟨a, ha, hbuilt, hcur, hlen, hacc⟩
      have hlt : n < a.createState.1.numStates := by
        rw [Automaton.numStates_createState]
        omega
      rcases hbuilt.createState.setAccept hlt (b.isAccept n) with
        ⟨a', ha', hbuilt', hn', hcur', hacc'⟩
      refine ⟨a', ?_, hbuilt', ?_, ?_, ?_⟩
      · rw [List.range_succ, List.foldlM_append, ha, ok_bind, List.foldlM_cons, ha',
          ok_bind]
        rfl
      · rw [hcur', Automaton.curState_createState, hcur]
      · rw [hn', Automaton.numStates_createState, hlen]
      · intro q
        rw [hacc', Automaton.isAccept_createState, hacc]
        rcases lt_trichotomy q n with hq | hq | hq
        · rw [if_neg (by omega), if_pos hq, if_pos (by omega)]
        · rw [if_pos hq, if_pos (by omega), hq]
        · rw [if_neg (by omega), if_neg (by omega), if_neg (by omega)]
  rcases hloop b.numStates (le_refl _) with ⟨a, ha, hbuilt, hcur, hn, hacc⟩
  refine ⟨a, ha, hbuilt, hcur, hn, ?_⟩
  intro q
  rw [hacc]
  split
  · rfl
  · unfold Builder.isAccept
    rw [List.getD_eq_default]
    unfold Builder.numStates at *
    omega

/-- `finish` on a builder whose transitions stay among its states. -/
theorem Builder.finish_spec (b : Builder)
    (hlt : ∀ e ∈ b.transitions, e.1 < b.numStates ∧ e.2.dest < b.numStates) :
    ∃ a, b.finish = .ok a ∧ Built a (b.transitions.insertionSort Builder.KeyLe) ∧
      a.curState = none ∧ a.numStates = b.numStates ∧ ∀ q, a.isAccept q = b.isAccept q := by
  rcases finishStates_spec b with ⟨a, ha, hbuilt, hcur, hn, hacc⟩
  have hsorted : (b.transitions.insertionSort Builder.KeyLe).Pairwise fun e f => e.1 ≤ f.1 := by
    apply (List.pairwise_insertionSort Builder.KeyLe _).imp
    intro e f hef
    unfold Builder.KeyLe at hef
    omega
  have hlt' : ∀ e ∈ b.transitions.insertionSort Builder.KeyLe,
      e.1 < a.numStates ∧ e.2.dest < a.numStates := by
    intro e he
    rw [List.mem_insertionSort] at he
    rw [hn]
    exact hlt e he
  rcases hbuilt.addTransition_foldlM hsorted (fun e _ => .inl rfl) hlt' with
    ⟨a', ha', hbuilt', hn', hacc'⟩
  rcases hbuilt'.finishState with ⟨hfin, hcur', hn'', hacc''⟩
  refine ⟨a'.finishState, ?_, hfin, hcur', ?_, ?_⟩
  · unfold Builder.finish
    rw [ha, ok_bind, ha']
    rfl
  · rw [hn'', hn', hn]
  · intro q
    rw [← hacc q]
    unfold Automaton.isAccept
    rw [hacc'', hacc']

end LuceneRust.Util.Automata
