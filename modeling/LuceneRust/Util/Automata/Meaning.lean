import LuceneRust.Util.Automata.AutomatonSpec

/-!
# Automata that are built state by state

A constructor knows what each state is for: the strings that are to be
accepted from it.  `Sketch` keeps this knowledge through a construction.  A
state is closed, and then its transitions and its accept flag say what they
should, or it is still pending.

* `Sketch.create`, `Sketch.add` and `Sketch.close` follow the construction.
* `Sketch.accepts_iff` is what a construction without pending states gives.

The transitions are listed as they are added, each with its source, so that
the rules serve the automaton and its builder alike.
-/

namespace LuceneRust.Util.Automata

open RustSem

/-- What each state is for. -/
abbrev Meaning := Nat → List Int → Prop

variable {log : List (Nat × Transition)} {flag : Nat → Bool} {L L' : Meaning} {P : Nat → Prop}
  {n q d : Nat} {K : List Int → Prop} {t : Transition}

/-- The transitions and the flag of `q` say what the state is for. -/
structure Closed (log : List (Nat × Transition)) (flag : Nat → Bool) (L : Meaning) (q : Nat) :
    Prop where
  nil : flag q = true ↔ L q []
  cons : ∀ c s, L q (c :: s) ↔ ∃ d, RowEdge (logRow log q) c d ∧ L d s

/-- `n` states of a construction, with the pending ones `P`. -/
structure Sketch (n : Nat) (log : List (Nat × Transition)) (flag : Nat → Bool) (L : Meaning)
    (P : Nat → Prop) : Prop where
  lt : ∀ e ∈ log, e.1 < n ∧ e.2.dest < n
  pending : ∀ q, P q → q < n
  closed : ∀ q < n, ¬ P q → Closed log flag L q

/-- A closed state stays so while its transitions, its flag and what the
states are for stay. -/
theorem Closed.congr {log' : List (Nat × Transition)} {flag' : Nat → Bool}
    (h : Closed log flag L q) (hrow : logRow log' q = logRow log q) (hflag : flag' q = flag q)
    (hL : L' q = L q) (hdest : ∀ e ∈ log, L' e.2.dest = L e.2.dest) : Closed log' flag' L' q := by
  constructor
  · rw [hflag, hL]
    exact h.nil
  · intro c s
    rw [hL, h.cons, hrow]
    apply exists_congr
    intro d
    apply and_congr_right
    intro ⟨t, ht, htd, _⟩
    rw [← htd, hdest _ (mem_logRow.1 ht)]

/-- Only the edges and the flag of a state count. -/
theorem Closed.of_edges {log' : List (Nat × Transition)} {flag' : Nat → Bool}
    (h : Closed log flag L q)
    (hedge : ∀ c d, RowEdge (logRow log' q) c d ↔ RowEdge (logRow log q) c d)
    (hflag : flag' q = flag q) : Closed log' flag' L q where
  nil := by
    rw [hflag]
    exact h.nil
  cons c s := by
    rw [h.cons]
    simp only [hedge]

theorem Sketch.row_of_ge (h : Sketch n log flag L P) (hq : n ≤ q) : logRow log q = [] := by
  rw [logRow_eq_nil]
  intro t ht
  have := (h.lt _ ht).1
  omega

/-- A new state, for the strings `K`. -/
theorem Sketch.create (h : Sketch n log flag L P) (K : List Int → Prop) :
    Sketch (n + 1) log flag (Function.update L n K) fun q => P q ∨ q = n where
  lt e he := by
    have := h.lt e he
    omega
  pending q hq := by
    rcases hq with hq | rfl
    · have := h.pending q hq
      omega
    · omega
  closed q hq hnot := by
    have hne : q ≠ n := fun heq => hnot (.inr heq)
    have hold := h.closed q (by omega) fun hp => hnot (.inl hp)
    have hdest : ∀ e ∈ log, Function.update L n K e.2.dest = L e.2.dest := by
      intro e he
      have hlt : e.2.dest ≠ n := (h.lt e he).2.ne
      exact Function.update_of_ne hlt K L
    exact hold.congr rfl rfl (Function.update_of_ne hne K L) hdest

/-- A transition of a pending state. -/
theorem Sketch.add (h : Sketch n log flag L P) (hq : P q) (ht : t.dest < n) :
    Sketch n (log ++ [(q, t)]) flag L P where
  lt e he := by
    rcases List.mem_append.1 he with he | he
    · exact h.lt e he
    · rw [List.mem_singleton] at he
      rw [he]
      exact ⟨h.pending q hq, ht⟩
  pending := h.pending
  closed p hp hnot := by
    have hne : ¬ q = p := by
      intro heq
      rw [heq] at hq
      exact hnot hq
    have hold := h.closed p hp hnot
    have hrow : logRow (log ++ [(q, t)]) p = logRow log p := by
      rw [logRow_append, logRow_singleton, if_neg hne, List.append_nil]
    exact hold.congr hrow rfl rfl fun _ _ => rfl

/-- The flags of pending states may change. -/
theorem Sketch.setFlag {flag' : Nat → Bool} (h : Sketch n log flag L P)
    (hflag : ∀ q < n, ¬ P q → flag' q = flag q) : Sketch n log flag' L P where
  lt := h.lt
  pending := h.pending
  closed q hq hnot := (h.closed q hq hnot).congr rfl (hflag q hq hnot) rfl fun _ _ => rfl

/-- A pending state that has become what it is for. -/
theorem Sketch.close {P' : Nat → Prop} (h : Sketch n log flag L P) (hclosed : Closed log flag L q)
    (hP : ∀ p, P' p ↔ P p ∧ p ≠ q) : Sketch n log flag L P' where
  lt := h.lt
  pending p hp := h.pending p ((hP p).1 hp).1
  closed p hp hnot := by
    by_cases hpq : p = q
    · rw [hpq]
      exact hclosed
    · exact h.closed p hp fun hpp => hnot ((hP p).2 ⟨hpp, hpq⟩)

/-- Without pending states the automaton accepts what its initial state is
for. -/
theorem Sketch.accepts_iff {a : Automaton} (h : Sketch n log flag L P) (hP : ∀ q, ¬ P q)
    (hedge : ∀ q c d, a.Edge q c d ↔ RowEdge (logRow log q) c d)
    (hflag : ∀ q, a.isAccept q = flag q) (hn : 0 < n) (s : List Int) :
    a.Accepts s ↔ L 0 s := by
  rw [Automata.accepts_iff]
  have hlang := NfaPaths.accepts_iff_of_equations (M := a.nfa) (fun q => q < n) L
    (by
      intro q c d _ hd
      rcases (hedge q c d).1 hd with ⟨t, ht, htd, _⟩
      rw [← htd]
      exact (h.lt _ (mem_logRow.1 ht)).2)
    (by
      intro q hq
      rw [mem_nfa_accept, hflag q]
      exact (h.closed q hq (hP q)).nil.symm)
    (by
      intro q c s hq
      rw [(h.closed q hq (hP q)).cons]
      simp only [mem_nfa_step, hedge])
  exact hlang s 0 hn

end LuceneRust.Util.Automata
