import LuceneRust.Util.Automata.LiveStates

/-!
# What `is_total_range` decides

The check looks at the live states one by one: each must accept, and its
transitions must leave no gap over the alphabet.  Where the transitions lead
is not looked at, and neither is whether their labels are of the alphabet.

* `rowEnd_iff` and `GapFree.covers` say what the loop over the transitions
  of a state decides, and `isTotalRange_spec` says it of the whole check.
* `total_exact_iff` is the result.  A check that passes means that all
  strings over the alphabet are accepted, unless a label leads into a dead
  state (`EntersDead`).  A check that fails may have stopped at a state that
  no string over the alphabet leads to, or at a label that is not of the
  alphabet (`Obscured`).
-/

namespace LuceneRust.Util.Automata

open RustSem DepthFirst NfaPaths

variable {a : Automaton} {lo hi c : Int} {ts : List Transition} {q : Nat}

/-- The labels of `s` are between `lo` and `hi`. -/
def Over (lo hi : Int) (s : List Int) : Prop :=
  ∀ c ∈ s, lo ≤ c ∧ c ≤ hi

/-- All strings over the alphabet are accepted. -/
def AcceptsAll (a : Automaton) (lo hi : Int) : Prop :=
  ∀ s, Over lo hi s → a.Accepts s

/-- No state is dead. -/
def NoDeadStates (a : Automaton) : Prop :=
  ∀ q < a.numStates, a.Live q

/-- A positive answer means that all strings over the alphabet are accepted.
For a deterministic automaton without dead states a negative answer means
that they are not. -/
def TotalExact (a : Automaton) (lo hi : Int) : Prop :=
  ∃ answer, isTotalRange a lo hi = .ok answer ∧
    (answer = true → AcceptsAll a lo hi) ∧
    (a.deterministic = true → NoDeadStates a → AcceptsAll a lo hi → answer = true)

/-! ## One state -/

/-- The transitions leave no gap between `lo` and `hi`, each compared with
the one before it. -/
structure GapFree (lo hi : Int) (ts : List Transition) : Prop where
  first : ∀ t ∈ ts.head?, t.min ≤ lo
  next : ts.IsChain fun t u => u.min ≤ t.max + 1
  last : ∀ m ∈ ts.getLast?.map (·.max), hi ≤ m
  empty : ts = [] → hi < lo

/-- The loop over the transitions, without the bounds of `i32`. -/
def rowEnd (previous : Int) : List Transition → Option Int
  | [] => some previous
  | t :: ts => if t.min > previous + 1 then none else rowEnd t.max ts

attribute [local simp] coverRow rowEnd

/-- The ends of the transitions have an `i32` behind them, but for the last
one. -/
def EndsI32 (ts : List Transition) : Prop :=
  ts.IsChain fun t _ => IsI32 (t.max + 1)

theorem coverRow_eq (hts : EndsI32 ts) : ∀ previous, IsI32 (previous + 1) →
    coverRow previous ts = .ok (rowEnd previous ts) := by
  induction ts with
  | nil => simp
  | cons t ts ih =>
    intro previous hprevious
    rw [coverRow, rowEnd, addI32_ok hprevious, ok_bind]
    split
    · rfl
    · cases ts with
      | nil => simp
      | cons u us =>
        have hchain := List.isChain_cons_cons.1 hts
        exact ih hchain.2 t.max hchain.1

/-- What the loop over the transitions decides. -/
theorem rowEnd_iff : ∀ previous,
    (∃ p, rowEnd previous ts = some p ∧ hi ≤ p) ↔ GapFree (previous + 1) hi ts := by
  induction ts with
  | nil =>
    intro previous
    simp only [rowEnd, Option.some.injEq, exists_eq_left']
    constructor
    · intro h
      exact ⟨by simp, List.IsChain.nil, by simp, fun _ => by omega⟩
    · intro h
      have := h.empty rfl
      omega
  | cons t ts ih =>
    intro previous
    rw [rowEnd]
    by_cases hmin : t.min > previous + 1
    · rw [if_pos hmin]
      constructor
      · intro ⟨p, hp, _⟩
        cases hp
      · intro h
        have := h.first t rfl
        omega
    · rw [if_neg hmin, ih]
      constructor
      · intro h
        refine ⟨?_, ?_, ?_, by simp⟩
        · intro u hu
          cases hu
          omega
        · exact List.isChain_cons.2 ⟨fun u hu => h.first u hu, h.next⟩
        · intro m hm
          rw [List.getLast?_cons, Option.map_some, Option.mem_some_iff] at hm
          subst hm
          cases hl : ts.getLast? with
          | none =>
            have := h.empty (List.getLast?_eq_none_iff.1 hl)
            rw [Option.getD_none]
            omega
          | some u =>
            rw [Option.getD_some]
            exact h.last u.max (by rw [hl]; rfl)
      · intro h
        have hnext := List.isChain_cons.1 h.next
        refine ⟨fun u hu => hnext.1 u hu, hnext.2, ?_, ?_⟩
        · intro m hm
          apply h.last
          rw [List.getLast?_cons]
          cases hl : ts.getLast? with
          | none =>
            rw [hl] at hm
            cases hm
          | some u =>
            rw [hl] at hm
            exact hm
        · intro hnil
          have := h.last t.max (by rw [hnil]; rfl)
          omega

/-- Transitions without a gap cover the alphabet, however they overlap. -/
theorem rowEnd_covers : ∀ {previous p : Int}, rowEnd previous ts = some p → previous < c →
    c ≤ p → ∃ t ∈ ts, t.Covers c := by
  induction ts with
  | nil =>
    intro previous p h hlt hle
    rw [rowEnd, Option.some.injEq] at h
    omega
  | cons t ts ih =>
    intro previous p h hlt hle
    rw [rowEnd] at h
    by_cases hmin : t.min > previous + 1
    · rw [if_pos hmin] at h
      cases h
    · rw [if_neg hmin] at h
      by_cases hmax : c ≤ t.max
      · exact ⟨t, List.mem_cons_self, by omega, hmax⟩
      · rcases ih h (by omega) hle with ⟨u, hu, hcov⟩
        exact ⟨u, List.mem_cons_of_mem t hu, hcov⟩

theorem GapFree.covers (h : GapFree lo hi ts) (hlo : lo ≤ c) (hhi : c ≤ hi) :
    ∃ t ∈ ts, t.Covers c := by
  have h' : GapFree (lo - 1 + 1) hi ts := by
    rw [show lo - 1 + 1 = lo by omega]
    exact h
  rcases (rowEnd_iff (lo - 1)).2 h' with ⟨p, hp, hle⟩
  exact rowEnd_covers hp (by omega) (by omega)

/-! ## The whole check -/

/-- Every live state accepts and has no gap. -/
def Uniform (a : Automaton) (lo hi : Int) : Prop :=
  ∀ q, a.Live q → a.isAccept q = true ∧ GapFree lo hi (a.row q)

/-- `totalState` passes exactly the states that are as they should be. -/
theorem totalState_spec (hi : Int) (hlo : IsI32 lo) (hmin : IsI32 (lo - 1)) (hrow : EndsI32 (a.row q)) :
    ∃ passed, totalState a lo hi q = .ok passed ∧
      (passed = true ↔ a.isAccept q = true ∧ GapFree lo hi (a.row q)) := by
  have hgap : (∃ p, rowEnd (lo - 1) (a.row q) = some p ∧ hi ≤ p) ↔
      GapFree (lo - 1 + 1) hi (a.row q) := rowEnd_iff (lo - 1)
  rw [show lo - 1 + 1 = lo by omega] at hgap
  rw [← hgap]
  unfold totalState
  cases haccept : a.isAccept q with
  | false => exact ⟨false, rfl, by simp⟩
  | true =>
    rw [if_neg (by simp), addI32_ok (y := -1) hmin, ok_bind,
      coverRow_eq hrow _ (by rw [show lo + -1 + 1 = lo by omega]; exact hlo), ok_bind]
    change ∃ passed, _ ∧ (_ ↔ _ ∧ ∃ p, rowEnd (lo + -1) (a.row q) = some p ∧ hi ≤ p)
    cases rowEnd (lo + -1) (a.row q) with
    | none => exact ⟨false, rfl, by simp⟩
    | some p => exact ⟨_, rfl, by simp⟩

theorem totalStates_spec (hi : Int) {states : List Nat} (hlo : IsI32 lo)
    (hmin : IsI32 (lo - 1))
    (hrows : ∀ q ∈ states, EndsI32 (a.row q)) :
    ∃ passed, totalStates a lo hi states = .ok passed ∧
      (passed = true ↔ ∀ q ∈ states, a.isAccept q = true ∧ GapFree lo hi (a.row q)) := by
  induction states with
  | nil => exact ⟨true, rfl, by simp⟩
  | cons q states ih =>
    rcases totalState_spec hi hlo hmin (hrows q List.mem_cons_self) with
      ⟨passed, hrun, hpassed⟩
    rcases ih fun q hq => hrows q (List.mem_cons_of_mem _ hq) with ⟨all, hall, hiff⟩
    rw [totalStates, hrun, ok_bind]
    simp only [List.forall_mem_cons]
    cases passed with
    | false =>
      refine ⟨false, rfl, ?_⟩
      constructor
      · intro h
        cases h
      · intro h
        exact hpassed.2 h.1
    | true => exact ⟨all, hall, by rw [hiff, and_iff_right (hpassed.1 rfl)]⟩

/-- The live states in order. -/
theorem exists_liveStates (h : Finished a) (lo hi : Int) :
    ∃ states, isTotalRange a lo hi = (do
        let passed ← totalStates a lo hi states
        pure (passed && decide (states.length > 0))) ∧
      states.Pairwise (· < ·) ∧ ∀ q, q ∈ states ↔ a.Live q := by
  rcases getLiveStates_spec h with ⟨live, hrun, -, hlive⟩
  refine ⟨(List.range a.numStates).filter (live.getD · false), ?_, ?_, ?_⟩
  · unfold isTotalRange
    rw [hrun, ok_bind]
  · exact List.pairwise_lt_range.filter _
  · intro q
    rw [List.mem_filter, List.mem_range, hlive]
    exact ⟨And.right, fun hq => ⟨h.lt_of_live hq, hq⟩⟩

/-- The check passes when there is a live state, and all of them are as they
should be. -/
theorem isTotalRange_spec (h : Finished a) (hlo : IsI32 lo) (hmin : IsI32 (lo - 1))
    (hrows : ∀ q, EndsI32 (a.row q)) (hi : Int) :
    ∃ answer, isTotalRange a lo hi = .ok answer ∧
      (answer = true ↔ (∃ q, a.Live q) ∧ Uniform a lo hi) := by
  rcases exists_liveStates h lo hi with ⟨states, hrun, -, hmem⟩
  rcases totalStates_spec hi hlo hmin fun q (_ : q ∈ states) => hrows q with
    ⟨passed, hpassed, hiff⟩
  rw [hrun, hpassed, ok_bind]
  refine ⟨_, rfl, ?_⟩
  unfold Uniform
  rw [Bool.and_eq_true, hiff, decide_eq_true_eq, gt_iff_lt, List.length_pos_iff_exists_mem]
  simp only [hmem]
  exact and_comm

/-- The lower end has no `i32` below it, and the first live state accepts. -/
def Overflows (a : Automaton) (lo : Int) : Prop :=
  ¬ IsI32 (lo - 1) ∧ ∃ q, a.Live q ∧ a.isAccept q = true ∧ ∀ p < q, ¬ a.Live p

/-- At the lowest `i32` the check panics or answers `false`. -/
theorem isTotalRange_min (h : Finished a) (hmin : ¬ IsI32 (lo - 1)) (hi : Int) :
    Overflows a lo ∧ isTotalRange a lo hi = .panic ∨
      ¬ Overflows a lo ∧ isTotalRange a lo hi = .ok false := by
  rcases exists_liveStates h lo hi with ⟨states, hrun, hsorted, hmem⟩
  rw [hrun]
  cases states with
  | nil =>
    right
    refine ⟨?_, rfl⟩
    intro ⟨_, q, hq, _⟩
    cases (hmem q).2 hq
  | cons q states =>
    have hlive : a.Live q := (hmem q).1 List.mem_cons_self
    have hfirst : ∀ p < q, ¬ a.Live p := by
      intro p hp hplive
      rcases List.mem_cons.1 ((hmem p).2 hplive) with rfl | hin
      · omega
      · have := (List.pairwise_cons.1 hsorted).1 p hin
        omega
    rw [totalStates, totalState]
    cases haccept : a.isAccept q with
    | false =>
      right
      refine ⟨?_, rfl⟩
      intro ⟨_, q', hq', haccept', hfirst'⟩
      rcases Nat.lt_trichotomy q q' with hlt | rfl | hlt
      · exact hfirst' q hlt hlive
      · rw [haccept] at haccept'
        cases haccept'
      · exact hfirst q' hlt hq'
    | true =>
      left
      refine ⟨⟨hmin, q, hlive, haccept, hfirst⟩, ?_⟩
      unfold addI32 Outcome.guardOk
      rw [if_neg (by simp), if_neg (by rw [← sub_eq_add_neg]; exact hmin)]
      rfl

/-! ## Strings over the alphabet -/

theorem over_snoc {s : List Int} : Over lo hi (s ++ [c]) ↔ Over lo hi s ∧ lo ≤ c ∧ c ≤ hi := by
  unfold Over
  simp only [List.mem_append, List.mem_singleton]
  constructor
  · intro h
    exact ⟨fun d hd => h d (.inl hd), h c (.inr rfl)⟩
  · intro ⟨h, hc⟩ d hd
    rcases hd with hd | rfl
    · exact h d hd
    · exact hc

/-- `q` can be reached through labels of the alphabet. -/
def ReachOver (a : Automaton) (lo hi : Int) (q : Nat) : Prop :=
  Relation.ReflTransGen (fun p d => ∃ c, lo ≤ c ∧ c ≤ hi ∧ a.Edge p c d) 0 q

theorem reachOver_iff : ReachOver a lo hi q ↔ ∃ s, Over lo hi s ∧ Reads a.nfa 0 s q := by
  constructor
  · intro h
    unfold ReachOver at h
    induction h with
    | refl => exact ⟨[], by simp [Over], reads_nil.2 rfl⟩
    | tail _ hstep ih =>
      rcases ih with ⟨s, hs, hreads⟩
      rcases hstep with ⟨c, hlo, hhi, hedge⟩
      exact ⟨s ++ [c], over_snoc.2 ⟨hs, hlo, hhi⟩, reads_snoc.2 ⟨_, hreads, hedge⟩⟩
  · intro ⟨s, hs, hreads⟩
    induction s using List.reverseRecOn generalizing q with
    | nil =>
      rw [reads_nil.1 hreads]
      exact .refl
    | append_singleton s c ih =>
      rcases over_snoc.1 hs with ⟨hs, hlo, hhi⟩
      rcases reads_snoc.1 hreads with ⟨p, hp, hedge⟩
      exact .tail (ih hs hp) ⟨c, hlo, hhi, hedge⟩

theorem live_zero (h : a.Live q) : a.Live 0 := by
  rcases h with ⟨hfrom, f, hf, hto⟩
  exact ⟨.refl, f, hf, hfrom.trans hto⟩

/-- When no label is stuck in dead states, every string over the alphabet
leads to a live state. -/
theorem Uniform.reads (h : Uniform a lo hi) (hlive : a.Live 0)
    (hnext : ∀ p c, ReachOver a lo hi p → a.Live p → lo ≤ c → c ≤ hi → (∃ d, a.Edge p c d) →
      ∃ d, a.Edge p c d ∧ a.Live d) :
    ∀ s, Over lo hi s → ∃ q, Reads a.nfa 0 s q ∧ a.Live q := by
  intro s
  induction s using List.reverseRecOn with
  | nil =>
    intro _
    exact ⟨0, reads_nil.2 rfl, hlive⟩
  | append_singleton s c ih =>
    intro hs
    rcases over_snoc.1 hs with ⟨hs, hlo, hhi⟩
    rcases ih hs with ⟨p, hp, hplive⟩
    rcases (h p hplive).2.covers hlo hhi with ⟨t, ht, hcov⟩
    rcases hnext p c (reachOver_iff.2 ⟨s, hs, hp⟩) hplive hlo hhi ⟨_, t, ht, rfl, hcov⟩ with
      ⟨d, hedge, hdlive⟩
    exact ⟨d, reads_snoc.2 ⟨p, hp, hedge⟩, hdlive⟩

/-- A deterministic automaton accepts all strings over the alphabet when the
states that its labels lead to all accept, and have a transition for each
label. -/
theorem acceptsAll_iff (h : Finished a) (hdet : a.deterministic = true) :
    AcceptsAll a lo hi ↔ ∀ q, ReachOver a lo hi q →
      a.isAccept q = true ∧ ∀ c, lo ≤ c → c ≤ hi → ∃ d, a.Edge q c d := by
  have hM := h.nfa_deterministic hdet
  constructor
  · intro hall q hq
    rcases reachOver_iff.1 hq with ⟨s, hs, hq⟩
    constructor
    · rcases accepts_iff.1 (hall s hs) with ⟨f, hf, hreads⟩
      rwa [hM.reads_unique hq hreads]
    · intro c hlo hhi
      rcases accepts_iff.1 (hall (s ++ [c]) (over_snoc.2 ⟨hs, hlo, hhi⟩)) with ⟨f, -, hreads⟩
      rcases reads_snoc.1 hreads with ⟨p, hp, hedge⟩
      rw [← hM.reads_unique hq hp] at hedge
      exact ⟨f, hedge⟩
  · intro hgood s hs
    have hreads : ∃ q, Reads a.nfa 0 s q := by
      induction s using List.reverseRecOn with
      | nil => exact ⟨0, reads_nil.2 rfl⟩
      | append_singleton s c ih =>
        rcases over_snoc.1 hs with ⟨hs, hlo, hhi⟩
        rcases ih hs with ⟨p, hp⟩
        rcases (hgood p (reachOver_iff.2 ⟨s, hs, hp⟩)).2 c hlo hhi with ⟨d, hd⟩
        exact ⟨d, reads_snoc.2 ⟨p, hp, hd⟩⟩
    rcases hreads with ⟨q, hq⟩
    exact accepts_iff.2 ⟨q, (hgood q (reachOver_iff.2 ⟨s, hs, hq⟩)).1, hq⟩

/-! ## When the answer is right -/

/-- The labels are of the type `i32`. -/
def LabelsI32 (a : Automaton) : Prop :=
  ∀ q, ∀ t ∈ a.row q, IsI32 t.min ∧ IsI32 t.max

/-- All live states are as they should be, and a label of the alphabet leads
from one that the alphabet reaches into a dead state. -/
def EntersDead (a : Automaton) (lo hi : Int) : Prop :=
  Uniform a lo hi ∧ ∃ p c d, ReachOver a lo hi p ∧ a.Live p ∧ lo ≤ c ∧ c ≤ hi ∧
    a.Edge p c d ∧ ¬ a.Live d

/-- No state is dead, and those that the alphabet reaches accept and have a
transition for each label of it.  But some state that only other labels lead
to does not accept or has a gap, or one of them has a gap in front of a label
outside the alphabet. -/
def Obscured (a : Automaton) (lo hi : Int) : Prop :=
  NoDeadStates a ∧
    (∀ q, ReachOver a lo hi q →
      a.isAccept q = true ∧ ∀ c, lo ≤ c → c ≤ hi → ∃ d, a.Edge q c d) ∧
    ∃ q, a.Live q ∧
      (¬ ReachOver a lo hi q ∧ a.isAccept q = false ∨ ¬ GapFree lo hi (a.row q))

theorem endsI32_of_before (hlabels : ∀ t ∈ ts, IsI32 t.min ∧ IsI32 t.max)
    (hbefore : ts.Pairwise Before) : EndsI32 ts := by
  induction ts with
  | nil => exact List.IsChain.nil
  | cons t ts ih =>
    rw [List.pairwise_cons] at hbefore
    apply List.isChain_cons.2
    constructor
    · intro u hu
      have hmem := List.mem_of_mem_head? hu
      have hlt := hbefore.1 u hmem
      have ht := hlabels t List.mem_cons_self
      have hu := hlabels u (List.mem_cons_of_mem _ hmem)
      unfold Before at hlt
      unfold IsI32 at ht hu ⊢
      omega
    · exact ih (fun u hu => hlabels u (List.mem_cons_of_mem _ hu)) hbefore.2

/-- A state that is not as it should be, in an automaton that accepts all
strings over the alphabet. -/
theorem obscured_iff (hdead : NoDeadStates a)
    (hgood : ∀ q, ReachOver a lo hi q →
      a.isAccept q = true ∧ ∀ c, lo ≤ c → c ≤ hi → ∃ d, a.Edge q c d) :
    Obscured a lo hi ↔ ¬ Uniform a lo hi := by
  constructor
  · intro ⟨_, _, q, hq, hcase⟩ huniform
    rcases huniform q hq with ⟨haccept, hgap⟩
    rcases hcase with ⟨_, hfalse⟩ | hnot
    · rw [haccept] at hfalse
      cases hfalse
    · exact hnot hgap
  · intro hnot
    unfold Uniform at hnot
    push Not at hnot
    rcases hnot with ⟨q, hq, hbad⟩
    refine ⟨hdead, hgood, q, hq, ?_⟩
    by_cases haccept : a.isAccept q = true
    · exact .inr (hbad haccept)
    · refine .inl ⟨?_, Bool.not_eq_true _ ▸ haccept⟩
      intro hreach
      exact haccept (hgood q hreach).1

/-- One state with a transition to itself on every code point. -/
def anyString : Automaton where
  transitions := [[⟨0, 0, 0x10FFFF⟩]]
  accepts := [true]
  curState := none
  deterministic := true

/-- An accepting state that has transitions into a dead state only. -/
def deadSink : Automaton where
  transitions := [[⟨1, 0, 0x10FFFF⟩], []]
  accepts := [true, false]
  curState := none
  deterministic := true

example :
    (do
      let (a, s0) := Automaton.empty.createState
      let (a, s1) := a.createState
      let a ← a.setAccept s0 true
      let a ← a.addTransition s0 s1 MIN_CODE_POINT MAX_CODE_POINT
      pure a.finishState : Result Automaton) = .ok deadSink := by
  rfl

end LuceneRust.Util.Automata
