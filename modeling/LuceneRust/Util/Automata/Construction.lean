import LuceneRust.Util.Automata.Meaning
import LuceneRust.Util.Automata.Automata

/-!
# Automata that are built in place

A constructor that works on the automaton itself keeps to one source state
at a time.  `Site` is the automaton between two such states, and `Work` is
the automaton while the state `q` gets its transitions: `C` are the labels
that they cover, and `E c s` says which strings they let through so far.

What is built is deterministic, with labels in a range, under a condition
`valid` that the constructor may choose.

* `Site.create`, `Site.accept`, `Site.work`, `Work.create`, `Work.edge` and
  `Work.close` follow a constructor.
* `Site.finish` is what it returns.
-/

namespace LuceneRust.Util.Automata

open RustSem

variable {valid : Prop} {lo hi : Int} {a : Automaton} {log : List (Nat × Transition)}
  {L : Meaning} {P P' : Nat → Prop} {K : List Int → Prop} {C : Int → Prop}
  {E : Int → List Int → Prop} {t : Transition} {q d : Nat}

/-- The labels of the transitions are in the range, and no label leads from
one state to two. -/
structure Tidy (lo hi : Int) (log : List (Nat × Transition)) : Prop where
  labels : ∀ e ∈ log, LabelIn lo hi e.2
  det : ∀ q, RowDet (logRow log q)

theorem Tidy.nil (lo hi : Int) : Tidy lo hi [] where
  labels _ he := nomatch he
  det _ _ _ _ hd := absurd hd rowEdge_nil

/-- A transition for labels that its source does not have yet. -/
theorem Tidy.append (h : Tidy lo hi log) (ht : LabelIn lo hi t)
    (hfresh : ∀ c d, RowEdge (logRow log q) c d → ¬ t.Covers c) :
    Tidy lo hi (log ++ [(q, t)]) where
  labels e he := by
    rcases List.mem_append.1 he with he | he
    · exact h.labels e he
    · rw [List.mem_singleton.1 he]
      exact ht
  det p c d d' hd hd' := by
    rw [logRow_append, logRow_singleton, rowEdge_append] at hd hd'
    by_cases hpq : q = p
    · rw [if_pos hpq, rowEdge_cons] at hd hd'
      rw [← hpq] at hd hd'
      rcases hd with hd | ⟨hd, hc⟩ | hd
      · rcases hd' with hd' | ⟨hd', hc'⟩ | hd'
        · exact h.det q c d d' hd hd'
        · exact absurd hc' (hfresh c d hd)
        · exact absurd hd' rowEdge_nil
      · rcases hd' with hd' | ⟨hd', hc'⟩ | hd'
        · exact absurd hc (hfresh c d' hd')
        · rw [← hd, ← hd']
        · exact absurd hd' rowEdge_nil
      · exact absurd hd rowEdge_nil
    · rw [if_neg hpq] at hd hd'
      exact h.det p c d d' (hd.resolve_right rowEdge_nil) (hd'.resolve_right rowEdge_nil)

/-- An automaton under construction, with the pending states `P`. -/
structure Site (valid : Prop) (lo hi : Int) (a : Automaton) (log : List (Nat × Transition))
    (L : Meaning) (P : Nat → Prop) : Prop where
  built : Built a log
  sketch : Sketch a.numStates log a.isAccept L P
  tidy : valid → Tidy lo hi log

/-- An automaton while the state `q` gets its transitions. -/
structure Work (valid : Prop) (lo hi : Int) (a : Automaton) (log : List (Nat × Transition))
    (L : Meaning) (P : Nat → Prop) (q : Nat) (C : Int → Prop) (E : Int → List Int → Prop) :
    Prop where
  site : Site valid lo hi a log L P
  pending : P q
  isOpen : Open a log q
  cover : ∀ c d, RowEdge (logRow log q) c d → C c
  edges : ∀ c s, (∃ d, RowEdge (logRow log q) c d ∧ L d s) ↔ E c s

theorem Site.empty (valid : Prop) (lo hi : Int) (L : Meaning) :
    Site valid lo hi Automaton.empty [] L fun _ => False where
  built := Built.empty
  sketch :=
    { lt := fun _ he => nomatch he
      pending := fun _ hq => hq.elim
      closed := fun _ hq => nomatch hq }
  tidy _ := .nil lo hi

/-- A new state, for the strings `K`. -/
theorem Site.create (h : Site valid lo hi a log L P) (K : List Int → Prop) :
    Site valid lo hi a.createState.1 log (Function.update L a.numStates K)
      fun q => P q ∨ q = a.numStates where
  built := h.built.createState
  sketch := by
    have hnew := (h.sketch.create K).setFlag fun q _ _ => Automaton.isAccept_createState a (q := q)
    rw [← Automaton.numStates_createState] at hnew
    exact hnew
  tidy := h.tidy

theorem Site.row_new (h : Site valid lo hi a log L P) : logRow log a.numStates = [] :=
  h.sketch.row_of_ge (le_refl _)

theorem Site.isAccept_new (h : Site valid lo hi a log L P) : a.isAccept a.numStates = false :=
  h.built.isAccept_of_ge (le_refl _)

/-- `set_accept` on a state that is pending, or has that flag. -/
theorem Site.accept (h : Site valid lo hi a log L P) (accept : Bool) (hlt : q < a.numStates)
    (hq : P q ∨ a.isAccept q = accept) :
    ∃ a', a.setAccept q accept = .ok a' ∧ Site valid lo hi a' log L P ∧
      a'.numStates = a.numStates ∧ a'.curState = a.curState ∧
      ∀ p, a'.isAccept p = if p = q then accept else a.isAccept p := by
  rcases h.built.setAccept hlt accept with ⟨a', ha', hbuilt, hn, hcur, hacc⟩
  refine ⟨a', ha', ⟨hbuilt, ?_, h.tidy⟩, hn, hcur, hacc⟩
  rw [hn]
  apply h.sketch.setFlag
  intro p _ hp
  rw [hacc]
  split
  · next heq =>
    rw [heq] at hp ⊢
    exact (hq.resolve_left hp).symm
  · rfl

/-- A pending state without transitions gets its first one. -/
theorem Site.work (h : Site valid lo hi a log L P) (hq : P q) (hrow : logRow log q = []) :
    Work valid lo hi a log L P q (fun _ => False) fun _ _ => False where
  site := h
  pending := hq
  isOpen := .inr hrow
  cover c d hd := by
    rw [hrow] at hd
    exact rowEdge_nil hd
  edges c s := by
    rw [hrow]
    simp only [rowEdge_nil, false_and, exists_false]

theorem Site.mono (h : Site valid lo hi a log L P) (hP : ∀ q, P' q ↔ P q) :
    Site valid lo hi a log L P' where
  built := h.built
  sketch :=
    { lt := h.sketch.lt
      pending := fun q hq => h.sketch.pending q ((hP q).1 hq)
      closed := fun q hq hnot => h.sketch.closed q hq fun hp => hnot ((hP q).2 hp) }
  tidy := h.tidy

/-- A new state in the middle of the work on another one. -/
theorem Work.create (h : Work valid lo hi a log L P q C E) (K : List Int → Prop) :
    Work valid lo hi a.createState.1 log (Function.update L a.numStates K)
      (fun p => P p ∨ p = a.numStates) q C E where
  site := h.site.create K
  pending := .inl h.pending
  isOpen := h.isOpen
  cover := h.cover
  edges c s := by
    rw [← h.edges]
    apply exists_congr
    intro d
    apply and_congr_right
    intro ⟨t, ht, htd, _⟩
    have hne : d ≠ a.numStates := by
      rw [← htd]
      exact (h.site.sketch.lt _ (mem_logRow.1 ht)).2.ne
    rw [Function.update_of_ne hne]

/-- A transition of the state that is worked on. -/
theorem Work.edge (h : Work valid lo hi a log L P q C E) (hd : d < a.numStates) (hK : L d = K)
    (min max : Int) (hvalid : valid → lo ≤ min ∧ min ≤ max ∧ max ≤ hi)
    (hfresh : ∀ c, C c → ¬ (min ≤ c ∧ c ≤ max)) :
    ∃ a' log', a.addTransition q d min max = .ok a' ∧
      Work valid lo hi a' log' L P q (fun c => C c ∨ min ≤ c ∧ c ≤ max)
        (fun c s => E c s ∨ (min ≤ c ∧ c ≤ max) ∧ K s) ∧
      a'.numStates = a.numStates ∧ a'.accepts = a.accepts ∧
      log' = log ++ [(q, ⟨d, min, max⟩)] := by
  have hq := h.site.sketch.pending q h.pending
  rcases h.site.built.addTransition h.isOpen hq hd min max with
    ⟨a', ha', hbuilt, hcur, hn, hacc⟩
  refine ⟨a', _, ha', ⟨⟨hbuilt, ?_, ?_⟩, h.pending, .inl hcur, ?_, ?_⟩, hn, hacc, rfl⟩
  · rw [hn]
    apply (h.site.sketch.add (t := ⟨d, min, max⟩) h.pending hd).setFlag
    intro p _ _
    unfold Automaton.isAccept
    rw [hacc]
  · intro hv
    exact (h.site.tidy hv).append (hvalid hv) fun c e he => hfresh c (h.cover c e he)
  · intro c e he
    rw [logRow_append, logRow_singleton, if_pos rfl, rowEdge_append, rowEdge_cons] at he
    rcases he with he | ⟨_, hc⟩ | he
    · exact .inl (h.cover c e he)
    · exact .inr hc
    · exact absurd he rowEdge_nil
  · intro c s
    rw [logRow_append, logRow_singleton, if_pos rfl, ← h.edges, ← hK]
    simp only [rowEdge_append, rowEdge_cons, rowEdge_nil, or_false, or_and_right, exists_or]
    apply or_congr_right
    constructor
    · rintro ⟨e, ⟨hde, hc⟩, he⟩
      rw [← hde] at he
      exact ⟨hc, he⟩
    · rintro ⟨hc, hs⟩
      exact ⟨d, ⟨rfl, hc⟩, hs⟩

theorem Work.congr {C' : Int → Prop} {E' : Int → List Int → Prop}
    (h : Work valid lo hi a log L P q C E) (hC : ∀ c, C c → C' c) (hE : ∀ c s, E c s ↔ E' c s) :
    Work valid lo hi a log L P q C' E' where
  site := h.site
  pending := h.pending
  isOpen := h.isOpen
  cover c d hd := hC c (h.cover c d hd)
  edges c s := (h.edges c s).trans (hE c s)

/-- A transition that is left out where it has no labels. -/
theorem Work.edgeIf (h : Work valid lo hi a log L P q C E) {cond : Prop} [Decidable cond]
    {min max : Int} (hcond : cond ↔ min ≤ max) (hd : d < a.numStates) (hK : L d = K)
    (hvalid : min ≤ max → lo ≤ min ∧ max ≤ hi) (hfresh : ∀ c, C c → ¬ (min ≤ c ∧ c ≤ max)) :
    ∃ a' log', a.addTransitionIf cond q d min max = .ok a' ∧
      Work valid lo hi a' log' L P q (fun c => C c ∨ min ≤ c ∧ c ≤ max)
        (fun c s => E c s ∨ (min ≤ c ∧ c ≤ max) ∧ K s) ∧
      a'.numStates = a.numStates ∧ a'.accepts = a.accepts ∧
      ∀ p ≠ q, logRow log' p = logRow log p := by
  by_cases hc : cond
  · have hle := hcond.1 hc
    rcases h.edge hd hK min max (fun _ => ⟨(hvalid hle).1, hle, (hvalid hle).2⟩) hfresh with
      ⟨a', log', ha', hwork, hn, hacc, hlog⟩
    refine ⟨a', log', ?_, hwork, hn, hacc, ?_⟩
    · unfold Automaton.addTransitionIf
      rw [if_pos hc, ha']
    · intro p hp
      rw [hlog, logRow_append, logRow_singleton, if_neg hp.symm, List.append_nil]
  · have hempty : ∀ c, ¬ (min ≤ c ∧ c ≤ max) := by
      intro c ⟨hlo, hhi⟩
      exact hc (hcond.2 (hlo.trans hhi))
    refine ⟨a, log, ?_, ?_, rfl, rfl, fun _ _ => rfl⟩
    · unfold Automaton.addTransitionIf
      rw [if_neg hc]
      rfl
    · apply h.congr
      · intro c hC
        exact .inl hC
      · intro c s
        rw [or_iff_left fun hcs => hempty c hcs.1]

/-- `set_accept` in the middle of the work on another state. -/
theorem Work.acceptIf (h : Work valid lo hi a log L P q C E) (cond : Prop) [Decidable cond]
    {p : Nat} (hp : P p) (hflag : a.isAccept p = false) :
    ∃ a', a.setAcceptIf cond p = .ok a' ∧ Work valid lo hi a' log L P q C E ∧
      a'.numStates = a.numStates ∧
      ∀ r, a'.isAccept r = if r = p then decide cond else a.isAccept r := by
  unfold Automaton.setAcceptIf
  by_cases hc : cond
  · rcases h.site.accept true (h.site.sketch.pending p hp) (.inl hp) with
      ⟨a', ha', hsite, hn, hcur, hacc⟩
    refine ⟨a', ?_, ⟨hsite, h.pending, ?_, h.cover, h.edges⟩, hn, ?_⟩
    · rw [if_pos hc, ha']
    · unfold Open
      rw [hcur]
      exact h.isOpen
    · intro r
      rw [hacc, decide_eq_true hc]
  · refine ⟨a, ?_, h, rfl, ?_⟩
    · rw [if_neg hc]
      rfl
    · intro r
      split
      · next heq => rw [heq, hflag, decide_eq_false hc]
      · rfl

/-- The state that was worked on lets through what it is for. -/
theorem Work.close (h : Work valid lo hi a log L P q C E) (hnil : a.isAccept q = true ↔ L q [])
    (hcons : ∀ c s, L q (c :: s) ↔ E c s) (hP : ∀ p, P' p ↔ P p ∧ p ≠ q) :
    Site valid lo hi a log L P' where
  built := h.site.built
  sketch := h.site.sketch.close ⟨hnil, fun c s => (hcons c s).trans (h.edges c s).symm⟩ hP
  tidy := h.site.tidy

/-- What a construction without pending states returns. -/
theorem Site.finish (h : Site valid lo hi a log L P) (hP : ∀ q, ¬ P q) (hpos : 0 < a.numStates) :
    Finished a.finishState ∧ (∀ s, a.finishState.Accepts s ↔ L 0 s) ∧
      (valid → a.finishState.deterministic = true ∧ LabelsIn lo hi a.finishState) := by
  rcases h.built.finishState with ⟨hbuilt, hcur, hn, hacc⟩
  refine ⟨hbuilt.finished hcur, ?_, ?_⟩
  · apply h.sketch.accepts_iff hP (fun _ _ _ => hbuilt.edge_iff_row)
    · intro q
      unfold Automaton.isAccept
      rw [hacc]
    · exact hpos
  · intro hv
    have htidy := h.tidy hv
    exact ⟨hbuilt.deterministic (fun e he => (htidy.labels e he).2.1) htidy.det,
      hbuilt.labelsIn hcur htidy.labels⟩

end LuceneRust.Util.Automata
