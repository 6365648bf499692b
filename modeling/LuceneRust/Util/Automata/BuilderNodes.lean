import LuceneRust.Util.Automata.Meaning

/-!
# Builders that grow node by node

A recursive constructor makes a state, lets the recursive calls make the
states behind it, and adds the transitions to them.  `Node` is what holds in
between: the state is pending, the states before it are as they were, and
`E c s` says which strings its transitions let through so far.

* `Node.create`, `Node.child` and `Node.edge` follow a constructor.
* `Node.close` and `Node.accept` turn the node into what it is for.
-/

namespace LuceneRust.Util.Automata

open RustSem

variable {b b' b₀ : Builder} {L L' L₀ : Meaning} {P : Nat → Prop} {K K₁ : List Int → Prop}
  {E : Int → List Int → Prop} {d q : Nat} {lo hi : Int}

/-- What the states of a builder are for. -/
abbrev Draft (b : Builder) (L : Meaning) (P : Nat → Prop) : Prop :=
  Sketch b.numStates b.transitions b.isAccept L P

/-- `b'` has the states of `b`, and more. -/
structure Grown (b : Builder) (L : Meaning) (b' : Builder) (L' : Meaning) : Prop where
  le : b.numStates ≤ b'.numStates
  row : ∀ q < b.numStates, logRow b'.transitions q = logRow b.transitions q
  flag : ∀ q < b.numStates, b'.isAccept q = b.isAccept q
  meaning : ∀ q < b.numStates, L' q = L q

theorem Grown.trans (h : Grown b₀ L₀ b L) (h' : Grown b L b' L') : Grown b₀ L₀ b' L' where
  le := h.le.trans h'.le
  row q hq := (h'.row q (hq.trans_le h.le)).trans (h.row q hq)
  flag q hq := (h'.flag q (hq.trans_le h.le)).trans (h.flag q hq)
  meaning q hq := (h'.meaning q (hq.trans_le h.le)).trans (h.meaning q hq)

/-- A call has made the state `b₀.numStates`, for the strings `K`, and the
states behind it. -/
structure Drawn (b₀ : Builder) (L₀ : Meaning) (P : Nat → Prop) (K : List Int → Prop)
    (b : Builder) (L : Meaning) : Prop where
  draft : Draft b L P
  grown : Grown b₀ L₀ b L
  lt : b₀.numStates < b.numStates
  root : L b₀.numStates = K

/-- A call is making the state `b₀.numStates`, for the strings `K`. -/
structure Node (b₀ : Builder) (L₀ : Meaning) (P : Nat → Prop) (K : List Int → Prop)
    (E : Int → List Int → Prop) (b : Builder) (L : Meaning) : Prop where
  fresh : ∀ q, P q → q < b₀.numStates
  draft : Draft b L fun q => P q ∨ q = b₀.numStates
  grown : Grown b₀ L₀ b L
  lt : b₀.numStates < b.numStates
  root : L b₀.numStates = K
  flag : b.isAccept b₀.numStates = false
  edges : ∀ c s, (∃ d, RowEdge (logRow b.transitions b₀.numStates) c d ∧ L d s) ↔ E c s

theorem Builder.isAccept_createState (b : Builder) :
    b.createState.1.isAccept q = b.isAccept q := by
  unfold Builder.isAccept Builder.createState
  rw [List.getD_eq_getElem?_getD, List.getD_eq_getElem?_getD, List.getElem?_append]
  split
  · rfl
  · next h =>
    rw [List.getElem?_eq_none (by omega : b.accepts.length ≤ q)]
    rcases Nat.lt_trichotomy q b.accepts.length with h' | h' | h'
    · exact absurd h' h
    · rw [h', Nat.sub_self]
      rfl
    · rw [List.getElem?_eq_none (by rw [List.length_singleton]; omega)]

@[simp] theorem Builder.numStates_createState (b : Builder) :
    b.createState.1.numStates = b.numStates + 1 :=
  List.length_append

theorem Node.create (h : Draft b L P) (K : List Int → Prop) :
    Node b L P K (fun _ _ => False) b.createState.1 (Function.update L b.numStates K) where
  fresh := h.pending
  draft := by
    have hnew := (h.create K).setFlag fun q _ _ => Builder.isAccept_createState b (q := q)
    rw [← Builder.numStates_createState] at hnew
    exact hnew
  grown :=
    { le := by
        rw [Builder.numStates_createState]
        exact Nat.le_succ _
      row := fun _ _ => rfl
      flag := fun _ _ => Builder.isAccept_createState b
      meaning := fun q hq => Function.update_of_ne hq.ne K L }
  lt := by
    rw [Builder.numStates_createState]
    exact Nat.lt_succ_self _
  root := Function.update_self ..
  flag := by
    rw [Builder.isAccept_createState]
    exact List.getD_eq_default _ _ (le_refl _)
  edges c s := by
    have hrow : logRow b.createState.1.transitions b.numStates = [] := h.row_of_ge (le_refl _)
    rw [hrow]
    simp only [rowEdge_nil, false_and, exists_false]

/-- A recursive call makes a state behind the node. -/
theorem Node.child (h : Node b₀ L₀ P K E b L)
    (hchild : Drawn b L (fun q => P q ∨ q = b₀.numStates) K₁ b' L') :
    Node b₀ L₀ P K E b' L' where
  fresh := h.fresh
  draft := hchild.draft
  grown := h.grown.trans hchild.grown
  lt := h.lt.trans hchild.lt
  root := by
    rw [hchild.grown.meaning _ h.lt, h.root]
  flag := by
    rw [hchild.grown.flag _ h.lt, h.flag]
  edges c s := by
    rw [← h.edges, hchild.grown.row _ h.lt]
    apply exists_congr
    intro d
    apply and_congr_right
    intro ⟨t, ht, htd, _⟩
    have hlt : d < b.numStates := by
      rw [← htd]
      exact (h.draft.lt _ (mem_logRow.1 ht)).2
    rw [hchild.grown.meaning d hlt]

/-- A transition of the node. -/
theorem Node.edge (h : Node b₀ L₀ P K E b L) (hd : d < b.numStates) (hK : L d = K₁) (lo hi : Int) :
    Node b₀ L₀ P K (fun c s => E c s ∨ (lo ≤ c ∧ c ≤ hi) ∧ K₁ s)
      (b.addTransition b₀.numStates d lo hi) L where
  fresh := h.fresh
  draft := h.draft.add (.inr rfl) hd
  grown :=
    { le := h.grown.le
      row := by
        intro q hq
        unfold Builder.addTransition
        rw [logRow_append, logRow_singleton, if_neg hq.ne', List.append_nil, h.grown.row q hq]
      flag := h.grown.flag
      meaning := h.grown.meaning }
  lt := h.lt
  root := h.root
  flag := h.flag
  edges c s := by
    unfold Builder.addTransition
    rw [logRow_append, logRow_singleton, if_pos rfl, ← h.edges, ← hK]
    simp only [rowEdge_append, rowEdge_cons, rowEdge_nil, or_false, or_and_right, exists_or]
    apply or_congr_right
    constructor
    · rintro ⟨e, ⟨hde, hc⟩, he⟩
      rw [← hde] at he
      exact ⟨hc, he⟩
    · rintro ⟨hc, hs⟩
      exact ⟨d, ⟨rfl, hc⟩, hs⟩

/-- The node lets through what it is for. -/
theorem Node.close (h : Node b₀ L₀ P K E b L) (hnil : ¬ K []) (hcons : ∀ c s, K (c :: s) ↔ E c s) :
    Drawn b₀ L₀ P K b L where
  draft := by
    apply h.draft.close (q := b₀.numStates)
    · constructor
      · rw [h.flag, h.root]
        simp [hnil]
      · intro c s
        rw [h.root, hcons, h.edges]
    · intro q
      constructor
      · intro hq
        exact ⟨.inl hq, (h.fresh q hq).ne⟩
      · intro ⟨hq, hne⟩
        exact hq.resolve_right hne
  grown := h.grown
  lt := h.lt
  root := h.root

theorem Builder.setAccept_spec (b : Builder) (hq : q < b.numStates) (accept : Bool) :
    ∃ b', b.setAccept q accept = .ok b' ∧ b'.numStates = b.numStates ∧
      b'.transitions = b.transitions ∧
      ∀ p, b'.isAccept p = if p = q then accept else b.isAccept p := by
  unfold Builder.setAccept
  rw [guardOk_pos hq]
  refine ⟨_, rfl, List.length_set, rfl, ?_⟩
  intro p
  unfold Builder.isAccept
  simp only [List.getD_eq_getElem?_getD, List.getElem?_set]
  by_cases hp : p = q
  · have hlt : q < b.accepts.length := hq
    rw [if_pos hp, if_pos hp.symm, if_pos hlt]
    rfl
  · rw [if_neg hp, if_neg (Ne.symm hp)]

/-- A node without transitions that accepts. -/
theorem Node.accept (h : Node b₀ L₀ P K (fun _ _ => False) b L) (hK : ∀ s, K s ↔ s = []) :
    ∃ b', b.setAccept b₀.numStates true = .ok b' ∧ Drawn b₀ L₀ P K b' L := by
  rcases b.setAccept_spec h.lt true with ⟨b', hb', hn, htr, hacc⟩
  have hold : ∀ q ≠ b₀.numStates, b'.isAccept q = b.isAccept q := by
    intro q hq
    rw [hacc, if_neg hq]
  refine ⟨b', hb', ?_, ?_, ?_, h.root⟩
  · unfold Draft
    rw [hn, htr]
    have hflag : Sketch b.numStates b.transitions b'.isAccept L fun q => P q ∨ q = b₀.numStates :=
      h.draft.setFlag fun q _ hq => hold q fun heq => hq (.inr heq)
    apply hflag.close (q := b₀.numStates)
    · constructor
      · rw [hacc, if_pos rfl, h.root]
        simp [hK]
      · intro c s
        rw [h.root, hK, h.edges]
        simp
    · intro q
      constructor
      · intro hq
        exact ⟨.inl hq, (h.fresh q hq).ne⟩
      · intro ⟨hq, hne⟩
        exact hq.resolve_right hne
  · constructor
    · rw [hn]
      exact h.grown.le
    · rw [htr]
      exact h.grown.row
    · intro q hq
      rw [hold q hq.ne]
      exact h.grown.flag q hq
    · exact h.grown.meaning
  · rw [hn]
    exact h.lt

/-! ## Finishing a builder -/

theorem rowEdge_insertionSort (log : List (Nat × Transition)) (q : Nat) (c : Int) (d : Nat) :
    RowEdge (logRow (log.insertionSort Builder.KeyLe) q) c d ↔ RowEdge (logRow log q) c d := by
  rw [rowEdge_logRow, rowEdge_logRow]
  simp only [List.mem_insertionSort]

/-- `finish` keeps what the states are for. -/
theorem Draft.finish (h : Draft b L P) :
    ∃ a log, b.finish = .ok a ∧ Built a log ∧ a.curState = none ∧ a.numStates = b.numStates ∧
      (∀ q, logRow b.transitions q = [] → logRow log q = []) ∧
      (∀ q, a.isAccept q = b.isAccept q) ∧ Sketch a.numStates log a.isAccept L P := by
  rcases b.finish_spec h.lt with ⟨a, ha, hbuilt, hcur, hn, hacc⟩
  refine ⟨a, _, ha, hbuilt, hcur, hn, ?_, hacc, hbuilt.lt, ?_, ?_⟩
  · intro q hq
    rw [logRow_eq_nil] at hq ⊢
    intro t ht
    exact hq t ((List.mem_insertionSort Builder.KeyLe).1 ht)
  · rw [hn]
    exact h.pending
  · intro q hq hnot
    rw [hn] at hq
    exact (h.closed q hq hnot).of_edges (rowEdge_insertionSort _ q) (hacc q)

end LuceneRust.Util.Automata
