import Mathlib.Computability.NFA

/-!
# The words of a nondeterministic automaton, state by state

Mathlib's `NFA` runs on sets of states.  A proof about an automaton that was
built edge by edge wants one state at a time: which words lead from `q` to
`q'` (`Reads`), and which words are accepted from `q` (`Accepts`).

* `reads_cons`, `reads_append`, `accepts_cons` and `accepts_append` take a
  word apart.
* `accepts_iff_of_equations` is the rule that names the language of every
  state: a family of languages that obeys the equations of the automaton is
  the family of its languages.
* `accepts_map` carries acceptance along a map of the states.
* `Deterministic.reads_unique` says that a deterministic automaton is in one
  state at most.
-/

namespace NfaPaths

variable {α σ τ : Type*} {M : NFA α σ} {q q' : σ} {c : α} {x y : List α}

/-- `M` can go from `q` to `q'` while it reads `x`. -/
def Reads (M : NFA α σ) (q : σ) (x : List α) (q' : σ) : Prop :=
  q' ∈ M.evalFrom {q} x

/-- `M` accepts `x` from the state `q`. -/
def Accepts (M : NFA α σ) (q : σ) (x : List α) : Prop :=
  ∃ f ∈ M.accept, Reads M q x f

@[simp] theorem reads_nil : Reads M q [] q' ↔ q' = q := by
  rw [Reads, NFA.evalFrom_nil, Set.mem_singleton_iff]

theorem reads_cons :
    Reads M q (c :: x) q' ↔ ∃ d ∈ M.step q c, Reads M d x q' := by
  rw [Reads, NFA.evalFrom_cons, NFA.stepSet_singleton, NFA.mem_evalFrom_iff_exists]
  rfl

theorem reads_append :
    Reads M q (x ++ y) q' ↔ ∃ d, Reads M q x d ∧ Reads M d y q' := by
  induction x generalizing q with
  | nil => simp
  | cons c x ih =>
    rw [List.cons_append, reads_cons]
    constructor
    · rintro ⟨d, hd, h⟩
      obtain ⟨e, hx, hy⟩ := ih.1 h
      exact ⟨e, reads_cons.2 ⟨d, hd, hx⟩, hy⟩
    · rintro ⟨e, h, hy⟩
      obtain ⟨d, hd, hx⟩ := reads_cons.1 h
      exact ⟨d, hd, ih.2 ⟨e, hx, hy⟩⟩

theorem reads_snoc :
    Reads M q (x ++ [c]) q' ↔ ∃ d, Reads M q x d ∧ q' ∈ M.step d c := by
  simp [reads_append, reads_cons]

@[simp] theorem accepts_nil : Accepts M q [] ↔ q ∈ M.accept := by
  simp [Accepts]

theorem accepts_cons :
    Accepts M q (c :: x) ↔ ∃ d ∈ M.step q c, Accepts M d x := by
  unfold Accepts
  constructor
  · rintro ⟨f, hf, h⟩
    obtain ⟨d, hd, hx⟩ := reads_cons.1 h
    exact ⟨d, hd, f, hf, hx⟩
  · rintro ⟨d, hd, f, hf, hx⟩
    exact ⟨f, hf, reads_cons.2 ⟨d, hd, hx⟩⟩

/-- The language of an automaton with one start state. -/
theorem mem_accepts_iff (h : M.start = {q}) : x ∈ M.accepts ↔ Accepts M q x := by
  rw [NFA.mem_accepts, h]
  rfl

/-- Languages that obey the equations of the automaton are its languages, on
a set of states that its edges do not leave. -/
theorem accepts_iff_of_equations (I : σ → Prop) (L : σ → List α → Prop)
    (hI : ∀ q c d, I q → d ∈ M.step q c → I d)
    (hnil : ∀ q, I q → (L q [] ↔ q ∈ M.accept))
    (hcons : ∀ q c x, I q → (L q (c :: x) ↔ ∃ d ∈ M.step q c, L d x)) :
    ∀ x q, I q → (Accepts M q x ↔ L q x) := by
  intro x
  induction x with
  | nil =>
    intro q hq
    rw [accepts_nil, hnil q hq]
  | cons c x ih =>
    intro q hq
    rw [accepts_cons, hcons q c x hq]
    constructor
    · rintro ⟨d, hd, h⟩
      exact ⟨d, hd, (ih d (hI q c d hq hd)).1 h⟩
    · rintro ⟨d, hd, h⟩
      exact ⟨d, hd, (ih d (hI q c d hq hd)).2 h⟩

/-- Acceptance along a map of the states.  An edge of `M` that stays among
the states that accept something is the preimage of an edge of `N`. -/
theorem accepts_map {N : NFA α τ} (f : σ → τ) (I : σ → Prop)
    (haccept : ∀ q, I q → (q ∈ M.accept ↔ f q ∈ N.accept))
    (hstep : ∀ q c d', I q → (d' ∈ N.step (f q) c ↔ ∃ d, I d ∧ f d = d' ∧ d ∈ M.step q c))
    (hlive : ∀ q c d x, I q → d ∈ M.step q c → Accepts M d x → I d) :
    ∀ x q, I q → (Accepts N (f q) x ↔ Accepts M q x) := by
  intro x
  induction x with
  | nil =>
    intro q hq
    rw [accepts_nil, accepts_nil, haccept q hq]
  | cons c x ih =>
    intro q hq
    rw [accepts_cons, accepts_cons]
    constructor
    · rintro ⟨d', hd', h⟩
      obtain ⟨d, hd, rfl, hstep'⟩ := (hstep q c d' hq).1 hd'
      exact ⟨d, hstep', (ih d hd).1 h⟩
    · rintro ⟨d, hd, h⟩
      have hId := hlive q c d x hq hd h
      exact ⟨f d, (hstep q c (f d) hq).2 ⟨d, hId, rfl, hd⟩, (ih d hId).2 h⟩

/-- No state has two edges with one letter. -/
def Deterministic (M : NFA α σ) : Prop :=
  ∀ q c d d', d ∈ M.step q c → d' ∈ M.step q c → d = d'

theorem Deterministic.reads_unique (hM : Deterministic M) {d d' : σ}
    (h : Reads M q x d) (h' : Reads M q x d') : d = d' := by
  induction x generalizing q with
  | nil => rw [reads_nil.1 h, reads_nil.1 h']
  | cons c x ih =>
    obtain ⟨e, he, hx⟩ := reads_cons.1 h
    obtain ⟨e', he', hx'⟩ := reads_cons.1 h'
    cases hM q c e e' he he'
    exact ih hx hx'

end NfaPaths
