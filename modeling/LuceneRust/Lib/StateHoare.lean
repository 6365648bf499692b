import LuceneRust.RustSem.Outcome

/-!
# Programs over a state that may fail

A program over a state ends as a Rust call does, and each of the three ways
leaves a state behind.  A triple has a postcondition for the value (`Q`) and
one for the error (`E`), and it says that there is no panic.

* `triple_bind` is the rule for two programs in sequence and `triple_forM` the
  one for a loop over a list.
* `Yields` is total correctness from one state on, with the rules of the same
  names.
* `Returns` is partial correctness, with the rules of the same names.
* `Ends` allows a panic and treats it as a failure, so that an invariant can be
  followed through programs that may panic (`ends_bind`, `ends_forM`).
* `Keeps` is the case of it where one invariant holds before and after.
* `Op.iterate` is a loop (`triple_iterate`).
-/

namespace StateHoare

open RustSem

/-- A program over the state `σ`. -/
def Op (ε σ α : Type) := σ → Outcome ε α × σ

variable {ε σ α β : Type}

instance : Monad (Op ε σ) where
  pure a := fun s => (.ok a, s)
  bind x f := fun s =>
    match x s with
    | (.ok a, s) => f a s
    | (.err e, s) => (.err e, s)
    | (.panic, s) => (.panic, s)

theorem Op.bind_apply (x : Op ε σ α) (f : α → Op ε σ β) (s : σ) :
    (x >>= f) s = match x s with
      | (.ok a, s) => f a s
      | (.err e, s) => (.err e, s)
      | (.panic, s) => (.panic, s) := rfl

instance : LawfulMonad (Op ε σ) :=
  LawfulMonad.mk' _
    (fun x => by
      funext s
      change (x >>= pure) s = x s
      rw [Op.bind_apply]
      rcases x s with ⟨a | e | -, t⟩ <;> rfl)
    (fun _ _ => rfl)
    (fun x f g => by
      funext s
      rw [Op.bind_apply, Op.bind_apply, Op.bind_apply]
      rcases x s with ⟨a | e | -, t⟩ <;> rfl)

/-- A value that is read off the state. -/
def Op.get (f : σ → α) : Op ε σ α := fun s => (.ok (f s), s)

/-- A change of the state. -/
def Op.modify (f : σ → σ) : Op ε σ Unit := fun s => (.ok (), f s)

/-- A call that does not touch the state. -/
def Op.lift (x : Outcome ε α) : Op ε σ α := fun s => (x, s)

/-- An error. -/
def Op.throw (e : ε) : Op ε σ α := Op.lift (.err e)

/-- The program `x`, with its error as a value. -/
def Op.attempt (x : Op ε σ α) : Op ε σ (Except ε α) := fun s =>
  match x s with
  | (.ok a, s) => (.ok (.ok a), s)
  | (.err e, s) => (.ok (.error e), s)
  | (.panic, s) => (.panic, s)

/-- What `attempt` kept. -/
def Op.ofExcept : Except ε α → Op ε σ α
  | .ok a => Op.lift (.ok a)
  | .error e => Op.throw e

/-- A loop whose body `step` continues with a new value or leaves with a result.
It makes at most `fuel` passes. -/
def Op.iterate {τ : Type} (step : τ → Op ε σ (τ ⊕ α)) : Nat → τ → Op ε σ α
  | 0, _ => Op.lift .panic
  | fuel + 1, t => do
    let r ← step t
    match r with
    | .inl t => Op.iterate step fuel t
    | .inr a => pure a

/-- The program `x`, if `b` holds. -/
def Op.when (b : Bool) (x : Op ε σ Unit) : Op ε σ Unit := if b then x else pure ()

/-- The postconditions of a program that has ended. -/
def Sat (Q : σ → α → Prop) (E : σ → Prop) : Outcome ε α × σ → Prop
  | (.ok a, s) => Q s a
  | (.err _, s) => E s
  | (.panic, _) => False

/-- A program from a state with `P` returns with `Q` or fails with `E`. -/
def Triple (P : σ → Prop) (x : Op ε σ α) (Q : σ → α → Prop) (E : σ → Prop) : Prop :=
  ∀ s, P s → Sat Q E (x s)

variable {P P' E E' : σ → Prop} {Q Q' : σ → α → Prop} {R : σ → β → Prop}
  {x : Op ε σ α} {f : α → Op ε σ β}

theorem bind_ok {s t : σ} {a : α} (h : x s = (.ok a, t)) : (x >>= f) s = f a t := by
  rw [Op.bind_apply, h]

theorem bind_err {s t : σ} {e : ε} (h : x s = (.err e, t)) : (x >>= f) s = (.err e, t) := by
  rw [Op.bind_apply, h]

theorem bind_panic {s t : σ} (h : x s = (.panic, t)) : (x >>= f) s = (.panic, t) := by
  rw [Op.bind_apply, h]

theorem fst_bind_panic {s : σ} (h : (x s).1 = .panic) : ((x >>= f) s).1 = .panic := by
  rw [bind_panic (t := (x s).2) (Prod.ext h rfl)]

theorem get_bind (g : σ → α) (f : α → Op ε σ β) (s : σ) : (Op.get g >>= f) s = f (g s) s := rfl

theorem modify_bind (g : σ → σ) (f : Unit → Op ε σ β) (s : σ) :
    (Op.modify g >>= f) s = f () (g s) := rfl

section Iterate

variable {τ : Type} {step : τ → Op ε σ (τ ⊕ α)} {fuel : Nat} {s t : σ} {c c' : τ}

theorem Op.iterate_continue (h : step c s = (.ok (.inl c'), t)) :
    Op.iterate step (fuel + 1) c s = Op.iterate step fuel c' t := bind_ok h

theorem Op.iterate_leave {a : α} (h : step c s = (.ok (.inr a), t)) :
    Op.iterate step (fuel + 1) c s = (.ok a, t) := bind_ok h

end Iterate

theorem triple_pure {a : α} (h : ∀ s, P s → Q s a) :
    Triple P (pure a : Op ε σ α) Q E := h

theorem triple_get {g : σ → α} (h : ∀ s, P s → Q s (g s)) :
    Triple P (Op.get g : Op ε σ α) Q E := h

theorem triple_modify {g : σ → σ} {Q : σ → Unit → Prop} (h : ∀ s, P s → Q (g s) ()) :
    Triple P (Op.modify g : Op ε σ Unit) Q E := h

theorem triple_lift {y : Outcome ε α} (hne : y ≠ .panic) (hE : ∀ s, P s → E s)
    (hQ : ∀ s a, P s → y = .ok a → Q s a) : Triple P (Op.lift y) Q E := by
  intro s hs
  rw [Op.lift]
  cases y with
  | ok a => exact hQ s a hs rfl
  | err e => exact hE s hs
  | panic => exact absurd rfl hne

theorem triple_bind (hx : Triple P x Q E) (hf : ∀ a, Triple (fun s => Q s a) (f a) R E) :
    Triple P (x >>= f) R E := by
  intro s hs
  have hrun := hx s hs
  change Sat R E (match x s with
    | (.ok a, s) => f a s
    | (.err e, s) => (.err e, s)
    | (.panic, s) => (.panic, s))
  rcases hxs : x s with ⟨a | e | -, s'⟩
  · rw [hxs] at hrun
    exact hf a s' hrun
  · rw [hxs] at hrun
    exact hrun
  · rw [hxs] at hrun
    exact hrun

/-- The rule for a program that reads the state first. -/
theorem triple_get_bind {g : σ → α} (h : ∀ s, P s → Triple (fun t => t = s) (f (g s)) R E) :
    Triple P (Op.get g >>= f) R E :=
  fun s hs => h s hs s rfl

theorem triple_when {b : Bool} {y : Op ε σ Unit} {Q : σ → Unit → Prop}
    (hy : b = true → Triple P y Q E) (hskip : b = false → ∀ s, P s → Q s ()) :
    Triple P (Op.when b y) Q E := by
  cases b with
  | true => exact hy rfl
  | false => exact hskip rfl

theorem triple_conseq (hx : Triple P x Q E) (hP : ∀ s, P' s → P s)
    (hQ : ∀ s a, Q s a → Q' s a) (hE : ∀ s, E s → E' s) : Triple P' x Q' E' := by
  intro s hs
  have hrun := hx s (hP s hs)
  rcases hxs : x s with ⟨a | e | -, s'⟩
  · rw [hxs] at hrun
    exact hQ s' a hrun
  · rw [hxs] at hrun
    exact hE s' hrun
  · rw [hxs] at hrun
    exact hrun

/-- The value is the one that the program returned. -/
theorem triple_returned (hx : Triple P x Q E) :
    Triple P x (fun s a => Q s a ∧ ∃ s₀, P s₀ ∧ x s₀ = (.ok a, s)) E := by
  intro s hs
  have hrun := hx s hs
  rcases hxs : x s with ⟨a | e | -, s'⟩
  · rw [hxs] at hrun
    exact ⟨hrun, s, hs, hxs⟩
  · rw [hxs] at hrun
    exact hrun
  · rw [hxs] at hrun
    exact hrun

theorem triple_throw {e : ε} (hE : ∀ s, P s → E s) : Triple P (Op.throw e : Op ε σ α) Q E := hE

theorem triple_ite {b : Prop} [Decidable b] {y z : Op ε σ α} (hy : b → Triple P y Q E)
    (hz : ¬b → Triple P z Q E) : Triple P (if b then y else z) Q E := by
  split
  · exact hy ‹_›
  · exact hz ‹_›

/-- The rule for a program whose error is caught. -/
theorem triple_attempt {Q : σ → Except ε α → Prop} (hx : Triple P x (fun s a => Q s (.ok a)) E')
    (herr : ∀ s e, E' s → Q s (.error e)) : Triple P (Op.attempt x) Q E := by
  intro s hs
  have hrun := hx s hs
  rw [Op.attempt]
  rcases hxs : x s with ⟨a | e | -, t⟩
  · rw [hxs] at hrun
    exact hrun
  · rw [hxs] at hrun
    exact herr t e hrun
  · rw [hxs] at hrun
    exact hrun.elim

theorem triple_ofExcept {r : Except ε α} (hok : ∀ s a, P s → r = .ok a → Q s a)
    (herr : ∀ s, P s → E s) : Triple P (Op.ofExcept r) Q E := by
  cases r with
  | ok a => exact fun s hs => hok s a hs rfl
  | error e => exact fun s hs => herr s hs

/-- A loop over a list.  `I l s` says what holds in front of the elements
`l`. -/
theorem triple_forM {I : List α → σ → Prop} {g : α → Op ε σ Unit}
    (hg : ∀ a l, Triple (I (a :: l)) (g a) (fun s _ => I l s) E) (l : List α) :
    Triple (I l) (l.forM g) (fun s _ => I [] s) E := by
  induction l with
  | nil => exact triple_pure fun _ hs => hs
  | cons a l ih => exact triple_bind (hg a l) fun _ => ih

/-- A loop that keeps `I` and makes the measure `μ` smaller. -/
theorem triple_iterate {τ : Type} {step : τ → Op ε σ (τ ⊕ α)} {I : τ → σ → Prop} (μ : τ → Nat)
    (hstep : ∀ c, Triple (I c) (step c) (fun s r => match r with
      | .inl c' => I c' s ∧ μ c' < μ c
      | .inr a => Q s a) E) :
    ∀ (fuel : Nat) (c : τ), μ c < fuel → Triple (I c) (Op.iterate step fuel c) Q E := by
  intro fuel
  induction fuel with
  | zero =>
    intro c hc
    exact absurd hc (Nat.not_lt_zero _)
  | succ fuel ih =>
    intro c hc
    refine triple_bind (hstep c) fun r => ?_
    cases r with
    | inl c' =>
      intro s hs
      have hlt := hs.2
      exact ih c' (by omega) s hs.1
    | inr a => exact triple_pure fun _ hs => hs

/-- A pass over a list that collects values and keeps `P`. -/
theorem triple_mapM {g : α → Op ε σ β} {l : List α}
    (hg : ∀ a ∈ l, Triple P (g a) (fun s _ => P s) E) :
    Triple P (l.mapM g) (fun s _ => P s) E := by
  induction l with
  | nil => exact triple_pure fun _ hs => hs
  | cons a l ih =>
    rw [List.mapM_cons]
    exact triple_bind (hg a List.mem_cons_self) fun _ =>
      triple_bind (ih fun b hb => hg b (List.mem_cons_of_mem _ hb)) fun _ =>
        triple_pure fun _ hs => hs

/-! ## From one state on -/

/-- The program returns from the state `s`, and `Q` holds of what it returns and
leaves. -/
def Yields (x : Op ε σ α) (s : σ) (Q : α → σ → Prop) : Prop :=
  ∃ a t, x s = (.ok a, t) ∧ Q a t

section Yields

variable {s : σ} {Q Q' : α → σ → Prop} {R : β → σ → Prop}

theorem Yields.pure {a : α} (h : Q a s) : Yields (Pure.pure a : Op ε σ α) s Q := ⟨a, s, rfl, h⟩

theorem Yields.lift {y : Outcome ε α} {a : α} (hy : y = .ok a) (h : Q a s) :
    Yields (Op.lift y) s Q := ⟨a, s, by rw [Op.lift, hy], h⟩

theorem Yields.bind (hx : Yields x s Q) (hf : ∀ a t, Q a t → Yields (f a) t R) :
    Yields (x >>= f) s R := by
  obtain ⟨a, t, hxs, hQ⟩ := hx
  obtain ⟨b, u, hfs, hR⟩ := hf a t hQ
  exact ⟨b, u, by rw [bind_ok hxs, hfs], hR⟩

theorem Yields.mono (hx : Yields x s Q) (h : ∀ a t, Q a t → Q' a t) : Yields x s Q' := by
  obtain ⟨a, t, hxs, hQ⟩ := hx
  exact ⟨a, t, hxs, h a t hQ⟩

/-- A loop over the numbers of a range.  `I i s` says what holds in front of `i`. -/
theorem Yields.forM_range' {I : Nat → σ → Prop} {g : Nat → Op ε σ Unit} (n : Nat) :
    ∀ a s, (∀ i s, a ≤ i → i < a + n → I i s → Yields (g i) s fun _ t => I (i + 1) t) → I a s →
      Yields ((List.range' a n).forM g) s fun _ t => I (a + n) t := by
  induction n with
  | zero => exact fun a s _ hs => Yields.pure hs
  | succ n ih =>
    intro a s hg hs
    rw [List.range'_succ, List.forM_eq_forM, List.forM_cons]
    apply (hg a s (by omega) (by omega) hs).bind
    intro _ t ht
    rw [show a + (n + 1) = a + 1 + n by omega]
    exact ih (a + 1) t (fun i s hi hlt => hg i s (by omega) (by omega)) ht

/-- The same loop downwards.  `I i s` says what holds behind `i`. -/
theorem Yields.forM_range'_reverse {I : Nat → σ → Prop} {g : Nat → Op ε σ Unit} (a n : Nat) :
    ∀ s, (∀ i s, a ≤ i → i < a + n → I (i + 1) s → Yields (g i) s fun _ t => I i t) → I (a + n) s →
      Yields ((List.range' a n).reverse.forM g) s fun _ t => I a t := by
  induction n with
  | zero => exact fun s _ hs => Yields.pure hs
  | succ n ih =>
    intro s hg hs
    rw [List.range'_concat, List.reverse_append, List.reverse_singleton, List.singleton_append,
      Nat.one_mul, List.forM_eq_forM, List.forM_cons]
    apply (hg (a + n) s (by omega) (by omega) hs).bind
    intro _ t ht
    exact ih t (fun i s hi hlt => hg i s hi (by omega)) ht

/-- A loop that keeps `I` and makes the measure `μ` smaller. -/
theorem Yields.iterate {τ : Type} {step : τ → Op ε σ (τ ⊕ α)} {I : τ → σ → Prop} (μ : τ → Nat)
    (hstep : ∀ c s, I c s → Yields (step c) s fun r t => match r with
      | .inl c' => I c' t ∧ μ c' < μ c
      | .inr a => Q a t) :
    ∀ (fuel : Nat) (c : τ) (s : σ), μ c < fuel → I c s → Yields (Op.iterate step fuel c) s Q := by
  intro fuel
  induction fuel with
  | zero => exact fun c s hc _ => absurd hc (Nat.not_lt_zero _)
  | succ fuel ih =>
    intro c s hc hs
    apply (hstep c s hs).bind
    intro r t hr
    cases r with
    | inl c' =>
      have hlt := hr.2
      exact ih c' t (by omega) hr.1
    | inr a => exact Yields.pure hr

end Yields

/-! ## Partial correctness -/

/-- What a program returns, if it returns. -/
def Returns (P : σ → Prop) (x : Op ε σ α) (Q : σ → α → Prop) : Prop :=
  ∀ s a t, P s → x s = (.ok a, t) → Q t a

theorem Triple.returns (hx : Triple P x Q E) : Returns P x Q := by
  intro s a t hs ht
  have hrun := hx s hs
  rw [ht] at hrun
  exact hrun

theorem returns_lift {y : Outcome ε α} (hQ : ∀ s a, P s → y = .ok a → Q s a) :
    Returns P (Op.lift y) Q := by
  intro s a t hs ht
  obtain ⟨rfl, rfl⟩ := Prod.mk.inj ht
  exact hQ s a hs rfl

theorem returns_modify {g : σ → σ} {Q : σ → Unit → Prop} (h : ∀ s, P s → Q (g s) ()) :
    Returns P (Op.modify g : Op ε σ Unit) Q := by
  intro s a t hs ht
  obtain ⟨-, rfl⟩ := Prod.mk.inj ht
  exact h s hs

theorem returns_bind (hx : Returns P x Q) (hf : ∀ a, Returns (fun s => Q s a) (f a) R) :
    Returns P (x >>= f) R := by
  intro s b t hs ht
  change (match x s with
    | (.ok a, s) => f a s
    | (.err e, s) => (.err e, s)
    | (.panic, s) => (.panic, s)) = (.ok b, t) at ht
  rcases hxs : x s with ⟨a | e | -, s'⟩
  · rw [hxs] at ht
    exact hf a s' b t (hx s a s' hs hxs) ht
  · rw [hxs] at ht
    cases ht
  · rw [hxs] at ht
    cases ht

theorem returns_forM {I : List α → σ → Prop} {g : α → Op ε σ Unit}
    (hg : ∀ a l, Returns (I (a :: l)) (g a) (fun s _ => I l s)) (l : List α) :
    Returns (I l) (l.forM g) (fun s _ => I [] s) := by
  induction l with
  | nil =>
    intro s a t hs ht
    obtain ⟨-, rfl⟩ := Prod.mk.inj ht
    exact hs
  | cons a l ih => exact returns_bind (hg a l) fun _ => ih

/-! ## Programs that may panic -/

/-- However the program ends: with `Q` if it returns, and with `E` if it fails
or panics. -/
def Ends (P : σ → Prop) (x : Op ε σ α) (Q : σ → α → Prop) (E : σ → Prop) : Prop :=
  ∀ s, P s →
    match x s with
    | (.ok a, t) => Q t a
    | (.err _, t) => E t
    | (.panic, t) => E t

theorem Triple.ends (hx : Triple P x Q E) : Ends P x Q E := by
  intro s hs
  have hrun := hx s hs
  rcases hxs : x s with ⟨a | e | -, t⟩
  · rw [hxs] at hrun
    exact hrun
  · rw [hxs] at hrun
    exact hrun
  · rw [hxs] at hrun
    exact hrun.elim

theorem ends_pure {a : α} (h : ∀ s, P s → Q s a) : Ends P (pure a : Op ε σ α) Q E := h

theorem ends_get {g : σ → α} (h : ∀ s, P s → Q s (g s)) : Ends P (Op.get g : Op ε σ α) Q E := h

theorem ends_modify {g : σ → σ} {Q : σ → Unit → Prop} (h : ∀ s, P s → Q (g s) ()) :
    Ends P (Op.modify g : Op ε σ Unit) Q E := h

theorem ends_lift {y : Outcome ε α} (hE : ∀ s, P s → E s)
    (hQ : ∀ s a, P s → y = .ok a → Q s a) : Ends P (Op.lift y) Q E := by
  intro s hs
  rw [Op.lift]
  cases y with
  | ok a => exact hQ s a hs rfl
  | err e => exact hE s hs
  | panic => exact hE s hs

theorem ends_throw {e : ε} (hE : ∀ s, P s → E s) : Ends P (Op.throw e : Op ε σ α) Q E := hE

theorem ends_bind (hx : Ends P x Q E) (hf : ∀ a, Ends (fun s => Q s a) (f a) R E) :
    Ends P (x >>= f) R E := by
  intro s hs
  have hrun := hx s hs
  change match (match x s with
    | (.ok a, s) => f a s
    | (.err e, s) => (.err e, s)
    | (.panic, s) => (.panic, s)) with
    | (.ok a, t) => R t a
    | (.err _, t) => E t
    | (.panic, t) => E t
  rcases hxs : x s with ⟨a | e | -, t⟩
  · rw [hxs] at hrun
    exact hf a t hrun
  · rw [hxs] at hrun
    exact hrun
  · rw [hxs] at hrun
    exact hrun

/-- The rule for a program that reads the state first. -/
theorem ends_get_bind {g : σ → α} (h : ∀ s, P s → Ends (fun t => t = s) (f (g s)) R E) :
    Ends P (Op.get g >>= f) R E :=
  fun s hs => h s hs s rfl

theorem ends_when {b : Bool} {y : Op ε σ Unit} {Q : σ → Unit → Prop}
    (hy : b = true → Ends P y Q E) (hskip : b = false → ∀ s, P s → Q s ()) :
    Ends P (Op.when b y) Q E := by
  cases b with
  | true => exact hy rfl
  | false => exact hskip rfl

theorem ends_ite {b : Prop} [Decidable b] {y z : Op ε σ α} (hy : b → Ends P y Q E)
    (hz : ¬b → Ends P z Q E) : Ends P (if b then y else z) Q E := by
  split
  · exact hy ‹_›
  · exact hz ‹_›

theorem ends_conseq (hx : Ends P x Q E) (hP : ∀ s, P' s → P s)
    (hQ : ∀ s a, Q s a → Q' s a) (hE : ∀ s, E s → E' s) : Ends P' x Q' E' := by
  intro s hs
  have hrun := hx s (hP s hs)
  rcases hxs : x s with ⟨a | e | -, t⟩
  · rw [hxs] at hrun
    exact hQ t a hrun
  · rw [hxs] at hrun
    exact hE t hrun
  · rw [hxs] at hrun
    exact hE t hrun

/-- The rule for a program whose error is caught. -/
theorem ends_attempt {Q : σ → Except ε α → Prop} (hx : Ends P x (fun s a => Q s (.ok a)) E)
    (herr : ∀ s e, E s → Q s (.error e)) : Ends P (Op.attempt x) Q E := by
  intro s hs
  have hrun := hx s hs
  rw [Op.attempt]
  rcases hxs : x s with ⟨a | e | -, t⟩
  · rw [hxs] at hrun
    exact hrun
  · rw [hxs] at hrun
    exact herr t e hrun
  · rw [hxs] at hrun
    exact hrun

/-- A postcondition that does not depend on how the program ends. -/
theorem Ends.state {R : σ → Prop} (hx : Ends P x (fun s _ => R s) R) {s : σ} (hs : P s) :
    R (x s).2 := by
  have hrun := hx s hs
  rcases hxs : x s with ⟨a | e | -, t⟩
  · rw [hxs] at hrun
    exact hrun
  · rw [hxs] at hrun
    exact hrun
  · rw [hxs] at hrun
    exact hrun

/-- The end of a program that is run from one state. -/
theorem ends_of_state {R : σ → Prop} {s : σ} (h : R (x s).2) :
    Ends (fun t => t = s) x (fun t _ => R t) R := by
  rintro t rfl
  rcases hxs : x t with ⟨a | e | -, u⟩
  · rw [hxs] at h
    exact h
  · rw [hxs] at h
    exact h
  · rw [hxs] at h
    exact h

/-! ## Invariants -/

/-- However the program ends, the invariant holds again. -/
def Keeps (I : σ → Prop) (x : Op ε σ α) : Prop := ∀ s, I s → I (x s).2

variable {I : σ → Prop}

theorem Keeps.ends (hx : Keeps I x) : Ends I x (fun s _ => I s) I := by
  intro s hs
  have hrun := hx s hs
  rcases hxs : x s with ⟨a | e | -, t⟩
  · rw [hxs] at hrun
    exact hrun
  · rw [hxs] at hrun
    exact hrun
  · rw [hxs] at hrun
    exact hrun

/-- An invariant, where a failure may end with less. -/
theorem Keeps.ends_weaken (hx : Keeps I x) (hE : ∀ s, I s → E s) :
    Ends I x (fun s _ => I s) E :=
  ends_conseq hx.ends (fun _ h => h) (fun _ _ h => h) hE

theorem Ends.keeps (hx : Ends I x (fun s _ => I s) I) : Keeps I x := fun _ hs => hx.state hs

/-- An invariant in front of a program that ends with less. -/
theorem keeps_ends_bind {R' : σ → Prop} (hx : Keeps I x) (hI : ∀ s, I s → R' s)
    (hf : ∀ a, Ends I (f a) (fun s _ => R' s) R') : Ends I (x >>= f) (fun s _ => R' s) R' :=
  ends_bind (ends_conseq hx.ends (fun _ h => h) (fun _ _ h => h) hI) hf

theorem keeps_pure {a : α} : Keeps I (pure a : Op ε σ α) := fun _ hs => hs

theorem keeps_get {g : σ → α} : Keeps I (Op.get g : Op ε σ α) := fun _ hs => hs

theorem keeps_lift {y : Outcome ε α} : Keeps I (Op.lift y : Op ε σ α) := fun _ hs => hs

theorem keeps_throw {e : ε} : Keeps I (Op.throw e : Op ε σ α) := fun _ hs => hs

theorem keeps_ofExcept {r : Except ε α} : Keeps I (Op.ofExcept r : Op ε σ α) := by
  cases r with
  | ok a => exact keeps_lift
  | error e => exact keeps_throw

theorem keeps_modify {g : σ → σ} (h : ∀ s, I s → I (g s)) :
    Keeps I (Op.modify g : Op ε σ Unit) := h

theorem keeps_bind (hx : Keeps I x) (hf : ∀ a, Keeps I (f a)) : Keeps I (x >>= f) :=
  (ends_bind hx.ends fun a => (hf a).ends).keeps

theorem keeps_get_bind {g : σ → α} (h : ∀ s, I s → I (f (g s) s).2) :
    Keeps I (Op.get g >>= f) := h

theorem keeps_attempt (hx : Keeps I x) : Keeps I (Op.attempt x) :=
  (ends_attempt hx.ends fun _ _ hs => hs).keeps

theorem keeps_when {b : Bool} {y : Op ε σ Unit} (hy : b = true → Keeps I y) :
    Keeps I (Op.when b y) := by
  cases b with
  | true => exact hy rfl
  | false => exact keeps_pure

theorem keeps_ite {b : Prop} [Decidable b] {y z : Op ε σ α} (hy : b → Keeps I y)
    (hz : ¬b → Keeps I z) : Keeps I (if b then y else z) := by
  split
  · exact hy ‹_›
  · exact hz ‹_›

theorem keeps_forM {g : α → Op ε σ Unit} {l : List α} (hg : ∀ a ∈ l, Keeps I (g a)) :
    Keeps I (l.forM g) := by
  induction l with
  | nil => exact keeps_pure
  | cons a l ih =>
    exact keeps_bind (hg a List.mem_cons_self) fun _ =>
      ih fun b hb => hg b (List.mem_cons_of_mem _ hb)

end StateHoare
