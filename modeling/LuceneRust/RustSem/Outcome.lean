import Mathlib.Order.Basic
import Mathlib.Tactic.Common

/-!
# The outcome of a Rust call

A safe Rust function that returns `Result` ends in one of three ways: it
returns a value, it returns an error, or it panics (an index out of range,
an arithmetic overflow, a failed `assert!`).  `Outcome` keeps the three
apart, so that a theorem can say that a function does not panic.

The module also gives the loop that the models are written with.  `iterate`
runs a body that either continues with a new state or leaves the loop with a
result, and it counts its passes down.  Running out of passes is a `panic`,
so a theorem that ends in `ok` or `err` also says that the loop ends.

* `bind_eq_ok` takes a computation apart at a bind.
* `iterate_ok` is the total-correctness rule of the loop: an invariant and a
  measure give a result.
* `Outcome.Refines` compares an outcome with the outcome of an abstract
  program, up to the error that is reported.  `Outcome.Refines.bind` and
  `iterate_refines` carry it through a bind and through a loop.
-/

namespace RustSem

/-- How a Rust call ends. -/
inductive Outcome (ε α : Type) where
  | ok (a : α)
  | err (e : ε)
  | panic
  deriving Repr, DecidableEq

namespace Outcome

variable {ε ε' α β γ δ : Type}

/-- Run `f` on the value of `x`, if there is one. -/
def bind (x : Outcome ε α) (f : α → Outcome ε β) : Outcome ε β :=
  match x with
  | .ok a => f a
  | .err e => .err e
  | .panic => .panic

instance : Monad (Outcome ε) where
  pure := .ok
  bind := Outcome.bind

@[simp] theorem pure_eq (a : α) : (pure a : Outcome ε α) = .ok a := rfl

@[simp] theorem ok_bind (a : α) (f : α → Outcome ε β) :
    (Outcome.ok a >>= f) = f a := rfl

@[simp] theorem err_bind (e : ε) (f : α → Outcome ε β) :
    ((Outcome.err e : Outcome ε α) >>= f) = .err e := rfl

@[simp] theorem panic_bind (f : α → Outcome ε β) :
    ((Outcome.panic : Outcome ε α) >>= f) = .panic := rfl

instance : LawfulMonad (Outcome ε) := LawfulMonad.mk' _
  (fun x => by cases x <;> rfl) (fun _ _ => rfl)
  (fun x _ _ => by cases x <;> rfl)

/-- The bind inversion: a bind that returns went through a value. -/
theorem bind_eq_ok {x : Outcome ε α} {f : α → Outcome ε β} {b : β} :
    (x >>= f) = .ok b ↔ ∃ a, x = .ok a ∧ f a = .ok b := by
  cases x with
  | ok a => simp
  | err e => simp
  | panic => simp

/-- Calls that all return give a value each. -/
theorem mapM_length {f : α → Outcome ε β} {l : List α} :
    ∀ {bs : List β}, l.mapM f = .ok bs → bs.length = l.length := by
  induction l with
  | nil =>
    intro bs h
    cases h
    rfl
  | cons a l ih =>
    intro bs h
    rw [List.mapM_cons] at h
    obtain ⟨b, -, h⟩ := bind_eq_ok.1 h
    obtain ⟨bs', hbs, h⟩ := bind_eq_ok.1 h
    cases h
    rw [List.length_cons, List.length_cons, ih hbs]

/-- Calls that all return. -/
theorem mapM_ok {f : α → Outcome ε β} {g : α → β} {l : List α}
    (h : ∀ a ∈ l, f a = .ok (g a)) : l.mapM f = .ok (l.map g) := by
  induction l with
  | nil => rfl
  | cons a l ih =>
    rw [List.mapM_cons, h a (List.mem_cons_self ..), ok_bind,
      ih fun b hb => h b (List.mem_cons_of_mem a hb)]
    rfl

/-- A value that Rust would unwrap: nothing there is a panic. -/
def expect (x : Option α) : Outcome ε α :=
  match x with
  | some a => .ok a
  | none => .panic

@[simp] theorem expect_some (a : α) :
    (expect (some a) : Outcome ε α) = .ok a := rfl

@[simp] theorem expect_none : (expect none : Outcome ε α) = .panic := rfl

/-- `Option::ok_or`: nothing there is the error `e`. -/
def okOr (x : Option α) (e : ε) : Outcome ε α :=
  match x with
  | some a => .ok a
  | none => .err e

@[simp] theorem okOr_some (a : α) (e : ε) : okOr (some a) e = .ok a := rfl

@[simp] theorem okOr_none (e : ε) : okOr (none : Option α) e = .err e := rfl

/-- Rust's checked index and its checked subtraction: a condition that does
not hold is a panic. -/
def guardOk (p : Prop) [Decidable p] : Outcome ε Unit :=
  if p then .ok () else .panic

theorem guardOk_eq_ok {p : Prop} [Decidable p] {u : Unit}
    (h : (guardOk p : Outcome ε Unit) = .ok u) : p := by
  unfold guardOk at h
  split at h
  · assumption
  · cases h

theorem expect_eq_ok {x : Option α} {a : α}
    (h : (expect x : Outcome ε α) = .ok a) : x = some a := by
  cases x with
  | none => cases h
  | some b =>
    cases h
    rfl

@[simp] theorem guardOk_pos {p : Prop} [Decidable p] (h : p) :
    (guardOk p : Outcome ε Unit) = .ok () := if_pos h

/-- The value of a call that returned. -/
def toOption : Outcome ε α → Option α
  | .ok a => some a
  | _ => none

@[simp] theorem toOption_ok (a : α) : (ok a : Outcome ε α).toOption = some a := rfl

/-- The outcome of a concrete call against the outcome of an abstract one:
both return, with related values, or both report an error.  A panic refines
nothing. -/
def Refines (Q : α → β → Prop) : Outcome ε α → Outcome ε' β → Prop
  | .ok a, .ok b => Q a b
  | .err _, .err _ => True
  | _, _ => False

attribute [local simp] Refines

/-- The rule for a bind.  The continuation may use where the two values
come from. -/
theorem Refines.bind {Q : α → β → Prop} {Q' : γ → δ → Prop}
    {x : Outcome ε α} {y : Outcome ε' β}
    {f : α → Outcome ε γ} {g : β → Outcome ε' δ} (h : Refines Q x y)
    (hf : ∀ a b, x = .ok a → y = .ok b → Q a b → Refines Q' (f a) (g b)) :
    Refines Q' (x >>= f) (y >>= g) := by
  cases x <;> cases y <;> simp_all

/-- The rule for a last step that only the concrete call makes, and that
cannot fail. -/
theorem Refines.bind_left {Q : α → β → Prop} {Q' : γ → β → Prop}
    {x : Outcome ε α} {y : Outcome ε' β} {f : α → Outcome ε γ}
    (h : Refines Q x y)
    (hf : ∀ a b, Q a b → ∃ c, f a = .ok c ∧ Q' c b) :
    Refines Q' (x >>= f) y := by
  cases x with
  | err e => cases y <;> simp_all
  | panic => cases y <;> simp_all
  | ok a =>
    cases y with
    | err e => exact absurd h (by simp)
    | panic => exact absurd h (by simp)
    | ok b =>
      obtain ⟨c, hc, hQ⟩ := hf a b h
      rw [ok_bind, hc]
      exact hQ

theorem Refines.ne_panic {Q : α → β → Prop} {x : Outcome ε α}
    {y : Outcome ε' β} (h : Refines Q x y) : x ≠ .panic := by
  cases x <;> cases y <;> simp_all

/-- Which error the abstract call reports does not matter. -/
theorem Refines.any_err {Q : α → β → Prop} {x : Outcome ε α} {e e' : ε'}
    (h : Refines Q x (.err e : Outcome ε' β)) : Refines Q x (.err e' : Outcome ε' β) := by
  cases x with
  | ok a => exact absurd h (by simp)
  | err e => trivial
  | panic => exact absurd h (by simp)

/-- A refinement reads a value of the abstract call back. -/
theorem Refines.ok_right {Q : α → β → Prop} {x : Outcome ε α} {b : β}
    (h : Refines Q x (.ok b : Outcome ε' β)) : ∃ a, x = .ok a ∧ Q a b := by
  cases x with
  | ok a => exact ⟨a, rfl, h⟩
  | err e => exact absurd h (by simp)
  | panic => exact absurd h (by simp)

/-- A refinement reads a value of the concrete call forward. -/
theorem Refines.ok_left {Q : α → β → Prop} {a : α} {y : Outcome ε' β}
    (h : Refines Q (.ok a : Outcome ε α) y) : ∃ b, y = .ok b ∧ Q a b := by
  cases y with
  | ok b => exact ⟨b, rfl, h⟩
  | err e => exact absurd h (by simp)
  | panic => exact absurd h (by simp)

/-! ## Calls that do not panic -/

/-- The call does not panic, and `P` holds of what it returns. -/
def Safe (P : α → Prop) : Outcome ε α → Prop
  | .ok a => P a
  | .err _ => True
  | .panic => False

theorem Safe.bind {P : α → Prop} {Q : β → Prop} {x : Outcome ε α} {f : α → Outcome ε β}
    (hx : x.Safe P) (hf : ∀ a, P a → (f a).Safe Q) : (x >>= f).Safe Q := by
  cases x with
  | ok a => exact hf a hx
  | err e => trivial
  | panic => exact hx

theorem Safe.mono {P Q : α → Prop} {x : Outcome ε α} (hx : x.Safe P) (h : ∀ a, P a → Q a) :
    x.Safe Q := by
  cases x with
  | ok a => exact h a hx
  | err e => trivial
  | panic => exact hx

/-! ## Calls that may report an error -/

/-- The call does not panic: `P` holds of what it returns, and `E` of the
error that it reports. -/
def Meets (P : α → Prop) (E : ε → Prop) : Outcome ε α → Prop
  | .ok a => P a
  | .err e => E e
  | .panic => False

theorem safe_iff_meets {P : α → Prop} {x : Outcome ε α} :
    x.Safe P ↔ x.Meets P fun _ => True := by
  cases x <;> exact Iff.rfl

end Outcome

export Outcome (ok_bind err_bind panic_bind bind_eq_ok mapM_ok expect_some expect_eq_ok okOr_some guardOk_pos
  guardOk_eq_ok)

/-! ## Loops -/

section Loops

variable {ε ε' σ τ ρ ρ' : Type}

/-- A loop whose body `step` continues with a new state or leaves with a
result.  It makes at most `fuel` passes. -/
def iterate (step : σ → Outcome ε (σ ⊕ ρ)) : Nat → σ → Outcome ε ρ
  | 0, _ => .panic
  | fuel + 1, s =>
    match step s with
    | .ok (.inl s') => iterate step fuel s'
    | .ok (.inr r) => .ok r
    | .err e => .err e
    | .panic => .panic

attribute [local simp] iterate Outcome.Refines

theorem iterate_continue {step : σ → Outcome ε (σ ⊕ ρ)} {fuel : Nat}
    {s s' : σ} (h : step s = .ok (.inl s')) :
    iterate step (fuel + 1) s = iterate step fuel s' := by
  rw [iterate, h]

theorem iterate_leave {step : σ → Outcome ε (σ ⊕ ρ)} {fuel : Nat}
    {s : σ} {r : ρ} (h : step s = .ok (.inr r)) :
    iterate step (fuel + 1) s = .ok r := by
  rw [iterate, h]

theorem iterate_panic {step : σ → Outcome ε (σ ⊕ ρ)} {fuel : Nat}
    {s : σ} (h : step s = .panic) : iterate step (fuel + 1) s = .panic := by
  rw [iterate, h]

/-- Total correctness of a loop that cannot fail.  Every pass from a state
that keeps `Inv` either continues in a state that keeps `Inv` and has a
smaller measure, or leaves with a result that satisfies `Post`. -/
theorem iterate_ok (step : σ → Outcome ε (σ ⊕ ρ)) (Inv : σ → Prop)
    (μ : σ → Nat) (Post : ρ → Prop)
    (hstep : ∀ s, Inv s → (∃ s', step s = .ok (.inl s') ∧ Inv s' ∧ μ s' < μ s) ∨ ∃ r, step s = .ok (.inr r) ∧ Post r) :
    ∀ (fuel : Nat) (s : σ), Inv s → μ s < fuel →
      ∃ r, iterate step fuel s = .ok r ∧ Post r := by
  intro fuel
  induction fuel with
  | zero =>
    intro s _ hμ
    exact absurd hμ (Nat.not_lt_zero _)
  | succ fuel ih =>
    intro s hInv hμ
    rcases hstep s hInv with ⟨s', hs, hInv', hlt⟩ | ⟨r, hs, hr⟩
    · rw [iterate_continue hs]
      exact ih s' hInv' (by omega)
    · exact ⟨r, iterate_leave hs, hr⟩

/-- A loop whose states are known one by one. -/
theorem iterate_walk {step : σ → Outcome ε (σ ⊕ ρ)} {r : ρ} (f : Nat → σ) {d : Nat}
    (hcont : ∀ e < d, step (f e) = .ok (.inl (f (e + 1))))
    (hstop : step (f d) = .ok (.inr r)) :
    ∀ fuel, d < fuel → iterate step fuel (f 0) = .ok r := by
  induction d generalizing f with
  | zero =>
    intro fuel hlt
    obtain ⟨k, rfl⟩ : ∃ k, fuel = k + 1 := ⟨fuel - 1, by omega⟩
    exact iterate_leave hstop
  | succ d ih =>
    intro fuel hlt
    obtain ⟨k, rfl⟩ : ∃ k, fuel = k + 1 := ⟨fuel - 1, by omega⟩
    rw [iterate_continue (hcont 0 (by omega))]
    exact ih (fun e => f (e + 1)) (fun e he => hcont (e + 1) (by omega)) hstop k (by omega)

/-- Partial correctness of a loop: what every pass that returns preserves
holds of a result. -/
theorem iterate_inv {step : σ → Outcome ε (σ ⊕ ρ)} (Inv : σ → Prop)
    (Post : ρ → Prop)
    (hstep : ∀ s x, Inv s → step s = .ok x → Sum.elim Inv Post x) :
    ∀ (fuel : Nat) (s : σ), Inv s → ∀ r, iterate step fuel s = .ok r →
      Post r := by
  intro fuel
  induction fuel with
  | zero =>
    intro s _ r hr
    cases hr
  | succ fuel ih =>
    intro s hs r hr
    rw [iterate] at hr
    cases hx : step s with
    | err e => simp [hx] at hr
    | panic => simp [hx] at hr
    | ok x =>
      have hinv := hstep s x hs hx
      cases x with
      | inl s' =>
        simp only [hx] at hr
        exact ih s' hinv r hr
      | inr r' =>
        simp only [hx, Outcome.ok.injEq] at hr
        exact hr ▸ hinv

/-- A loop over a list that cannot fail. -/
theorem foldlM_ok {α : Type} {f : σ → α → Outcome ε σ} (Inv : σ → Prop)
    (l : List α)
    (hf : ∀ s a, Inv s → a ∈ l → ∃ s', f s a = .ok s' ∧ Inv s') :
    ∀ s, Inv s → ∃ s', l.foldlM f s = .ok s' ∧ Inv s' := by
  induction l with
  | nil =>
    intro s hs
    exact ⟨s, rfl, hs⟩
  | cons a l ih =>
    intro s hs
    obtain ⟨s', hs', hinv⟩ := hf s a hs (List.mem_cons_self ..)
    obtain ⟨s'', hs'', hinv'⟩ := ih
      (fun s b hb hmem => hf s b hb (List.mem_cons_of_mem a hmem)) s' hinv
    refine ⟨s'', ?_, hinv'⟩
    rw [List.foldlM_cons, hs', ok_bind, hs'']

/-- A loop over a list that cannot fail, with an invariant that speaks of the
elements that were visited. -/
theorem foldlM_visited {α : Type} {f : σ → α → Outcome ε σ}
    (Inv : List α → σ → Prop) (l : List α)
    (hf : ∀ seen a s, (∃ rest, l = seen ++ a :: rest) → Inv seen s →
      ∃ s', f s a = .ok s' ∧ Inv (seen ++ [a]) s') :
    ∀ s, Inv [] s → ∃ s', l.foldlM f s = .ok s' ∧ Inv l s' := by
  have hrun : ∀ (rest seen : List α) (s : σ), l = seen ++ rest → Inv seen s →
      ∃ s', rest.foldlM f s = .ok s' ∧ Inv l s' := by
    intro rest
    induction rest with
    | nil =>
      intro seen s hl hs
      refine ⟨s, rfl, ?_⟩
      rwa [hl, List.append_nil]
    | cons a rest ih =>
      intro seen s hl hs
      obtain ⟨s', hs', hinv⟩ := hf seen a s ⟨rest, hl⟩ hs
      obtain ⟨s'', hs'', hinv'⟩ := ih (seen ++ [a]) s' (by simp [hl]) hinv
      refine ⟨s'', ?_, hinv'⟩
      rw [List.foldlM_cons, hs', ok_bind, hs'']
  intro s hs
  exact hrun l [] s rfl hs

/-- A loop that may report an error: every pass from a state that keeps `Inv`
reports an error that satisfies `E`, or continues in a state that keeps `Inv`
and has a smaller measure, or leaves with a result that satisfies `Post`. -/
theorem iterate_meets {step : σ → Outcome ε (σ ⊕ ρ)} (Inv : σ → Prop) (μ : σ → Nat)
    (Post : ρ → Prop) (E : ε → Prop)
    (hstep : ∀ s, Inv s → (step s).Meets (Sum.elim (fun s' => Inv s' ∧ μ s' < μ s) Post) E) :
    ∀ (fuel : Nat) (s : σ), Inv s → μ s < fuel → (iterate step fuel s).Meets Post E := by
  intro fuel
  induction fuel with
  | zero =>
    intro s _ hμ
    exact absurd hμ (Nat.not_lt_zero _)
  | succ fuel ih =>
    intro s hs hμ
    have hpass := hstep s hs
    rw [iterate]
    cases hx : step s with
    | err e =>
      rw [hx] at hpass
      exact hpass
    | panic =>
      rw [hx] at hpass
      exact hpass
    | ok x =>
      rw [hx] at hpass
      cases x with
      | inl s' => exact ih s' hpass.1 (by have := hpass.2; omega)
      | inr r => exact hpass

/-- A loop that does not panic: every pass from a state that keeps `Inv` fails,
or continues in a state that keeps `Inv` and has a smaller measure, or leaves
with a result that satisfies `Post`. -/
theorem iterate_safe {step : σ → Outcome ε (σ ⊕ ρ)} (Inv : σ → Prop) (μ : σ → Nat)
    (Post : ρ → Prop)
    (hstep : ∀ s, Inv s → (step s).Safe (Sum.elim (fun s' => Inv s' ∧ μ s' < μ s) Post)) :
    ∀ (fuel : Nat) (s : σ), Inv s → μ s < fuel → (iterate step fuel s).Safe Post := by
  simp only [Outcome.safe_iff_meets] at hstep ⊢
  exact iterate_meets Inv μ Post (fun _ => True) hstep

/-- Partial correctness of a loop over a list. -/
theorem foldlM_inv {α : Type} {f : σ → α → Outcome ε σ} (Inv : σ → Prop)
    (hf : ∀ s a s', Inv s → f s a = .ok s' → Inv s') (l : List α) :
    ∀ s s', Inv s → l.foldlM f s = .ok s' → Inv s' := by
  induction l with
  | nil =>
    intro s s' hs h
    cases h
    exact hs
  | cons a l ih =>
    intro s s' hs h
    rw [List.foldlM_cons] at h
    obtain ⟨t, ht, h⟩ := Outcome.bind_eq_ok.1 h
    exact ih t s' (hf s a t hs ht) h

/-- One pass of a concrete loop against one pass of an abstract one: both
continue, with related states and a smaller measure, or both leave. -/
def PassRel (R : σ → τ → Prop) (Q : ρ → ρ' → Prop) (μ : σ → Nat) (n : Nat) :
    σ ⊕ ρ → τ ⊕ ρ' → Prop
  | .inl s, .inl t => R s t ∧ μ s < n
  | .inr r, .inr r' => Q r r'
  | _, _ => False

/-- The simulation rule of a loop.  The two loops may be given different
fuel, as long as each has more than the measure. -/
theorem iterate_refines {step : σ → Outcome ε (σ ⊕ ρ)}
    {step' : τ → Outcome ε' (τ ⊕ ρ')} (R : σ → τ → Prop)
    (Q : ρ → ρ' → Prop) (μ : σ → Nat)
    (hstep : ∀ s t, R s t →
      Outcome.Refines (PassRel R Q μ (μ s)) (step s) (step' t)) :
    ∀ (fuel fuel' : Nat) (s : σ) (t : τ), R s t → μ s < fuel →
      μ s < fuel' →
      Outcome.Refines Q (iterate step fuel s) (iterate step' fuel' t) := by
  intro fuel
  induction fuel with
  | zero =>
    intro _ s _ _ hμ
    exact absurd hμ (Nat.not_lt_zero _)
  | succ fuel ih =>
    intro fuel' s t hR hμ hμ'
    obtain ⟨k, rfl⟩ : ∃ k, fuel' = k + 1 := ⟨fuel' - 1, by omega⟩
    have hpass := hstep s t hR
    rw [iterate, iterate]
    cases hs : step s with
    | panic => simp [hs, Outcome.Refines] at hpass
    | err e =>
      cases ht : step' t with
      | err e' => trivial
      | ok b => simp [hs, ht, Outcome.Refines] at hpass
      | panic => simp [hs, ht, Outcome.Refines] at hpass
    | ok a =>
      cases ht : step' t with
      | err e' => simp [hs, ht, Outcome.Refines] at hpass
      | panic => simp [hs, ht, Outcome.Refines] at hpass
      | ok b =>
        rw [hs, ht] at hpass
        cases a with
        | inl s' =>
          cases b with
          | inl t' =>
            obtain ⟨hR', hlt⟩ := hpass
            exact ih k s' t' hR' (by omega) (by omega)
          | inr r' => exact absurd hpass (by simp [Outcome.Refines, PassRel])
        | inr r =>
          cases b with
          | inl t' => exact absurd hpass (by simp [Outcome.Refines, PassRel])
          | inr r' => exact hpass

end Loops

end RustSem
