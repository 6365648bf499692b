import Mathlib.Tactic.Common

/-!
# Programs that may crash

A program over a state either returns, or dies on its way and leaves a state
behind.  A triple has a postcondition for each of the two: `C` holds of every
state that a crash can leave, and `Q` of the state and the value at the end.

* `triple_bind` is the rule for two programs in sequence, and
  `triple_conseq` weakens a triple.
-/

namespace CrashHoare

/-- How a program ends. -/
inductive Ran (σ α : Type) where
  | crashed (s : σ)
  | returned (s : σ) (a : α)

/-- A program over the state `σ`. -/
def Prog (σ α : Type) := σ → Ran σ α

variable {σ α β : Type}

instance : Monad (Prog σ) where
  pure a := fun s => .returned s a
  bind x f := fun s =>
    match x s with
    | .crashed s => .crashed s
    | .returned s a => f a s

/-- The postconditions of a program that has ended. -/
def Ran.Sat (C : σ → Prop) (Q : σ → α → Prop) : Ran σ α → Prop
  | .crashed s => C s
  | .returned s a => Q s a

/-- A program from a state with `P`: a crash leaves `C`, and the end is `Q`. -/
def Triple (P : σ → Prop) (x : Prog σ α) (C : σ → Prop) (Q : σ → α → Prop) : Prop :=
  ∀ s, P s → (x s).Sat C Q

variable {P P' : σ → Prop} {C C' : σ → Prop} {Q Q' : σ → α → Prop} {R : σ → β → Prop}
  {x : Prog σ α} {f : α → Prog σ β}

theorem bind_returned {s t : σ} {a : α} (h : x s = .returned t a) : (x >>= f) s = f a t := by
  change (match x s with
    | .crashed s => .crashed s
    | .returned s a => f a s) = f a t
  rw [h]

theorem triple_pure {a : α} (h : ∀ s, P s → Q s a) : Triple P (pure a) C Q := h

theorem triple_bind (hx : Triple P x C Q) (hf : ∀ a, Triple (fun s => Q s a) (f a) C R) :
    Triple P (x >>= f) C R := by
  intro s hs
  have hrun := hx s hs
  change Ran.Sat C R (match x s with
    | .crashed s => .crashed s
    | .returned s a => f a s)
  cases hxs : x s with
  | crashed s' =>
    rw [hxs] at hrun
    exact hrun
  | returned s' a =>
    rw [hxs] at hrun
    exact hf a s' hrun

theorem triple_conseq (hx : Triple P x C Q) (hP : ∀ s, P' s → P s) (hC : ∀ s, C s → C' s)
    (hQ : ∀ s a, Q s a → Q' s a) : Triple P' x C' Q' := by
  intro s hs
  have hrun := hx s (hP s hs)
  cases hxs : x s with
  | crashed s' =>
    rw [hxs] at hrun
    exact hC s' hrun
  | returned s' a =>
    rw [hxs] at hrun
    exact hQ s' a hrun

end CrashHoare
