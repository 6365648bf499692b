import Mathlib.Algebra.BigOperators.Group.List.Basic
import Mathlib.Tactic.Common

/-!
# Edits of records

A record is live or not, and it has values.  An edit ends its life, or sets
some of its values, or both; edits are composed one after the other, and the
later one has the last word (`Edit`).  `Cell.Same` compares records up to the
values of the dead ones.
-/

namespace EditLog

/-- What one or more operations do to a record. -/
@[ext]
structure Edit (φ ν : Type) where
  killed : Bool
  set : φ → Option ν

namespace Edit

variable {φ ν : Type}

instance : One (Edit φ ν) := ⟨⟨false, fun _ => none⟩⟩

instance : Mul (Edit φ ν) := ⟨fun a b => ⟨a.killed || b.killed, fun f => (b.set f).or (a.set f)⟩⟩

@[simp] theorem killed_one : (1 : Edit φ ν).killed = false := rfl

@[simp] theorem set_one (f : φ) : (1 : Edit φ ν).set f = none := rfl

@[simp] theorem killed_mul (a b : Edit φ ν) : (a * b).killed = (a.killed || b.killed) := rfl

@[simp] theorem set_mul (a b : Edit φ ν) (f : φ) : (a * b).set f = (b.set f).or (a.set f) := rfl

end Edit

/-! ## Records -/

/-- The part of a record that edits change. -/
@[ext]
structure Cell (φ ν : Type) where
  live : Bool
  values : φ → ν

namespace Cell

variable {φ ν : Type} {c d : Cell φ ν}

/-- The record after the edit. -/
def apply (c : Cell φ ν) (e : Edit φ ν) : Cell φ ν :=
  ⟨c.live && !e.killed, fun f => (e.set f).getD (c.values f)⟩

@[simp] theorem live_apply (c : Cell φ ν) (e : Edit φ ν) :
    (c.apply e).live = (c.live && !e.killed) := rfl

@[simp] theorem values_apply (c : Cell φ ν) (e : Edit φ ν) (f : φ) :
    (c.apply e).values f = (e.set f).getD (c.values f) := rfl

@[simp] theorem apply_one (c : Cell φ ν) : c.apply 1 = c := by
  ext f <;> simp

/-- The same record, but for the values if it is dead. -/
structure Same (c d : Cell φ ν) : Prop where
  live : c.live = d.live
  values : c.live = true → c.values = d.values

theorem Same.refl (c : Cell φ ν) : Same c c := ⟨rfl, fun _ => rfl⟩

end Cell

end EditLog
