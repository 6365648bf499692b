import Mathlib.Data.List.Sort
import Mathlib.Tactic.Common

/-!
# A `BTreeSet`

The elements of a set in increasing order.  The order of the elements is the
order in which Rust iterates over the set.

* `mem_insert` and `mem_remove` say what the two updates keep.
-/

namespace RustSem

/-- A `BTreeSet`: its elements, each one once, in increasing order. -/
structure BTreeSet (α : Type) [LinearOrder α] where
  elems : List α
  sorted : elems.Pairwise (· < ·)

namespace BTreeSet

variable {α : Type} [LinearOrder α] {t : BTreeSet α} {a b : α}

instance : DecidableEq (BTreeSet α) := fun s t =>
  decidable_of_iff (s.elems = t.elems)
    ⟨fun h => by cases s; cases t; cases h; rfl, fun h => h ▸ rfl⟩

instance : Membership α (BTreeSet α) := ⟨fun t a => a ∈ t.elems⟩

theorem mem_def : a ∈ t ↔ a ∈ t.elems := Iff.rfl

instance : Decidable (a ∈ t) := inferInstanceAs (Decidable (a ∈ t.elems))

/-- `BTreeSet::new`. -/
def empty : BTreeSet α := ⟨[], List.Pairwise.nil⟩

@[simp] theorem not_mem_empty : a ∉ (empty : BTreeSet α) := List.not_mem_nil

theorem nodup (t : BTreeSet α) : t.elems.Nodup := t.sorted.imp ne_of_lt

theorem sorted_orderedInsert {l : List α} (h : l.Pairwise (· < ·)) (ha : a ∉ l) :
    (l.orderedInsert (· ≤ ·) a).Pairwise (· < ·) := by
  have hle : (l.orderedInsert (· ≤ ·) a).Pairwise (· ≤ ·) :=
    (h.imp le_of_lt).orderedInsert a l
  have hnd : (l.orderedInsert (· ≤ ·) a).Nodup :=
    (List.perm_orderedInsert _ a l).nodup_iff.mpr (List.nodup_cons.mpr ⟨ha, h.imp ne_of_lt⟩)
  exact (hle.and hnd).imp fun hab => lt_of_le_of_ne hab.1 hab.2

/-- `BTreeSet::insert`. -/
def insert (t : BTreeSet α) (a : α) : BTreeSet α :=
  if h : a ∈ t then t
  else ⟨t.elems.orderedInsert (· ≤ ·) a, sorted_orderedInsert t.sorted h⟩

/-- `BTreeSet::remove`. -/
def remove (t : BTreeSet α) (a : α) : BTreeSet α :=
  ⟨t.elems.erase a, t.sorted.sublist List.erase_sublist⟩

@[simp] theorem mem_insert : b ∈ t.insert a ↔ b = a ∨ b ∈ t := by
  rw [insert]
  split
  case isTrue h =>
    constructor
    · exact Or.inr
    · rintro (rfl | hb)
      · exact h
      · exact hb
  case isFalse h => exact List.mem_orderedInsert _

@[simp] theorem mem_remove : b ∈ t.remove a ↔ b ≠ a ∧ b ∈ t :=
  t.nodup.mem_erase_iff

end BTreeSet

end RustSem
