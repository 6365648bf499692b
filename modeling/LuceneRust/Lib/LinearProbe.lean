import Mathlib.Data.Fintype.EquivFin
import Mathlib.Tactic.Common

/-!
# Open addressing with linear probing

A table of `n` slots that holds the ids below `count`.  An id is looked for
from its home on, slot after slot, around the end of the table.

* `Table` is the invariant: an id stands in one slot, and no slot between its
  home and that slot is free.
* `Table.exists_stop` says that a walk ends, `Table.stop_found` and
  `Table.stop_missing` say where.
* `Table.insert` puts the next id into the slot where its walk ended.
-/

namespace LinearProbe

/-- The slots of a table of size `n` hold the ids below `count`. -/
structure Table (n : Nat) (slot : Nat → Option Nat) (home : Nat → Nat) (count : Nat) :
    Prop where
  id_lt : ∀ p < n, ∀ i, slot p = some i → i < count
  unique : ∀ p < n, ∀ q < n, ∀ i, slot p = some i → slot q = some i → p = q
  placed : ∀ i < count, ∃ d < n, slot ((home i + d) % n) = some i ∧
    ∀ e < d, slot ((home i + e) % n) ≠ none

/-- A walk from `start` that looks for the ids of `M` ends after `d` steps. -/
structure Stop (n : Nat) (slot : Nat → Option Nat) (M : Nat → Prop) (start d : Nat) :
    Prop where
  lt : d < n
  here : ∀ i, slot ((start + d) % n) = some i → M i
  before : ∀ e < d, ∃ i, slot ((start + e) % n) = some i ∧ ¬ M i

namespace Table

variable {n count : Nat} {slot : Nat → Option Nat} {home home' : Nat → Nat}

theorem empty (n : Nat) (home : Nat → Nat) : Table n (fun _ => none) home 0 :=
  ⟨fun _ _ _ h => absurd h (by simp), fun _ _ _ _ _ h => absurd h (by simp),
    fun i hi => absurd hi (Nat.not_lt_zero i)⟩

theorem congr_home (h : Table n slot home count)
    (hhome : ∀ i < count, home' i = home i) : Table n slot home' count := by
  refine ⟨h.id_lt, h.unique, fun i hi => ?_⟩
  rw [hhome i hi]
  exact h.placed i hi

/-- A table with fewer ids than slots has a free slot. -/
theorem exists_free (h : Table n slot home count) (hlt : count < n) :
    ∃ p < n, slot p = none := by
  by_contra hfull
  push Not at hfull
  have hid : ∀ p : Fin n, ∃ i : Fin count, slot p = some i.1 := by
    intro p
    obtain ⟨i, hi⟩ := Option.ne_none_iff_exists'.1 (hfull p p.2)
    exact ⟨⟨i, h.id_lt p p.2 i hi⟩, hi⟩
  choose f hf using hid
  have hinj : Function.Injective f := by
    intro p q hpq
    have hq := hf q
    rw [← hpq] at hq
    exact Fin.ext (h.unique p p.2 q q.2 _ (hf p) hq)
  have hcard := Fintype.card_le_of_injective f hinj
  rw [Fintype.card_fin, Fintype.card_fin] at hcard
  omega

/-- The slot `p`, as a number of steps from `start`. -/
theorem exists_steps {n p : Nat} (hp : p < n) (start : Nat) :
    ∃ d < n, (start + d) % n = p := by
  have hlt : start % n < n := Nat.mod_lt _ (by omega)
  refine ⟨(p + (n - start % n)) % n, Nat.mod_lt _ (by omega), ?_⟩
  rw [Nat.add_mod_mod, ← Nat.mod_add_mod,
    show start % n + (p + (n - start % n)) = p + n by omega, Nat.add_mod_right,
    Nat.mod_eq_of_lt hp]

/-- A walk ends. -/
theorem exists_stop (h : Table n slot home count) (hlt : count < n) (M : Nat → Prop)
    (start : Nat) : ∃ d, Stop n slot M start d := by
  classical
  obtain ⟨p, hp, hfree⟩ := h.exists_free hlt
  obtain ⟨d, hd, hpos⟩ := exists_steps hp start
  have hex : ∃ d, ∀ i, slot ((start + d) % n) = some i → M i :=
    ⟨d, fun i hi => by rw [hpos, hfree] at hi; cases hi⟩
  refine ⟨Nat.find hex, ?_, Nat.find_spec hex, fun e he => ?_⟩
  · refine Nat.lt_of_le_of_lt (Nat.find_min' hex fun i hi => ?_) hd
    rw [hpos, hfree] at hi
    cases hi
  · have := Nat.find_min hex he
    push Not at this
    exact this

/-- The walk to an id in the table ends at its slot. -/
theorem stop_found (h : Table n slot home count) {M : Nat → Prop} {start d k : Nat}
    (hstop : Stop n slot M start d) (hk : k < count) (hM : ∀ i < count, M i ↔ i = k)
    (hhome : home k % n = start % n) : slot ((start + d) % n) = some k := by
  have hpos : 0 < n := by have := hstop.lt; omega
  have hstep : ∀ e, (home k + e) % n = (start + e) % n := by
    intro e
    rw [← Nat.mod_add_mod, hhome, Nat.mod_add_mod]
  obtain ⟨d', hd', hslot, hbefore⟩ := h.placed k hk
  rw [hstep] at hslot
  rcases Nat.lt_trichotomy d d' with hlt | heq | hgt
  · have hne := hbefore d hlt
    rw [hstep] at hne
    obtain ⟨i, hi⟩ := Option.ne_none_iff_exists'.1 hne
    have hik := (hM i (h.id_lt _ (Nat.mod_lt _ hpos) i hi)).1 (hstop.here i hi)
    rw [hi, hik]
  · rw [heq, hslot]
  · obtain ⟨i, hi, hMi⟩ := hstop.before d' hgt
    rw [hslot] at hi
    cases hi
    exact absurd ((hM k hk).2 rfl) hMi

/-- The walk to an id that is not in the table ends at a free slot. -/
theorem stop_missing (h : Table n slot home count) {M : Nat → Prop} {start d : Nat}
    (hstop : Stop n slot M start d) (hM : ∀ i < count, ¬ M i) :
    slot ((start + d) % n) = none := by
  have hpos : 0 < n := by have := hstop.lt; omega
  by_contra hne
  obtain ⟨i, hi⟩ := Option.ne_none_iff_exists'.1 hne
  exact hM i (h.id_lt _ (Nat.mod_lt _ hpos) i hi) (hstop.here i hi)

/-- The next id goes into the slot where its walk ended. -/
theorem insert (h : Table n slot home count) {d : Nat} {slot' : Nat → Option Nat}
    (hd : d < n) (hfree : slot ((home count + d) % n) = none)
    (hbefore : ∀ e < d, slot ((home count + e) % n) ≠ none)
    (hslot : ∀ p < n, slot' p =
      if p = (home count + d) % n then some count else slot p) :
    Table n slot' home (count + 1) := by
  have hpos : 0 < n := by omega
  have hmod : ∀ x, x % n < n := fun x => Nat.mod_lt x hpos
  -- an occupied slot stays as it is
  have hkeep : ∀ x, slot (x % n) ≠ none → slot' (x % n) = slot (x % n) := by
    intro x hx
    rw [hslot _ (hmod x), if_neg]
    intro heq
    exact hx (heq ▸ hfree)
  refine ⟨fun p hp i hi => ?_, fun p hp q hq i hpi hqi => ?_, fun i hi => ?_⟩
  · rw [hslot p hp] at hi
    split at hi
    · cases hi
      exact Nat.lt_succ_self count
    · exact Nat.lt_succ_of_lt (h.id_lt p hp i hi)
  · rw [hslot p hp] at hpi
    rw [hslot q hq] at hqi
    split at hpi <;> split at hqi
    · rename_i hp' hq'
      rw [hp', hq']
    · cases hpi
      exact absurd (h.id_lt q hq _ hqi) (Nat.lt_irrefl _)
    · cases hqi
      exact absurd (h.id_lt p hp _ hpi) (Nat.lt_irrefl _)
    · exact h.unique p hp q hq i hpi hqi
  · by_cases hic : i = count
    · subst hic
      refine ⟨d, hd, ?_, fun e he => ?_⟩
      · rw [hslot _ (hmod _), if_pos rfl]
      · rw [hkeep _ (hbefore e he)]
        exact hbefore e he
    · obtain ⟨d', hd', hi', hbefore'⟩ := h.placed i (by omega)
      refine ⟨d', hd', ?_, fun e he => ?_⟩
      · rw [hkeep _ (by rw [hi']; simp), hi']
      · rw [hkeep _ (hbefore' e he)]
        exact hbefore' e he

end Table

end LinearProbe
