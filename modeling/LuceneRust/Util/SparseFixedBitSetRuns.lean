import LuceneRust.Util.SparseFixedBitSetQueries
import Mathlib.Data.Finset.Max

/-!
# Runs of `SparseFixedBitSet` operations

`Reaches s A` says that some run of calls with arguments in range builds the
set `s`, and that the same run on finite sets of naturals builds `A`.
`Reaches.holds` is the invariant of the runs, and `reaches_refines` collects
what it gives: the structure of the blocks and the answers of the queries.
-/

namespace LuceneRust.Util

open RustSem WordTape Compressed
open Packed (Call divCeil)

/-! ## Answers -/

/-- The smallest element of a set. -/
def least (B : Finset ℕ) : Option ℕ := if h : B.Nonempty then some (B.min' h) else none

/-- The largest element of a set. -/
def greatest (B : Finset ℕ) : Option ℕ := if h : B.Nonempty then some (B.max' h) else none

theorem least_eq {P : Nat → Bool} {i : Nat} {r : Option Nat} (h : FirstAt P i r)
    {B : Finset ℕ} (hB : ∀ p, p ∈ B ↔ i ≤ p ∧ P p = true) : r = least B := by
  rw [least]
  cases r with
  | none =>
    rw [dif_neg]
    rintro ⟨p, hp⟩
    obtain ⟨hip, hP⟩ := (hB p).1 hp
    rw [h p hip] at hP
    exact absurd hP (by simp)
  | some r =>
    obtain ⟨hir, hr, hb⟩ := h
    have hmem : r ∈ B := (hB r).2 ⟨hir, hr⟩
    have hle : ∀ p ∈ B, r ≤ p := by
      intro p hp
      obtain ⟨hip, hP⟩ := (hB p).1 hp
      by_contra hlt
      rw [hb p hip (by omega)] at hP
      exact absurd hP (by simp)
    have hne : B.Nonempty := ⟨r, hmem⟩
    rw [dif_pos hne]
    congr 1
    exact le_antisymm (hle _ (B.min'_mem hne)) (B.min'_le r hmem)

theorem greatest_eq {P : Nat → Bool} {n : Nat} {r : Option Nat} (h : LastBelow P n r)
    {B : Finset ℕ} (hB : ∀ p, p ∈ B ↔ p < n ∧ P p = true) : r = greatest B := by
  rw [greatest]
  cases r with
  | none =>
    rw [dif_neg]
    rintro ⟨p, hp⟩
    obtain ⟨hpn, hP⟩ := (hB p).1 hp
    rw [h p hpn] at hP
    exact absurd hP (by simp)
  | some r =>
    obtain ⟨hrn, hr, hb⟩ := h
    have hmem : r ∈ B := (hB r).2 ⟨hrn, hr⟩
    have hle : ∀ p ∈ B, p ≤ r := by
      intro p hp
      obtain ⟨hpn, hP⟩ := (hB p).1 hp
      by_contra hlt
      rw [hb p (by omega) hpn] at hP
      exact absurd hP (by simp)
    have hne : B.Nonempty := ⟨r, hmem⟩
    rw [dif_pos hne]
    congr 1
    exact le_antisymm (B.le_max' r hmem) (hle _ (B.max'_mem hne))

namespace SparseFixedBitSet

variable {s t other : SparseFixedBitSet} {A B : Finset ℕ}

/-! ## Calls -/

/-- A mutating call. -/
inductive Op where
  | set (i : Nat)
  | getAndSet (i : Nat)
  | clear (i : Nat)
  | setRange (lo hi : Nat)
  | clearRange (lo hi : Nat)
  | orIter (docs : List Nat)
  | clearAll

/-- The set that a call leaves in the place of `s`. -/
def Op.run (s : SparseFixedBitSet) : Op → Call SparseFixedBitSet
  | .set i => s.set i
  | .getAndSet i => do
    let (t, _) ← s.getAndSet i
    .ok t
  | .clear i => s.clear i
  | .setRange lo hi => s.setRange lo hi
  | .clearRange lo hi => s.clearRange lo hi
  | .orIter docs => s.orIter docs
  | .clearAll => .ok s.clearAll

/-- The same call on a finite set. -/
def Op.plain (A : Finset ℕ) : Op → Finset ℕ
  | .set i | .getAndSet i => A ∪ {i}
  | .clear i => A.erase i
  | .setRange lo hi => A ∪ Finset.Ico lo hi
  | .clearRange lo hi => A \ Finset.Ico lo hi
  | .orIter docs => A ∪ docs.toFinset
  | .clearAll => ∅

/-- The calls that are in range for a set of `length` bits. -/
def Op.InRange (length : Nat) : Op → Prop
  | .set i | .getAndSet i | .clear i => i < length
  | .setRange lo hi | .clearRange lo hi => lo < hi → hi ≤ length
  | .orIter docs => ∀ d ∈ docs, d < length
  | .clearAll => True

/-- Some run of calls in range builds the set `s`, and the same run on finite
sets builds `A`. -/
inductive Reaches : SparseFixedBitSet → Finset ℕ → Prop where
  | new {s : SparseFixedBitSet} {n : Nat} (h : SparseFixedBitSet.new n = .ok s) :
      Reaches s ∅
  | op {s t : SparseFixedBitSet} {A : Finset ℕ} (h : Reaches s A) (op : Op)
      (hin : op.InRange s.length) (hrun : op.run s = .ok t) : Reaches t (op.plain A)
  | or {s t other : SparseFixedBitSet} {A B : Finset ℕ} (h : Reaches s A)
      (ho : Reaches other B) (hlen : other.length ≤ s.length)
      (hrun : s.or other = .ok t) : Reaches t (A ∪ B)

/-- The set holds the elements of `A`. -/
def HoldsSet (s : SparseFixedBitSet) (A : Finset ℕ) : Prop :=
  s.Holds fun p => decide (p ∈ A)

/-- One call keeps the invariant, and a call in range returns. -/
theorem Op.run_yields (h : s.HoldsSet A) {op : Op} (hin : op.InRange s.length) :
    Yields s (op.run s) fun p => decide (p ∈ op.plain A) := by
  cases op with
  | set i =>
    refine (set_yields h hin).congr fun p => ?_
    rw [plain, ← Bool.decide_or, decide_eq_decide, Finset.mem_union, Finset.mem_singleton]
  | getAndSet i =>
    refine (set_yields h hin).congr fun p => ?_
    rw [plain, ← Bool.decide_or, decide_eq_decide, Finset.mem_union, Finset.mem_singleton]
  | clear i =>
    refine (clear_yields h hin).congr fun p => ?_
    rw [plain, ← decide_not, ← Bool.decide_and, decide_eq_decide, Finset.mem_erase,
      and_comm]
  | setRange lo hi =>
    refine (setRange_yields h hin).congr fun p => ?_
    rw [plain, orSpan, ← Bool.decide_or, decide_eq_decide, Finset.mem_union,
      Finset.mem_Ico]
  | clearRange lo hi =>
    refine (clearRange_yields h hin).congr fun p => ?_
    rw [plain, andNotSpan, ← decide_not, ← Bool.decide_and, decide_eq_decide,
      Finset.mem_sdiff, Finset.mem_Ico]
  | orIter docs =>
    refine (orIter_yields h hin).congr fun p => ?_
    rw [plain, ← Bool.decide_or, decide_eq_decide, Finset.mem_union, List.mem_toFinset]
  | clearAll =>
    refine (clearAll_yields s).congr fun p => ?_
    simp [plain]

theorem or_yieldsSet (h : s.HoldsSet A) (ho : other.HoldsSet B)
    (hlen : other.length ≤ s.length) :
    Yields s (s.or other) fun p => decide (p ∈ A ∪ B) := by
  refine (or_yields h ho hlen).congr fun p => ?_
  rw [← Bool.decide_or, decide_eq_decide, Finset.mem_union]

theorem Yields.holds {x : Call SparseFixedBitSet} {P : Nat → Bool} (h : Yields s x P)
    (hrun : x = .ok t) : t.Holds P := by
  obtain ⟨u, hu, _, hold⟩ := h
  rw [hrun] at hu
  cases hu
  exact hold

/-- The invariant of the runs. -/
theorem Reaches.holds (h : Reaches s A) : s.HoldsSet A := by
  induction h with
  | new h => exact (new_holds h).2.congr fun p => by simp
  | op _ op hin hrun ih => exact (op.run_yields ih hin).holds hrun
  | or _ _ hlen hrun ih iho => exact (or_yieldsSet ih iho hlen).holds hrun

/-! ## What a run gives -/

/-- The structure of the blocks: an index word has a bit for each non-zero
word of its block, the stored words are these words in order with zeros behind
them, and the stored words are counted. -/
structure Structured (s : SparseFixedBitSet) (A : Finset ℕ) : Prop where
  indexed : ∀ k < blockCount s.length,
    Indexes (s.indices.getD k 0) (denseBlock (fun p => decide (p ∈ A)) k)
  empty : ∀ k < blockCount s.length, s.indices.getD k 0 = 0#64 → s.bits.getD k none = none
  stored : ∀ k < blockCount s.length, s.indices.getD k 0 ≠ 0#64 → ∃ slots n,
    s.bits.getD k none = some (slots ++ List.replicate n 0#64) ∧
      slots.length = countOnes (s.indices.getD k 0) ∧
      slots = (denseBlock (fun p => decide (p ∈ A)) k).filter (· != 0#64)
  counted : s.nonZeroLongCount = (s.indices.map countOnes).sum

theorem HoldsSet.structured (h : s.HoldsSet A) : s.Structured A := by
  refine ⟨fun k hk => (h.block k hk).idx, fun k hk => (h.block k hk).none, ?_, h.count⟩
  intro k hk hne
  obtain ⟨n, hn⟩ := (h.block k hk).some hne
  exact ⟨_, n, hn, (h.block k hk).idx.countOnes_eq_length.symm, rfl⟩

theorem HoldsSet.mem_lt (h : s.HoldsSet A) {p : Nat} (hp : p ∈ A) : p < s.length :=
  h.bound p (decide_eq_true hp)

theorem HoldsSet.cardinality_eq (h : s.HoldsSet A) : s.cardinality = A.card := by
  rw [cardinality_holds h]
  have hA : A = (Finset.range s.length).filter (· ∈ A) := by
    ext p
    rw [Finset.mem_filter, Finset.mem_range]
    exact ⟨fun hp => ⟨h.mem_lt hp, hp⟩, fun hp => hp.2⟩
  conv_rhs => rw [hA]
  rw [← Nat.count_eq_card_filter_range]
  rfl

theorem HoldsSet.nextSet (h : s.HoldsSet A) (start : Nat) {ub : Nat} (hub : ub ≤ s.length) :
    s.nextSetBitInRange start ub = .ok (least (A ∩ Finset.Ico start ub)) := by
  obtain ⟨r, hr, hfirst⟩ := nextSetBitInRange_firstAt h start hub
  rw [hr, least_eq hfirst fun p => ?_]
  rw [Finset.mem_inter, Finset.mem_Ico, Bool.and_eq_true, decide_eq_true_eq,
    decide_eq_true_eq]
  tauto

theorem HoldsSet.nextClear (h : s.HoldsSet A) (start ub : Nat) :
    s.nextClearBitInRange start ub =
      .ok (least (Finset.Ico start (min ub s.length) \ A)) := by
  obtain ⟨r, hr, hfirst⟩ := nextClearBitInRange_firstAt h start ub
  rw [hr, least_eq hfirst fun p => ?_]
  rw [Finset.mem_sdiff, Finset.mem_Ico, Bool.and_eq_true, decide_eq_true_eq,
    Bool.not_eq_true', decide_eq_false_iff_not]
  tauto

/-- A run of calls in range keeps the structure of the blocks, the queries
answer as on the finite set, and every further call in range returns. -/
theorem reaches_refines (h : Reaches s A) :
    s.Structured A ∧ (∀ p ∈ A, p < s.length) ∧
      (∀ i < s.length, s.get i = .ok (decide (i ∈ A))) ∧
      s.cardinality = A.card ∧
      (∀ w < divCeil s.length 64, ∃ x, s.word w = .ok x ∧
        ∀ b < 64, x.getLsbD b = decide (64 * w + b ∈ A)) ∧
      (∀ i, s.nextSetBit i = .ok (least (A.filter (i ≤ ·)))) ∧
      (∀ start ub, ub ≤ s.length →
        s.nextSetBitInRange start ub = .ok (least (A ∩ Finset.Ico start ub))) ∧
      (∀ i, s.nextClearBit i = .ok (least (Finset.Ico i s.length \ A))) ∧
      (∀ start ub, s.nextClearBitInRange start ub =
        .ok (least (Finset.Ico start (min ub s.length) \ A))) ∧
      (∀ i < s.length, s.prevSetBit i = .ok (greatest (A.filter (· ≤ i)))) ∧
      (∀ i < s.length, ∃ t, s.getAndSet i = .ok (t, decide (i ∈ A))) ∧
      (∀ op : Op, op.InRange s.length → ∃ t, op.run s = .ok t) ∧
      ∀ t B, Reaches t B → t.length ≤ s.length → ∃ u, s.or t = .ok u := by
  have hold := h.holds
  refine ⟨hold.structured, fun p hp => hold.mem_lt hp, fun i hi => get_holds hold hi,
    hold.cardinality_eq, ?_, ?_, fun start ub => hold.nextSet start, ?_, hold.nextClear,
    ?_, ?_, ?_, ?_⟩
  · intro w hw
    exact ⟨_, word_holds hold hw, fun b hb => wordOf_getLsbD _ w hb⟩
  · intro i
    have hfilter : A.filter (i ≤ ·) = A ∩ Finset.Ico i s.length := by
      ext p
      rw [Finset.mem_filter, Finset.mem_inter, Finset.mem_Ico]
      exact ⟨fun hp => ⟨hp.1, hp.2, hold.mem_lt hp.1⟩, fun hp => ⟨hp.1, hp.2.1⟩⟩
    rw [hfilter, nextSetBit]
    split
    · rename_i hle
      rw [Finset.Ico_eq_empty (by omega), Finset.inter_empty]
      rfl
    · exact hold.nextSet i (Nat.le_refl _)
  · intro i
    have := hold.nextClear i s.length
    rwa [Nat.min_self] at this
  · intro i hi
    obtain ⟨r, hr, hlast⟩ := prevSetBit_lastBelow hold hi
    rw [hr, greatest_eq hlast fun p => ?_]
    rw [Finset.mem_filter, decide_eq_true_eq, Nat.lt_succ_iff, and_comm]
  · intro i hi
    obtain ⟨t, ht, _⟩ := getAndSet_yields hold hi
    exact ⟨t, ht⟩
  · intro op hin
    obtain ⟨t, ht, _⟩ := op.run_yields hold hin
    exact ⟨t, ht⟩
  · intro t B ht hlen
    obtain ⟨u, hu, _⟩ := or_yieldsSet hold ht.holds hlen
    exact ⟨u, hu⟩

/-- A run over a word boundary that empties a word. -/
theorem reaches_refines_range : ∃ s t u : SparseFixedBitSet,
    SparseFixedBitSet.new 70 = .ok s ∧ s.setRange 60 66 = .ok t ∧
      t.clearRange 63 70 = .ok u ∧ u.cardinality = 3 ∧ u.nonZeroLongCount = 1 ∧
      u.nonZeroLongCount = (u.indices.map countOnes).sum := by
  refine ⟨_, _, _, rfl, rfl, rfl, ?_⟩
  have hrefines := reaches_refines
    (.op (.op (.new (n := 70) rfl) (.setRange 60 66) (fun _ => by decide) rfl)
      (.clearRange 63 70) (fun _ => by decide) rfl)
  exact ⟨hrefines.2.2.2.1.trans (by decide), rfl, hrefines.1.counted⟩

end SparseFixedBitSet

end LuceneRust.Util
