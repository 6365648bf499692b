import LuceneRust.Util.Automata.Automata
import Mathlib.Data.List.Lex

/-!
# Byte strings between bounds

Which label strings are byte strings above one bound and below another, bound
label by bound label: `above_cons` and `below_cons` are the equations that a
chain of states along a bound has to obey.  `above_map` and `below_map` say
that the bounds are those of the unsigned lexicographic order.
-/

namespace LuceneRust.Util.Automata

open RustSem

variable {incl : Bool} {m x c : Int} {ms xs s : List Int}

/-- Every label is a byte. -/
def Bytes (s : List Int) : Prop :=
  ∀ c ∈ s, 0 ≤ c ∧ c ≤ 255

theorem bytes_nil : Bytes [] :=
  fun _ hc => nomatch hc

theorem bytes_cons : Bytes (c :: s) ↔ (0 ≤ c ∧ c ≤ 255) ∧ Bytes s := by
  unfold Bytes
  simp

/-- The string is behind the bound, or the bound itself where `incl`. -/
def Above (incl : Bool) : List Int → List Int → Prop
  | [], s => s = [] → incl = true
  | _ :: _, [] => False
  | m :: ms, c :: s => m < c ∨ m = c ∧ Above incl ms s

/-- The string is in front of the bound, or the bound itself where `incl`. -/
def Below (incl : Bool) : List Int → List Int → Prop
  | [], s => s = [] ∧ incl = true
  | _ :: _, [] => True
  | x :: xs, c :: s => c < x ∨ c = x ∧ Below incl xs s

theorem above_cons : Above incl (m :: ms) (c :: s) ↔ m < c ∨ m = c ∧ Above incl ms s := Iff.rfl

theorem below_cons : Below incl (x :: xs) (c :: s) ↔ c < x ∨ c = x ∧ Below incl xs s := Iff.rfl

theorem above_nil : Above incl [] s ↔ (s = [] → incl = true) := by
  unfold Above
  exact Iff.rfl

theorem below_nil : Below incl [] s ↔ s = [] ∧ incl = true := by
  unfold Below
  exact Iff.rfl

theorem not_above_cons_nil : ¬ Above incl (m :: ms) [] := fun h => h

theorem below_cons_nil : Below incl (x :: xs) [] := trivial

/-! ## Bytes and their labels -/

theorem byteLabel_bounds (b : U8) : 0 ≤ byteLabel b ∧ byteLabel b ≤ 255 := by
  have := b.isLt
  unfold byteLabel
  omega

theorem byteLabel_lt {a b : U8} : byteLabel a < byteLabel b ↔ a < b := by
  unfold byteLabel
  rw [BitVec.lt_def]
  omega

theorem byteLabel_inj {a b : U8} : byteLabel a = byteLabel b ↔ a = b := by
  unfold byteLabel
  rw [← BitVec.toNat_inj]
  omega

theorem bytes_map (s : List U8) : Bytes (s.map byteLabel) := by
  intro c hc
  rcases List.mem_map.1 hc with ⟨b, _, rfl⟩
  exact byteLabel_bounds b

/-- `Above` is the unsigned lexicographic order. -/
theorem above_map {min s : List U8} :
    Above incl (min.map byteLabel) (s.map byteLabel) ↔ min < s ∨ incl = true ∧ min = s := by
  induction min generalizing s with
  | nil =>
    rw [List.map_nil, above_nil, List.map_eq_nil_iff]
    cases s with
    | nil => simp
    | cons b s => simp
  | cons a min ih =>
    cases s with
    | nil => simp [not_above_cons_nil]
    | cons b s =>
      rw [List.map_cons, List.map_cons, above_cons, ih, byteLabel_lt, byteLabel_inj,
        List.cons_lt_cons_iff, List.cons.injEq]
      tauto

/-- `Below` is the unsigned lexicographic order. -/
theorem below_map {max s : List U8} :
    Below incl (max.map byteLabel) (s.map byteLabel) ↔ s < max ∨ incl = true ∧ s = max := by
  induction max generalizing s with
  | nil =>
    rw [List.map_nil, below_nil, List.map_eq_nil_iff]
    simp [and_comm]
  | cons a max ih =>
    cases s with
    | nil => simp [below_cons_nil]
    | cons b s =>
      rw [List.map_cons, List.map_cons, below_cons, ih, byteLabel_lt, byteLabel_inj,
        List.cons_lt_cons_iff, List.cons.injEq]
      tauto

/-- `cmpBytes` is the unsigned lexicographic order. -/
theorem cmpBytes_spec (x y : List U8) :
    (cmpBytes x y = .lt ↔ x < y) ∧ (cmpBytes x y = .eq ↔ x = y) ∧ (cmpBytes x y = .gt ↔ y < x) := by
  induction x generalizing y with
  | nil => cases y <;> simp [cmpBytes]
  | cons a x ih =>
    cases y with
    | nil => simp [cmpBytes]
    | cons b y =>
      have htri : a < b ∨ a = b ∨ b < a := by
        rw [BitVec.lt_def, BitVec.lt_def, ← BitVec.toNat_inj]
        omega
      rw [cmpBytes, List.cons_lt_cons_iff, List.cons_lt_cons_iff, List.cons.injEq]
      rcases htri with h | h | h
      · have hne : a ≠ b := by
          intro heq
          rw [heq] at h
          exact absurd h (BitVec.lt_irrefl b)
        have hnot : ¬ b < a := by
          rw [BitVec.lt_def] at h ⊢
          omega
        simp [h, hne, hnot, hne.symm]
      · subst h
        have hirr : ¬ a < a := BitVec.lt_irrefl a
        simpa [hirr] using ih y
      · have hne : a ≠ b := by
          intro heq
          rw [heq] at h
          exact absurd h (BitVec.lt_irrefl b)
        have hnot : ¬ a < b := by
          rw [BitVec.lt_def] at h ⊢
          omega
        simp [h, hne, hnot, hne.symm]

/-- The labels of a bound from the position `i` on. -/
def bytesFrom (x : List U8) (i : Nat) : List Int :=
  (x.drop i).map byteLabel

theorem bytesFrom_zero (x : List U8) : bytesFrom x 0 = x.map byteLabel := rfl

theorem bytesFrom_of_le {x : List U8} {i : Nat} (h : x.length ≤ i) : bytesFrom x i = [] := by
  unfold bytesFrom
  rw [List.drop_of_length_le h, List.map_nil]

/-- The byte at the position `i`. -/
theorem bytesFrom_of_lt {x : List U8} {i : Nat} (h : i < x.length) :
    ∃ b, x[i]? = some b ∧ x.drop i = b :: x.drop (i + 1) ∧
      bytesFrom x i = byteLabel b :: bytesFrom x (i + 1) := by
  refine ⟨x[i], List.getElem?_eq_getElem h, List.drop_eq_getElem_cons h, ?_⟩
  unfold bytesFrom
  rw [List.drop_eq_getElem_cons h, List.map_cons]

end LuceneRust.Util.Automata
