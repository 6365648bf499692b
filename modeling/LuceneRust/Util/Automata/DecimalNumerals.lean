import LuceneRust.Util.Automata.Automata
import Mathlib.Tactic.Ring

/-!
# Decimal numerals as label strings

What the strings of digits stand for, and which of them are numerals of the
integers of an interval.

* `value_cons_le`: among numerals of one length the first digit where they
  differ decides.  `atLeast_cons`, `atMost_cons` and `between_cons` are the
  four cases of the constructors of decimal intervals.
* `digits_iff`: a string of digits is the numeral of its value, behind zeros.
-/

namespace LuceneRust.Util.Automata

variable {s t xs ys : List Int} {c d e : Int} {m n k v : Nat}

/-- Every label is that of a digit. -/
def Digits (s : List Int) : Prop :=
  ∀ c ∈ s, 48 ≤ c ∧ c ≤ 57

/-- What a string of digits stands for. -/
def value : List Int → Int
  | [] => 0
  | c :: s => (c - 48) * 10 ^ s.length + value s

theorem digits_cons : Digits (c :: s) ↔ (48 ≤ c ∧ c ≤ 57) ∧ Digits s := by
  unfold Digits
  simp

theorem digits_append : Digits (s ++ t) ↔ Digits s ∧ Digits t :=
  List.forall_mem_append

theorem value_bounds (h : Digits s) : 0 ≤ value s ∧ value s < 10 ^ s.length := by
  induction s with
  | nil => exact ⟨le_refl _, by decide⟩
  | cons c s ih =>
    rw [digits_cons] at h
    have hs := ih h.2
    have hp : (0 : Int) < 10 ^ s.length := by positivity
    have hlo : 0 ≤ (c - 48) * 10 ^ s.length := mul_nonneg (by omega) hp.le
    have hhi : (c - 48) * 10 ^ s.length ≤ 9 * 10 ^ s.length :=
      mul_le_mul_of_nonneg_right (by omega) hp.le
    rw [value, List.length_cons, pow_succ]
    constructor
    · linarith
    · linarith

theorem value_append (s t : List Int) : value (s ++ t) = value s * 10 ^ t.length + value t := by
  induction s with
  | nil => simp [value]
  | cons c s ih =>
    rw [List.cons_append, value, ih, value, List.length_append, pow_add]
    ring

theorem value_zeros (k : Nat) : value (List.replicate k 48) = 0 := by
  induction k with
  | zero => rfl
  | succ k ih => simp [List.replicate_succ, value, ih]

theorem value_cons_lt (hs : Digits s) (ht : Digits t) (hlen : s.length = t.length) (hcd : c < d) :
    value (c :: s) < value (d :: t) := by
  have hs' := (value_bounds hs).2
  have ht' := (value_bounds ht).1
  have hp : (0 : Int) ≤ 10 ^ t.length := by positivity
  have hstep : (c - 48 + 1) * 10 ^ t.length ≤ (d - 48) * 10 ^ t.length :=
    mul_le_mul_of_nonneg_right (by omega) hp
  rw [value, value]
  rw [hlen] at hs' ⊢
  linarith

/-- Among numerals of one length the first digit where they differ decides. -/
theorem value_cons_le (hs : Digits s) (ht : Digits t) (hlen : s.length = t.length) :
    value (c :: s) ≤ value (d :: t) ↔ c < d ∨ c = d ∧ value s ≤ value t := by
  rcases lt_trichotomy c d with hcd | rfl | hcd
  · have := value_cons_lt hs ht hlen hcd
    constructor
    · intro _
      exact .inl hcd
    · intro _
      exact this.le
  · rw [value, value, hlen]
    simp
  · have := value_cons_lt ht hs hlen.symm hcd
    constructor
    · intro hle
      omega
    · intro hle
      omega

/-! ## Numerals between bounds of their length -/

/-- `m` digits. -/
def AnyOf (m : Nat) (s : List Int) : Prop :=
  s.length = m ∧ Digits s

/-- As many digits as `xs` has, for no less. -/
def AtLeast (xs s : List Int) : Prop :=
  AnyOf xs.length s ∧ value xs ≤ value s

/-- As many digits as `ys` has, for no more. -/
def AtMost (ys s : List Int) : Prop :=
  AnyOf ys.length s ∧ value s ≤ value ys

/-- As many digits as `xs` has, for no less, and for no more than `ys`. -/
def Between (xs ys s : List Int) : Prop :=
  AnyOf xs.length s ∧ value xs ≤ value s ∧ value s ≤ value ys

theorem anyOf_zero : AnyOf 0 s ↔ s = [] := by
  unfold AnyOf
  constructor
  · intro ⟨h, _⟩
    exact List.eq_nil_of_length_eq_zero h
  · intro h
    rw [h]
    exact ⟨rfl, by simp [Digits]⟩

theorem anyOf_cons : AnyOf (m + 1) (c :: s) ↔ (48 ≤ c ∧ c ≤ 57) ∧ AnyOf m s := by
  unfold AnyOf
  rw [digits_cons, List.length_cons, Nat.add_right_cancel_iff]
  tauto

theorem not_anyOf_nil : ¬ AnyOf (m + 1) [] :=
  fun h => nomatch h.1

theorem atLeast_cons (h : Digits (d :: xs)) :
    AtLeast (d :: xs) (c :: s) ↔
      (d ≤ c ∧ c ≤ d) ∧ AtLeast xs s ∨ (d + 1 ≤ c ∧ c ≤ 57) ∧ AnyOf xs.length s := by
  rw [digits_cons] at h
  unfold AtLeast
  rw [List.length_cons, anyOf_cons]
  constructor
  · intro ⟨⟨hc, hs⟩, hle⟩
    rw [value_cons_le h.2 hs.2 hs.1.symm] at hle
    rcases hle with hlt | ⟨rfl, hle⟩
    · exact .inr ⟨⟨by omega, hc.2⟩, hs⟩
    · exact .inl ⟨⟨le_refl _, le_refl _⟩, hs, hle⟩
  · intro hcase
    rcases hcase with ⟨hc, hs, hle⟩ | ⟨hc, hs⟩
    · exact ⟨⟨by omega, hs⟩, (value_cons_le h.2 hs.2 hs.1.symm).2 (.inr ⟨by omega, hle⟩)⟩
    · exact ⟨⟨by omega, hs⟩, (value_cons_le h.2 hs.2 hs.1.symm).2 (.inl (by omega))⟩

theorem atMost_cons (h : Digits (d :: ys)) :
    AtMost (d :: ys) (c :: s) ↔
      (d ≤ c ∧ c ≤ d) ∧ AtMost ys s ∨ (48 ≤ c ∧ c ≤ d - 1) ∧ AnyOf ys.length s := by
  rw [digits_cons] at h
  unfold AtMost
  rw [List.length_cons, anyOf_cons]
  constructor
  · intro ⟨⟨hc, hs⟩, hle⟩
    rw [value_cons_le hs.2 h.2 hs.1] at hle
    rcases hle with hlt | ⟨rfl, hle⟩
    · exact .inr ⟨⟨hc.1, by omega⟩, hs⟩
    · exact .inl ⟨⟨le_refl _, le_refl _⟩, hs, hle⟩
  · intro hcase
    rcases hcase with ⟨hc, hs, hle⟩ | ⟨hc, hs⟩
    · exact ⟨⟨by omega, hs⟩, (value_cons_le hs.2 h.2 hs.1).2 (.inr ⟨by omega, hle⟩)⟩
    · exact ⟨⟨by omega, hs⟩, (value_cons_le hs.2 h.2 hs.1).2 (.inl (by omega))⟩

/-- The bounds of an interval agree in the first digit. -/
theorem between_cons_same (hx : Digits (d :: xs)) (hy : Digits (d :: ys))
    (hlen : xs.length = ys.length) :
    Between (d :: xs) (d :: ys) (c :: s) ↔ (d ≤ c ∧ c ≤ d) ∧ Between xs ys s := by
  rw [digits_cons] at hx hy
  unfold Between
  rw [List.length_cons, anyOf_cons]
  constructor
  · intro ⟨⟨hc, hs⟩, hlo, hhi⟩
    rw [value_cons_le hx.2 hs.2 hs.1.symm] at hlo
    rw [value_cons_le hs.2 hy.2 (hs.1.trans hlen)] at hhi
    have hcd : c = d := by omega
    exact ⟨by omega, hs, by omega, by omega⟩
  · intro ⟨hc, hs, hlo, hhi⟩
    have hlo' := (value_cons_le (c := d) (d := c) hx.2 hs.2 hs.1.symm).2 (.inr ⟨by omega, hlo⟩)
    have hhi' := (value_cons_le (c := c) (d := d) hs.2 hy.2 (hs.1.trans hlen)).2
      (.inr ⟨by omega, hhi⟩)
    exact ⟨⟨by omega, hs⟩, hlo', hhi'⟩

/-- The bounds of an interval differ in the first digit. -/
theorem between_cons (hx : Digits (d :: xs)) (hy : Digits (e :: ys))
    (hlen : xs.length = ys.length) (hde : d < e) :
    Between (d :: xs) (e :: ys) (c :: s) ↔
      ((d ≤ c ∧ c ≤ d) ∧ AtLeast xs s ∨ (e ≤ c ∧ c ≤ e) ∧ AtMost ys s) ∨
        (d + 1 ≤ c ∧ c ≤ e - 1) ∧ AnyOf xs.length s := by
  rw [digits_cons] at hx hy
  unfold Between AtLeast AtMost
  rw [List.length_cons, anyOf_cons, ← hlen]
  constructor
  · intro ⟨⟨hc, hs⟩, hlo, hhi⟩
    rw [value_cons_le hx.2 hs.2 hs.1.symm] at hlo
    rw [value_cons_le hs.2 hy.2 (hs.1.trans hlen)] at hhi
    rcases hlo with hdc | ⟨hdc, hlo⟩
    · rcases hhi with hce | ⟨hce, hhi⟩
      · exact .inr ⟨by omega, hs⟩
      · exact .inl (.inr ⟨by omega, hs, hhi⟩)
    · exact .inl (.inl ⟨by omega, hs, hlo⟩)
  · intro hcase
    have hlo : AnyOf xs.length s → (d < c ∨ d = c ∧ value xs ≤ value s) →
        value (d :: xs) ≤ value (c :: s) :=
      fun hs => (value_cons_le hx.2 hs.2 hs.1.symm).2
    have hhi : AnyOf xs.length s → (c < e ∨ c = e ∧ value s ≤ value ys) →
        value (c :: s) ≤ value (e :: ys) :=
      fun hs => (value_cons_le hs.2 hy.2 (hs.1.trans hlen)).2
    rcases hcase with (⟨hc, hs, hle⟩ | ⟨hc, hs, hle⟩) | ⟨hc, hs⟩
    · exact ⟨⟨by omega, hs⟩, hlo hs (.inr ⟨by omega, hle⟩), hhi hs (.inl (by omega))⟩
    · exact ⟨⟨by omega, hs⟩, hlo hs (.inl (by omega)), hhi hs (.inr ⟨by omega, hle⟩)⟩
    · exact ⟨⟨by omega, hs⟩, hlo hs (.inl (by omega)), hhi hs (.inl (by omega))⟩

/-! ## The numerals of numbers -/

/-- The label string of the numeral of `v`, with `k` zeros in front. -/
def numeral (k v : Nat) : List Int :=
  (padZeros k (decimal v)).map digitLabel

theorem decimal_lt (h : v < 10) : decimal v = [v.digitChar] :=
  Nat.toDigits_of_lt_base h

theorem decimal_snoc (hv : 0 < v) (hk : k < 10) : decimal (10 * v + k) = decimal v ++ decimal k :=
  (Nat.toDigits_append_toDigits (by decide) hv hk).symm

theorem digitLabel_digitChar (h : v < 10) : digitLabel v.digitChar = 48 + v := by
  unfold digitLabel
  rw [Nat.toNat_digitChar_of_lt_ten h]
  rfl

theorem numeral_eq (k v : Nat) :
    numeral k v = List.replicate k 48 ++ (decimal v).map digitLabel := by
  unfold numeral padZeros
  rw [List.map_append, List.map_replicate]
  rfl

theorem length_numeral (k v : Nat) : (numeral k v).length = k + (decimal v).length := by
  rw [numeral_eq, List.length_append, List.length_replicate, List.length_map]

theorem numeral_ne_nil (k v : Nat) : numeral k v ≠ [] := by
  intro h
  have hlen := congrArg List.length h
  have hpos : 0 < (decimal v).length := Nat.length_toDigits_pos
  rw [length_numeral, List.length_nil] at hlen
  omega

theorem decimal_labels (v : Nat) :
    Digits ((decimal v).map digitLabel) ∧ value ((decimal v).map digitLabel) = v := by
  induction v using Nat.strong_induction_on with
  | _ v ih =>
    have hone : ∀ k < 10, Digits ((decimal k).map digitLabel) ∧
        value ((decimal k).map digitLabel) = k ∧ ((decimal k).map digitLabel).length = 1 := by
      intro k hk
      rw [decimal_lt hk, List.map_singleton, digitLabel_digitChar hk]
      refine ⟨?_, ?_, rfl⟩
      · intro c hc
        rw [List.mem_singleton] at hc
        omega
      · simp [value]
    by_cases hv : v < 10
    · exact ⟨(hone v hv).1, (hone v hv).2.1⟩
    · have hsplit : v = 10 * (v / 10) + v % 10 := (Nat.div_add_mod v 10).symm
      have hlast := hone (v % 10) (Nat.mod_lt _ (by decide))
      have hinit := ih (v / 10) (by omega)
      have hdec : decimal v = decimal (v / 10) ++ decimal (v % 10) := by
        conv_lhs => rw [hsplit]
        exact decimal_snoc (by omega) (Nat.mod_lt _ (by decide))
      rw [hdec, List.map_append]
      constructor
      · exact digits_append.2 ⟨hinit.1, hlast.1⟩
      · rw [value_append, hinit.2, hlast.2.1, hlast.2.2]
        omega

theorem digits_zeros (k : Nat) : Digits (List.replicate k 48) := by
  intro c hc
  rw [List.eq_of_mem_replicate hc]
  omega

theorem digits_numeral (k v : Nat) : Digits (numeral k v) := by
  rw [numeral_eq]
  exact digits_append.2 ⟨digits_zeros k, (decimal_labels v).1⟩

theorem value_numeral (k v : Nat) : value (numeral k v) = v := by
  rw [numeral_eq, value_append, value_zeros, (decimal_labels v).2]
  omega

/-- A string of digits is the numeral of its value, behind zeros. -/
theorem digits_iff (hs : s ≠ []) : Digits s ↔ ∃ k v, s = numeral k v := by
  constructor
  · -- from left to right, digit by digit
    induction s using List.reverseRecOn with
    | nil => exact absurd rfl hs
    | append_singleton s c ih =>
      intro hdigits
      rw [digits_append, digits_cons] at hdigits
      rcases hdigits with ⟨hdigits, hc, _⟩
      have hlt : (c - 48).toNat < 10 := by omega
      have hlast : [c] = (decimal (c - 48).toNat).map digitLabel := by
        rw [decimal_lt hlt, List.map_singleton, digitLabel_digitChar hlt]
        congr 1
        omega
      by_cases hnil : s = []
      · refine ⟨0, (c - 48).toNat, ?_⟩
        rw [hnil, List.nil_append, numeral_eq, hlast]
        rfl
      · rcases ih hnil hdigits with ⟨k, v, hs⟩
        by_cases hv : v = 0
        · refine ⟨k + 1, (c - 48).toNat, ?_⟩
          rw [hs, hv, numeral_eq, numeral_eq, List.replicate_succ', hlast]
          rfl
        · refine ⟨k, 10 * v + (c - 48).toNat, ?_⟩
          rw [hs, numeral_eq, numeral_eq, decimal_snoc (by omega) hlt, List.map_append,
            List.append_assoc, hlast]
  · intro ⟨k, v, hs⟩
    rw [hs]
    exact digits_numeral k v

end LuceneRust.Util.Automata
