import Mathlib.Data.List.Basic
import Mathlib.Data.Int.Basic
import Mathlib.Tactic.Common
import Mathlib.Tactic.IntervalCases

/-!
# `lucene_util::base36`

Numbers with the digits `0` to `z`, as the names of the commit files and of
the temporary files have them.

* `fromBase36_toBase36` is the round trip for the `i64`s that are not
  negative, and `toBase36_inj` follows.
* `toBase36_digit` says which characters a number has.
-/

namespace LuceneRust.Util

/-- `DIGITS`. -/
def base36Digits : List Char := "0123456789abcdefghijklmnopqrstuvwxyz".toList

/-- The digit `d`. -/
def digitChar (d : Nat) : Char := base36Digits.getD d '0'

/-- The loop of `to_base36`: the digits of `n`, the last one first in the
source.  A `u64` has at most 13 of them. -/
def digitsLoop : Nat → Nat → List Char
  | 0, _ => []
  | fuel + 1, n => if n = 0 then [] else digitsLoop fuel (n / 36) ++ [digitChar (n % 36)]

/-- `to_base36`. -/
def toBase36 (n : Int) : String :=
  if n = 0 then "0"
  else
    let body := digitsLoop 13 n.natAbs
    String.ofList (if n < 0 then '-' :: body else body)

/-- `char::to_digit(36)`. -/
def toDigit (c : Char) : Option Nat :=
  if '0' ≤ c ∧ c ≤ '9' then some (c.toNat - '0'.toNat)
  else if 'a' ≤ c ∧ c ≤ 'z' then some (c.toNat - 'a'.toNat + 10)
  else if 'A' ≤ c ∧ c ≤ 'Z' then some (c.toNat - 'A'.toNat + 10)
  else none

/-- The number with the given digits. -/
def digitsValue (cs : List Char) : Option Nat :=
  cs.foldlM (fun acc c => (toDigit c).map (acc * 36 + ·)) 0

/-- The magnitude of a number, of which at least one digit is to be there. -/
def magnitude (cs : List Char) : Option Nat := if cs = [] then none else digitsValue cs

/-- `from_base36`: `i64::from_str_radix(s, 36)`. -/
def fromBase36 (s : String) : Option Int :=
  match s.toList with
  | '-' :: cs => (magnitude cs).bind fun v => if v ≤ 2 ^ 63 then some (-v) else none
  | '+' :: cs => (magnitude cs).bind fun v => if v < 2 ^ 63 then some v else none
  | cs => (magnitude cs).bind fun v => if v < 2 ^ 63 then some v else none

/-! ## The digits -/

theorem toDigit_digitChar {d : Nat} (hd : d < 36) : toDigit (digitChar d) = some d := by
  interval_cases d <;> decide

theorem digitChar_ne_sign {d : Nat} (hd : d < 36) :
    digitChar d ≠ '-' ∧ digitChar d ≠ '+' := by
  interval_cases d <;> decide

/-- The characters of a number are digits. -/
theorem mem_digitsLoop {fuel n : Nat} {c : Char} (h : c ∈ digitsLoop fuel n) :
    ∃ d < 36, c = digitChar d := by
  induction fuel generalizing n with
  | zero => cases h
  | succ fuel ih =>
    rw [digitsLoop] at h
    split at h
    · cases h
    · rcases List.mem_append.1 h with h | h
      · exact ih h
      · rw [List.mem_singleton] at h
        exact ⟨n % 36, Nat.mod_lt _ (by decide), h⟩

theorem digitsValue_digitsLoop {fuel n : Nat} (h : n < 36 ^ fuel) :
    digitsValue (digitsLoop fuel n) = some n := by
  induction fuel generalizing n with
  | zero =>
    have h0 : n = 0 := by simpa using h
    subst h0
    rfl
  | succ fuel ih =>
    rw [digitsLoop]
    split
    · rename_i h0
      subst h0
      rfl
    · have hdiv : n / 36 < 36 ^ fuel := by
        rw [Nat.div_lt_iff_lt_mul (by decide)]
        rwa [Nat.pow_succ] at h
      have hvalue := ih hdiv
      have hdm := Nat.div_add_mod n 36
      rw [digitsValue] at hvalue ⊢
      rw [List.foldlM_append, hvalue, Option.bind_eq_bind, Option.bind_some, List.foldlM_cons,
        toDigit_digitChar (Nat.mod_lt _ (by decide)), Option.map_some, Option.bind_eq_bind,
        Option.bind_some, List.foldlM_nil, Nat.mul_comm (n / 36) 36, hdm]
      rfl

theorem digitsLoop_ne_nil {fuel n : Nat} (hn : n ≠ 0) : digitsLoop (fuel + 1) n ≠ [] := by
  rw [digitsLoop, if_neg hn]
  simp

/-! ## The round trip -/

theorem toList_toBase36_zero : (toBase36 0).toList = ['0'] := rfl

theorem toList_toBase36 {n : Nat} (hn : n ≠ 0) :
    (toBase36 n).toList = digitsLoop 13 n := by
  have hn0 : (n : Int) ≠ 0 := by omega
  have hneg : ¬ (n : Int) < 0 := by omega
  rw [toBase36, if_neg hn0]
  dsimp only
  rw [if_neg hneg, String.toList_ofList, Int.natAbs_natCast]

/-- The characters of a number that is not negative are digits. -/
theorem toBase36_digit {n : Nat} {c : Char} (h : c ∈ (toBase36 n).toList) :
    ∃ d < 36, c = digitChar d := by
  by_cases hn : n = 0
  · subst hn
    rw [show ((0 : Nat) : Int) = 0 from rfl, toList_toBase36_zero, List.mem_singleton] at h
    exact ⟨0, by decide, h⟩
  · rw [toList_toBase36 hn] at h
    exact mem_digitsLoop h

/-- A number without a sign is read as its magnitude. -/
theorem fromBase36_of_digits {s : String} (h : ∀ c ∈ s.toList, ∃ d < 36, c = digitChar d) :
    fromBase36 s =
      (magnitude s.toList).bind fun v => if v < 2 ^ 63 then some (v : Int) else none := by
  rw [fromBase36]
  split
  · rename_i cs hcs
    obtain ⟨d, hd, hc⟩ := h '-' (by rw [hcs]; exact List.mem_cons_self)
    exact absurd hc.symm (digitChar_ne_sign hd).1
  · rename_i cs hcs
    obtain ⟨d, hd, hc⟩ := h '+' (by rw [hcs]; exact List.mem_cons_self)
    exact absurd hc.symm (digitChar_ne_sign hd).2
  · rfl

theorem fromBase36_toBase36 {n : Nat} (hn : n < 2 ^ 63) :
    fromBase36 (toBase36 n) = some (n : Int) := by
  rw [fromBase36_of_digits fun c hc => toBase36_digit hc]
  by_cases h0 : n = 0
  · subst h0
    rfl
  · rw [toList_toBase36 h0, magnitude, if_neg (digitsLoop_ne_nil h0),
      digitsValue_digitsLoop (by omega), Option.bind_some, if_pos hn]

theorem toBase36_inj {m n : Nat} (hm : m < 2 ^ 63) (hn : n < 2 ^ 63)
    (h : toBase36 m = toBase36 n) : m = n := by
  have hread := fromBase36_toBase36 hm
  rw [h, fromBase36_toBase36 hn, Option.some.injEq] at hread
  omega

end LuceneRust.Util
