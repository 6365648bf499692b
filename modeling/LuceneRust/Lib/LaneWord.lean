import Mathlib.Data.Nat.Basic
import Mathlib.Tactic.Common

/-!
# Words as rows of lanes

A word is read as a row of lanes of `p` bits each: `lane p x q y` is bit `y` of
lane `q`.  Shifts move the bits of a lane into the next one, unless the lanes
have room for them (`FitsLanes`).

* `ext_lanes`: a word is its lanes.
* `lane_shiftLeft`, `lane_ushiftRight`, `lane_and_mask`: what the operations
  do inside the lanes.
* `streamBit` is the bit stream that the lowest bits of a list of words spell
  out, the highest of them first.
-/

namespace LaneWord

variable {w p b m s : Nat} {x x' mask : BitVec w}

/-- Bit `y` of lane `q`. -/
def lane (p : Nat) (x : BitVec w) (q y : Nat) : Bool := x.getLsbD (p * q + y)

/-- The lanes use their lowest `b` bits only. -/
def FitsLanes (p b : Nat) (x : BitVec w) : Prop :=
  ∀ q y, b ≤ y → y < p → lane p x q y = false

/-- The mask of the lowest `m` bits of each lane. -/
def IsMask (p m : Nat) (mask : BitVec w) : Prop :=
  ∀ q y, y < p → p * q + y < w → lane p mask q y = decide (y < m)

theorem ext_lanes (hp : 0 < p) (h : ∀ q y, y < p → lane p x q y = lane p x' q y) : x = x' := by
  apply BitVec.eq_of_getLsbD_eq
  intro i _
  have hlane := h (i / p) (i % p) (Nat.mod_lt i hp)
  rwa [lane, lane, Nat.div_add_mod] at hlane

@[simp] theorem lane_or (x x' : BitVec w) (q y : Nat) :
    lane p (x ||| x') q y = (lane p x q y || lane p x' q y) := BitVec.getLsbD_or

theorem lane_of_ge {q y : Nat} (h : w ≤ p * q + y) : lane p x q y = false :=
  BitVec.getLsbD_of_ge x _ h

/-- No lane is cut off by the end of the word. -/
theorem lane_beyond (hpw : p ∣ w) {q y y' : Nat} (hy : y < p) (hw : w ≤ p * q + y) :
    lane p x q y' = false := by
  obtain ⟨n, rfl⟩ := hpw
  have hq : n ≤ q := by
    by_contra hlt
    have hmul := Nat.mul_le_mul_left p (show q + 1 ≤ n by omega)
    rw [Nat.mul_succ] at hmul
    omega
  exact lane_of_ge (Nat.le_add_right_of_le (Nat.mul_le_mul_left p hq))

/-- The bits of a lane stay in it if there is room. -/
theorem lane_shiftLeft (hpw : p ∣ w) (hx : FitsLanes p b x) (hs : s + b ≤ p) {q y : Nat}
    (hy : y < p) : lane p (x <<< s) q y = (decide (s ≤ y) && lane p x q (y - s)) := by
  by_cases hw : w ≤ p * q + y
  · rw [lane_of_ge hw, lane_beyond hpw hy hw, Bool.and_false]
  rw [lane, BitVec.getLsbD_shiftLeft]
  by_cases hsy : s ≤ y
  · rw [show p * q + y - s = p * q + (y - s) from by omega]
    simp [show p * q + y < w from by omega, hsy, lane, show ¬p * q + y < s from by omega]
  · rw [decide_eq_false hsy, Bool.false_and]
    by_cases hq : p * q + y < s
    · simp [hq]
    · -- the bit comes from the top of the lane below
      obtain ⟨q, rfl⟩ : ∃ q', q = q' + 1 := by
        cases q with
        | zero => omega
        | succ q => exact ⟨q, rfl⟩
      have htop := hx q (p + y - s) (by omega) (by omega)
      rw [lane] at htop
      rw [Nat.mul_succ] at hq ⊢
      rw [show p * q + p + y - s = p * q + (p + y - s) from by omega, htop, Bool.and_false]

theorem lane_ushiftRight {q y : Nat} : lane p (x >>> s) q y = lane p x q (y + s) := by
  rw [lane, lane, BitVec.getLsbD_ushiftRight]
  congr 1
  omega

theorem lane_and_mask (hmask : IsMask p m mask) {q y : Nat} (hy : y < p) :
    lane p (x &&& mask) q y = (decide (y < m) && lane p x q y) := by
  by_cases hw : p * q + y < w
  · have h := hmask q y hy hw
    rw [lane] at h ⊢
    rw [BitVec.getLsbD_and, h, Bool.and_comm]
    rfl
  · rw [lane_of_ge (by omega), lane_of_ge (by omega), Bool.and_false]

/-! ## The stream of the lowest bits -/

/-- Bit `s` of the stream that the lowest `r` bits of the words spell out, the
highest bit of a word first. -/
def streamBit (p r : Nat) (words : List (BitVec w)) (q s : Nat) : Bool :=
  lane p (words.getD (s / r) 0#w) q (r - 1 - s % r)

theorem streamBit_eq {words : List (BitVec w)} {r q s i j : Nat} (hs : s = i * r + j) (hj : j < r) :
    streamBit p r words q s = lane p (words.getD i 0#w) q (r - 1 - j) := by
  have hdiv : s / r = i := by
    rw [hs, Nat.mul_comm, Nat.mul_add_div (by omega), Nat.div_eq_of_lt hj, Nat.add_zero]
  have hmod : s % r = j := by
    rw [hs, Nat.mul_comm, Nat.mul_add_mod, Nat.mod_eq_of_lt hj]
  rw [streamBit, hdiv, hmod]

end LaneWord
