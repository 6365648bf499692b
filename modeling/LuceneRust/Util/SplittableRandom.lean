import LuceneRust.RustSem.Bytes
import LuceneRust.Util.Packed.Mutable
import Mathlib.Tactic.Common

/-!
# `lucene_util::splittable_random`

The stream of `java.util.SplittableRandom`, as far as a bounded integer is drawn
from it.  `nextIntRange_spec` says that a draw ends and is inside its bounds.

The rejection loop ends because the seeds run through every word, and the draw
from the seed 0 is 0.
-/

namespace LuceneRust.Util

open RustSem
open Packed (Call)

/-- `SplittableRandom`. -/
structure SplittableRandom where
  seed : U64
  deriving DecidableEq, Repr

namespace SplittableRandom

/-- `GOLDEN_GAMMA`. -/
def goldenGamma : U64 := 0x9e3779b97f4a7c15#64

/-- `mix32`. -/
def mix32 (z : U64) : U32 :=
  let z := (z ^^^ (z >>> 33)) * 0x62a9d9ed799705f5#64
  (((z ^^^ (z >>> 28)) * 0xcb24d0a5c88c35b3#64) >>> 32).setWidth 32

/-- `next_int`. -/
def nextInt (random : SplittableRandom) : U32 × SplittableRandom :=
  let seed := random.seed + goldenGamma
  (mix32 seed, ⟨seed⟩)

/-- The rejection loop for `n > 0`: the draw and what it is reduced to. -/
def rejectPass (n m : U32) (s : U32 × SplittableRandom) :
    Call ((U32 × SplittableRandom) ⊕ (U32 × SplittableRandom)) :=
  let (u, random) := s
  let r := u.srem n
  if 0 ≤ (u + m - r).toInt then .ok (.inr (r, random))
  else
    let (next, random) := random.nextInt
    .ok (.inl (next >>> 1, random))

/-- The loop for a range of more than `i32::MAX` values. -/
def redrawPass (origin bound : U32) (s : U32 × SplittableRandom) :
    Call ((U32 × SplittableRandom) ⊕ (U32 × SplittableRandom)) :=
  let (r, random) := s
  if r.toInt < origin.toInt ∨ bound.toInt ≤ r.toInt then .ok (.inl random.nextInt)
  else .ok (.inr (r, random))

/-- The seeds that a loop can see before they repeat. -/
def period : Nat := 2 ^ 64

/-- `next_int_range`. -/
def nextIntRange (random : SplittableRandom) (origin bound : U32) :
    Call (U32 × SplittableRandom) := do
  let (r, random) := random.nextInt
  if origin.toInt < bound.toInt then
    let n := bound - origin
    let m := n - 1
    if n &&& m = 0 then .ok ((r &&& m) + origin, random)
    else if 0 < n.toInt then do
      let (r, random) ← iterate (rejectPass n m) (period + 2) (r >>> 1, random)
      .ok (r + origin, random)
    else iterate (redrawPass origin bound) (period + 2) (r, random)
  else .ok (r, random)

/-! ## A draw from a range of positions -/

/-- The inverse of `goldenGamma`. -/
def gammaInv : U64 := 0xf1de83e19937733d#64

/-- How many draws there are until one from the seed 0. -/
def drawsToZero (random : SplittableRandom) : Nat := (-random.seed * gammaInv).toNat

theorem drawsToZero_next {random : SplittableRandom} (h : random.seed ≠ 0#64) :
    random.nextInt.2.drawsToZero + 1 = random.drawsToZero := by
  have hinv : goldenGamma * gammaInv = 1#64 := by decide
  have hmul : -(random.seed + goldenGamma) * gammaInv = -random.seed * gammaInv - 1#64 := by
    rw [BitVec.neg_mul, BitVec.neg_mul, BitVec.add_mul, hinv]
    bv_omega
  have hne : -random.seed * gammaInv ≠ 0#64 := by
    intro heq
    have hback := congrArg (· * goldenGamma) heq
    simp only [BitVec.mul_assoc, BitVec.mul_comm gammaInv, hinv, BitVec.mul_one,
      BitVec.zero_mul] at hback
    exact h (by bv_omega)
  unfold nextInt drawsToZero
  dsimp only
  rw [hmul]
  bv_omega

theorem toInt_of_lt {x : U32} (h : x.toNat < 2 ^ 31) : x.toInt = x.toNat :=
  BitVec.toInt_eq_toNat_of_lt (by omega)

theorem ushiftRight_lt (x : U32) : (x >>> 1).toNat < 2 ^ 31 := by
  have := x.isLt
  rw [BitVec.toNat_ushiftRight, Nat.shiftRight_eq_div_pow]
  omega

/-- The rejection loop ends with a residue. -/
theorem reject_ok {n : U32} (hpos : 0 < n.toNat) (hlt : n.toNat < 2 ^ 31)
    (random : SplittableRandom) :
    ∃ r, iterate (rejectPass n (n - 1)) (period + 2)
        (random.nextInt.1 >>> 1, random.nextInt.2) = .ok r ∧ r.1.toNat < n.toNat := by
  apply iterate_ok (rejectPass n (n - 1))
    (fun s => s.1 = mix32 s.2.seed >>> 1) (fun s => s.2.drawsToZero)
  · intro ⟨u, random⟩ hu
    dsimp only at hu
    have hult : u.toNat < 2 ^ 31 := by
      rw [hu]
      exact ushiftRight_lt _
    have hrem : (u.srem n).toNat = u.toNat % n.toNat := by
      rw [BitVec.srem_eq, BitVec.msb_eq_false_iff_two_mul_lt.2 (by omega),
        BitVec.msb_eq_false_iff_two_mul_lt.2 (by omega)]
      rfl
    have hmod := Nat.mod_lt u.toNat hpos
    unfold rejectPass
    dsimp only
    split
    · exact Or.inr ⟨_, rfl, by rw [hrem]; exact hmod⟩
    next hneg =>
      have hseed : random.seed ≠ 0#64 := by
        intro hzero
        -- the draw from the seed 0 is accepted
        have hu0 : u = 0#32 := by
          rw [hu, hzero]
          rfl
        apply hneg
        rw [hu0] at hrem ⊢
        have hr0 : (0#32).srem n = 0#32 := BitVec.eq_of_toNat_eq (by rw [hrem]; rfl)
        rw [hr0, toInt_of_lt (by bv_omega)]
        exact Int.natCast_nonneg _
      have hnext := drawsToZero_next hseed
      exact Or.inl ⟨_, rfl, rfl, by dsimp only; omega⟩
  · rfl
  · have : random.nextInt.2.drawsToZero < 2 ^ 64 := BitVec.isLt _
    unfold period
    dsimp only
    omega

/-- A draw between positions that an `i32` can hold. -/
theorem nextIntRange_spec (random : SplittableRandom) (origin bound : Nat) (h : origin < bound)
    (hlt : bound < 2 ^ 31) : ∃ r random',
      random.nextIntRange (BitVec.ofNat 32 origin) (BitVec.ofNat 32 bound) = .ok (r, random') ∧
        r.toNat < bound ∧ origin ≤ r.toNat := by
  have ho : (BitVec.ofNat 32 origin).toNat = origin := by
    rw [BitVec.toNat_ofNat, Nat.mod_eq_of_lt (by omega)]
  have hb : (BitVec.ofNat 32 bound).toNat = bound := by
    rw [BitVec.toNat_ofNat, Nat.mod_eq_of_lt (by omega)]
  have hn : (BitVec.ofNat 32 bound - BitVec.ofNat 32 origin).toNat = bound - origin := by
    rw [BitVec.toNat_sub_of_le (by rw [BitVec.le_def]; omega), ho, hb]
  have hcmp : (BitVec.ofNat 32 origin).toInt < (BitVec.ofNat 32 bound).toInt := by
    rw [toInt_of_lt (by omega), toInt_of_lt (by omega), ho, hb]
    omega
  -- a residue below `n` is drawn
  have hdone : ∀ r : U32, r.toNat < bound - origin →
      (r + BitVec.ofNat 32 origin).toNat < bound ∧
        origin ≤ (r + BitVec.ofNat 32 origin).toNat := by
    intro r hr
    have hsum : (r + BitVec.ofNat 32 origin).toNat = r.toNat + origin := by
      rw [BitVec.toNat_add, ho, Nat.mod_eq_of_lt (by omega)]
    omega
  unfold nextIntRange
  generalize BitVec.ofNat 32 bound - BitVec.ofNat 32 origin = n at hn
  dsimp only
  rw [if_pos hcmp]
  split
  · refine ⟨_, _, rfl, hdone _ ?_⟩
    have hand : (random.nextInt.1 &&& (n - 1)).toNat ≤ (n - 1).toNat := by
      rw [BitVec.toNat_and]
      exact Nat.and_le_right
    bv_omega
  · rw [if_pos (by rw [toInt_of_lt (by omega)]; omega)]
    obtain ⟨r, hr, hlt'⟩ := reject_ok (n := n) (by omega) (by omega) random
    rw [hr, ok_bind]
    exact ⟨_, _, rfl, hdone _ (by omega)⟩

end SplittableRandom

end LuceneRust.Util
