import Mathlib.Data.List.Basic

/-!
# Codes for whole blocks of values

`enc` turns blocks of `per` values into blocks of `width` bytes, and `count n`
is how many of the bytes the first `n` values need.  `Lawful` is what makes
such a code streamable: blocks are coded one by one, and what a value list
does not need of its last block is zeros when the block is filled up with
zeros.

* `wire` is what has to be written for any number of values: the code of the
  values, filled up to whole blocks, without the bytes that are not needed.
* `Lawful.enc_wire`: the code of filled-up values is `wire` and zeros, however
  many blocks were filled up.
* `Lawful.wire_append`: behind whole blocks, the rest is written on its own.
-/

namespace BlockCodec

variable {α β : Type}

/-- What a code of blocks has to keep to. -/
structure Lawful (z : α) (o : β) (per width : Nat) (count : Nat → Nat)
    (enc : List α → List β) : Prop where
  per_pos : 0 < per
  length_enc : ∀ {k : Nat} {vs : List α}, vs.length = k * per → (enc vs).length = k * width
  enc_append : ∀ {k : Nat} {a : List α} (b : List α), a.length = k * per →
    enc (a ++ b) = enc a ++ enc b
  count_add : ∀ k r, count (k * per + r) = k * width + count r
  count_le : ∀ {r : Nat}, r ≤ per → count r ≤ width
  enc_zeros : ∀ {k m : Nat} {vs : List α}, vs.length + m = k * per →
    (enc (vs ++ List.replicate m z)).drop (count vs.length) =
      List.replicate (k * width - count vs.length) o

/-- How many blocks `n` values take. -/
def blocks (per n : Nat) : Nat := (n + per - 1) / per

/-- What is written for the values. -/
def wire (z : α) (per : Nat) (count : Nat → Nat) (enc : List α → List β) (vs : List α) : List β :=
  (enc (vs ++ List.replicate (blocks per vs.length * per - vs.length) z)).take (count vs.length)

theorem le_blocks_mul {per : Nat} (hper : 0 < per) (n : Nat) : n ≤ blocks per n * per := by
  have hdm := Nat.div_add_mod (n + per - 1) per
  have hmod := Nat.mod_lt (n + per - 1) hper
  unfold blocks
  rw [Nat.mul_comm]
  omega

theorem blocks_le {per n k : Nat} (h : n ≤ k * per) (hper : 0 < per) : blocks per n ≤ k := by
  unfold blocks
  rw [← Nat.lt_succ_iff, Nat.div_lt_iff_lt_mul hper, Nat.succ_mul]
  omega

namespace Lawful

variable {z : α} {o : β} {per width : Nat} {count : Nat → Nat} {enc : List α → List β}

theorem count_zero (h : Lawful z o per width count enc) : count 0 = 0 := by
  have hadd := h.count_add 1 0
  have hle := h.count_le (Nat.le_refl per)
  rw [Nat.one_mul, Nat.one_mul, Nat.add_zero] at hadd
  omega

/-- Whole blocks are enough. -/
theorem count_le_mul (h : Lawful z o per width count enc) {n k : Nat} (hn : n ≤ k * per) :
    count n ≤ k * width := by
  have hper := h.per_pos
  have hmod := Nat.mod_lt n hper
  have hdm := Nat.div_add_mod n per
  have hadd := h.count_add (n / per) (n % per)
  rw [Nat.mul_comm (n / per) per, hdm] at hadd
  rw [hadd]
  rcases Nat.lt_or_ge (n / per) k with hlt | hge
  · have hle := h.count_le (Nat.le_of_lt hmod)
    have hmul := Nat.mul_le_mul_right width (Nat.succ_le_of_lt hlt)
    rw [Nat.succ_mul] at hmul
    omega
  · have hk : n / per = k := Nat.le_antisymm (Nat.div_le_of_le_mul (by rwa [Nat.mul_comm])) hge
    have hr : n % per = 0 := by
      rw [hk, Nat.mul_comm] at hdm
      omega
    rw [hr, h.count_zero, hk]
    omega

/-- The code of filled-up values. -/
theorem enc_wire (h : Lawful z o per width count enc) {k m : Nat} {vs : List α}
    (hk : vs.length + m = k * per) :
    enc (vs ++ List.replicate m z) =
      wire z per count enc vs ++ List.replicate (k * width - count vs.length) o := by
  have hle := le_blocks_mul h.per_pos vs.length
  obtain ⟨j, hj⟩ := Nat.le.dest (blocks_le (n := vs.length) (k := k) (by omega) h.per_pos)
  generalize hb : blocks per vs.length = b at hle hj
  have hm : m = (b * per - vs.length) + j * per := by
    rw [← hj, Nat.add_mul] at hk
    omega
  have hfirst : (vs ++ List.replicate (b * per - vs.length) z).length = b * per := by
    rw [List.length_append, List.length_replicate]
    omega
  have htake : (enc (vs ++ List.replicate m z)).take (count vs.length) =
      wire z per count enc vs := by
    rw [wire, hb, hm, ← List.replicate_append_replicate, ← List.append_assoc,
      h.enc_append _ hfirst, List.take_append_of_le_length]
    rw [h.length_enc hfirst]
    exact h.count_le_mul hle
  rw [← htake, ← h.enc_zeros hk, List.take_append_drop]

theorem wire_length (h : Lawful z o per width count enc) (vs : List α) :
    (wire z per count enc vs).length = count vs.length := by
  have hle := le_blocks_mul h.per_pos vs.length
  have hlen : (vs ++ List.replicate (blocks per vs.length * per - vs.length) z).length =
      blocks per vs.length * per := by
    rw [List.length_append, List.length_replicate]
    omega
  rw [wire, List.length_take_of_le]
  rw [h.length_enc hlen]
  exact h.count_le_mul hle

theorem wire_nil (h : Lawful z o per width count enc) : wire z per count enc [] = [] := by
  apply List.length_eq_zero_iff.1
  rw [h.wire_length, List.length_nil, h.count_zero]

/-- Behind whole blocks, the rest is written on its own. -/
theorem wire_append (h : Lawful z o per width count enc) {k : Nat} {a : List α}
    (ha : a.length = k * per) (b : List α) :
    wire z per count enc (a ++ b) = enc a ++ wire z per count enc b := by
  have hle := le_blocks_mul h.per_pos b.length
  obtain ⟨m, hm⟩ := Nat.le.dest hle
  generalize blocks per b.length = kb at hm
  have hsum : (a ++ b).length + m = (k + kb) * per := by
    rw [List.length_append, ha, Nat.add_mul]
    omega
  have hcount : count (a ++ b).length = k * width + count b.length := by
    rw [List.length_append, ha, h.count_add]
  have hboth : wire z per count enc (a ++ b) ++
        List.replicate ((k + kb) * width - count (a ++ b).length) o =
      (enc a ++ wire z per count enc b) ++ List.replicate (kb * width - count b.length) o := by
    rw [← h.enc_wire hsum, List.append_assoc, h.enc_append _ ha, h.enc_wire hm, List.append_assoc]
  apply (List.append_inj hboth _).1
  rw [h.wire_length, hcount, List.length_append, h.length_enc ha, h.wire_length]

/-- Whole blocks are their code. -/
theorem wire_blocks (h : Lawful z o per width count enc) {k : Nat} {a : List α}
    (ha : a.length = k * per) : wire z per count enc a = enc a := by
  have happ := h.wire_append ha []
  rw [List.append_nil, h.wire_nil, List.append_nil] at happ
  exact happ

end Lawful

end BlockCodec
