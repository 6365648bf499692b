import LuceneRust.Lib.ByteTape
import LuceneRust.Store.SliceInput
import LuceneRust.Util.PackedLongs

/-!
# `lucene_codecs::packed_ints`

A flat array of values of one width, packed as one tape of bits, the most
significant bit of each byte first.  `encode` writes a value in pieces that
end where a byte ends.

* `encode_packs` says that the bytes start with the tape of the values.
-/

namespace LuceneRust.Codecs.PackedInts

open RustSem ByteTape
open Store (Result)
open WordTape (valueAt valueAt_mul_add)

/-- `byte_count`. -/
def byteCount (count bitsPerValue : Nat) : Nat :=
  (count * bitsPerValue + 7) / 8 % usizeSize

/-- The inner loop of `encode`: the bytes, `bit_pos`, and the bits of `v` that
remain. -/
def encodePass (v : U64) (s : List U8 × Nat × Nat) :
    Result ((List U8 × Nat × Nat) ⊕ (List U8 × Nat)) :=
  let (out, bitPos, remaining) := s
  if 0 < remaining then do
    let byteIdx := bitPos / 8
    let free := 8 - bitPos % 8
    let take := min remaining free
    let shiftInValue := remaining - take
    let mask : U64 := (1#64 <<< take) - 1#64
    let bitsVal := (v >>> shiftInValue) &&& mask
    let byte ← .expect out[byteIdx]?
    .ok (.inl (out.set byteIdx (byte ||| bitsVal.setWidth 8 <<< (free - take)),
      bitPos + take, remaining - take))
  else .ok (.inr (out, bitPos))

/-- One value of `encode`. -/
def encodeValue (bitsPerValue : Nat) (s : List U8 × Nat) (v : U64) : Result (List U8 × Nat) :=
  iterate (encodePass v) (bitsPerValue + 1) (s.1, s.2, bitsPerValue)

/-- `encode`. -/
def encode (values : List U64) (bitsPerValue : Nat) : Result (List U8) := do
  let zeros := List.replicate (byteCount values.length bitsPerValue) 0#8
  let s ← values.foldlM (encodeValue bitsPerValue) (zeros, 0)
  .ok s.1

/-! ## What the encoder writes -/

/-- The bytes hold the bits before `e`, which `f` gives, and zeros behind. -/
def Written (out : List U8) (n e : Nat) (f : Nat → Bool) : Prop :=
  out.length = n ∧ ∀ p, bitAt out p = (decide (p < e) && f p)

/-- A piece of a value goes into the byte that it ends in. -/
theorem encodePass_written {v : U64} {out : List U8} {n w q e remaining : Nat}
    {f : Nat → Bool} (hout : Written out n e f) (hq : e + remaining = q + w) (hqe : q ≤ e)
    (hn : q + w ≤ 8 * n) (hf : ∀ t < w, f (q + t) = v.getLsbD (w - 1 - t))
    (hrem : 0 < remaining) :
    ∃ out' take, 0 < take ∧ take ≤ remaining ∧
      encodePass v (out, e, remaining) = .ok (.inl (out', e + take, remaining - take)) ∧
      Written out' n (e + take) f := by
  obtain ⟨hlen, hbits⟩ := hout
  have hbyte : e / 8 < out.length := by omega
  simp only [encodePass]
  rw [if_pos hrem, List.getElem?_eq_getElem hbyte, expect_some, ok_bind]
  generalize htake : min remaining (8 - e % 8) = take
  refine ⟨_, take, by omega, by omega, rfl, by rw [List.length_set]; exact hlen, ?_⟩
  intro p
  have hmod : p % 8 < 8 := Nat.mod_lt _ (by decide)
  have hmask : ∀ k, ((v >>> (remaining - take)) &&& ((1#64 <<< take) - 1#64)).getLsbD k =
      (decide (k < take) && v.getLsbD (remaining - take + k)) := by
    intro k
    have h := Util.lowMask_isMask take (by omega)
    rw [Util.lowMask, if_neg (by omega)] at h
    rw [BitVec.getLsbD_and, BitVec.getLsbD_ushiftRight, Bool.and_comm]
    by_cases hk : k < 64
    · rw [h k hk]
    · rw [BitVec.getLsbD_of_ge _ k (by omega)]
      simp [show ¬ k < take by omega]
  rw [bitAt, List.getD_eq_getElem?_getD, List.getElem?_set]
  by_cases hp : e / 8 = p / 8
  · rw [if_pos hp, if_pos hbyte, Option.getD_some, BitVec.getLsbD_or,
      BitVec.getLsbD_shiftLeft, BitVec.getLsbD_setWidth, hmask]
    have hold := hbits p
    rw [bitAt, List.getD_eq_getElem?_getD, ← hp, List.getElem?_eq_getElem hbyte,
      Option.getD_some] at hold
    rw [hold]
    -- Before the piece, inside it, and behind it.
    by_cases h1 : p < e
    · simp [h1, show p < e + take by omega,
        show ¬ 7 - p % 8 - (8 - e % 8 - take) < take by omega]
    · by_cases h2 : p < e + take
      · have hfp := hf (p - q) (by omega)
        rw [show q + (p - q) = p by omega] at hfp
        rw [hfp, show remaining - take + (7 - p % 8 - (8 - e % 8 - take)) =
          w - 1 - (p - q) by omega]
        simp [h1, h2, show 7 - p % 8 - (8 - e % 8 - take) < take by omega,
          show 7 - p % 8 < 8 by omega, show ¬ 7 - p % 8 < 8 - e % 8 - take by omega,
          show 7 - p % 8 - (8 - e % 8 - take) < 8 by omega]
      · simp [h1, h2, show 7 - p % 8 < 8 - e % 8 - take by omega]
  · rw [if_neg hp, ← List.getD_eq_getElem?_getD, ← bitAt, hbits]
    by_cases h1 : p < e
    · simp [h1, show p < e + take by omega]
    · simp [h1, show ¬ p < e + take by omega]

theorem encodeValue_written {v : U64} {out : List U8} {n w q : Nat} {f : Nat → Bool}
    (hout : Written out n q f) (hn : q + w ≤ 8 * n)
    (hf : ∀ t < w, f (q + t) = v.getLsbD (w - 1 - t)) :
    ∃ s, encodeValue w (out, q) v = .ok s ∧ s.2 = q + w ∧ Written s.1 n (q + w) f := by
  refine iterate_ok (encodePass v)
    (fun s => s.2.1 + s.2.2 = q + w ∧ q ≤ s.2.1 ∧ Written s.1 n s.2.1 f)
    (fun s => s.2.2) (fun s => s.2 = q + w ∧ Written s.1 n (q + w) f) ?_
    (w + 1) (out, q, w) ⟨rfl, Nat.le_refl q, hout⟩ (Nat.lt_succ_self w)
  rintro ⟨out', e, remaining⟩ ⟨hq, hqe, hw⟩
  simp only at hq hqe hw
  rcases Nat.eq_zero_or_pos remaining with rfl | hrem
  · rw [Nat.add_zero] at hq
    subst hq
    exact Or.inr ⟨(out', q + w), rfl, rfl, hw⟩
  · obtain ⟨out'', take, h0, hle, hstep, hw'⟩ := encodePass_written hw hq hqe hn hf hrem
    refine Or.inl ⟨_, hstep, ⟨?_, ?_, hw'⟩, ?_⟩
    · simp only
      omega
    · simp only
      omega
    · simp only
      omega

/-- The bytes of `encode` start with the tape of the values. -/
theorem encode_packs (values : List U64) {w : Nat}
    (hsize : values.length * w < 2 ^ 64) :
    ∃ out, encode values w = .ok out ∧ out.length = byteCount values.length w ∧
      Packs out w values := by
  have hcount : values.length * w ≤ 8 * byteCount values.length w := by
    rw [byteCount, usizeSize, Nat.mod_eq_of_lt (by omega)]
    omega
  obtain ⟨s, hs, hpos, hlen, hbits⟩ := foldlM_visited
    (fun seen (s : List U8 × Nat) => s.2 = seen.length * w ∧
      Written s.1 (byteCount values.length w) (seen.length * w) (valueAt values w))
    values
    (by
      rintro seen v ⟨out, e⟩ ⟨rest, hrest⟩ ⟨he, hwritten⟩
      simp only at he hwritten
      subst he
      have hlt : (seen.length + 1) * w ≤ values.length * w := by
        refine Nat.mul_le_mul_right w ?_
        rw [hrest]
        simp
      have hv : values.getD seen.length 0 = v := by
        rw [List.getD_eq_getElem?_getD, hrest, List.getElem?_append_right (Nat.le_refl _),
          Nat.sub_self]
        rfl
      rw [Nat.add_mul, Nat.one_mul] at hlt
      obtain ⟨s, hs, hpos, hw'⟩ := encodeValue_written (v := v) (w := w) hwritten (by omega)
        (fun t ht => by rw [valueAt_mul_add values _ ht, hv])
      refine ⟨s, hs, ?_⟩
      rw [List.length_append, List.length_singleton, Nat.add_mul, Nat.one_mul]
      exact ⟨hpos, hw'⟩)
    (List.replicate (byteCount values.length w) 0#8, 0)
    ⟨by simp, by simp, fun p => by rw [bitAt_replicate_zero]; simp⟩
  refine ⟨s.1, ?_, hlen, ?_⟩
  · rw [encode, hs, ok_bind]
  · intro p hp
    rw [hbits, decide_eq_true hp, Bool.true_and]

end LuceneRust.Codecs.PackedInts
