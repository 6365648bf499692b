import LuceneRust.RustSem.Outcome
import Mathlib.Data.List.Basic
import Mathlib.Data.Nat.Bitwise

/-!
# Fixed-width words, byte strings and slices

The Rust integer types of a fixed width are bit vectors of that width.  A
cast between a signed and an unsigned type of one width keeps the bits, so
`i64` and `u64` are both `U64` here, and an operation that looks at the sign
says so (`BitVec.toInt`).  A `usize` that counts or indexes is a `Nat`.

* `toLeBytes` and `fromLeBytes` are `to_le_bytes` and `from_le_bytes`.
  `getLsbD_fromLeBytes` says which bit of which byte a bit of the word is,
  and `fromLeBytes_toLeBytes` is the round trip.
* `slice` is `data.get(lo..hi)`, `sliceFrom` is `data.get(lo..)` and `chunks`
  is `data.chunks(n)`.
* `splice` overwrites a range of a buffer, and `copyWithin` is
  `copy_within`, which panics when a range does not fit.
* `checkedAdd` and `checkedSub` are the checked operations on `usize`, and
  `sub` is the plain subtraction, which panics on an underflow.
-/

namespace RustSem

abbrev U8 := BitVec 8
abbrev U16 := BitVec 16
abbrev U32 := BitVec 32
abbrev U64 := BitVec 64
abbrev U128 := BitVec 128

/-- `usize::MAX + 1` on a 64-bit target. -/
def usizeSize : Nat := 2 ^ 64

/-- The most bytes that an allocation can have.  A larger one aborts: no
target has so much memory to address. -/
def maxAlloc : Nat := 2 ^ 55

/-- `saturating_mul` of two `u64`, or of two `usize`. -/
def saturatingMul (a b : Nat) : Nat := min (a * b) (2 ^ 64 - 1)

/-- `usize::checked_add`. -/
def checkedAdd (a b : Nat) : Option Nat :=
  if a + b < usizeSize then some (a + b) else none

/-- `usize::checked_sub`, and plain `-` where an underflow is a panic. -/
def checkedSub (a b : Nat) : Option Nat :=
  if b ≤ a then some (a - b) else none

theorem checkedSub_of_le {a b : Nat} (h : b ≤ a) :
    checkedSub a b = some (a - b) := if_pos h

/-- `a - b` on `usize`: an underflow is a panic. -/
def sub {ε : Type} (a b : Nat) : Outcome ε Nat := .expect (checkedSub a b)

@[simp] theorem sub_of_le {ε : Type} {a b : Nat} (h : b ≤ a) :
    (sub a b : Outcome ε Nat) = .ok (a - b) := by
  rw [sub, checkedSub_of_le h, expect_some]

theorem checkedAdd_eq_some {a b c : Nat} (h : checkedAdd a b = some c) :
    c = a + b := by
  unfold checkedAdd at h
  split at h
  · exact (Option.some.inj h).symm
  · cases h

/-! ## Signed longs -/

/-- The sign of an `i64`. -/
theorem nonneg_iff (v : U64) : 0 ≤ v.toInt ↔ v.toNat < 2 ^ 63 := by
  have hlt := v.isLt
  rw [BitVec.toInt_eq_toNat_cond]
  split <;> omega

theorem msb_eq_false_iff (v : U64) : v.msb = false ↔ v.toNat < 2 ^ 63 := by
  rw [BitVec.msb_eq_decide]
  simp

/-- `>>` on a non-negative `i64`. -/
theorem toNat_sshiftRight {v : U64} (h : v.toNat < 2 ^ 63) (s : Nat) :
    (v.sshiftRight s).toNat = v.toNat / 2 ^ s := by
  rw [BitVec.sshiftRight_eq_of_msb_false ((msb_eq_false_iff v).2 h),
    BitVec.toNat_ushiftRight, Nat.shiftRight_eq_div_pow]

/-- `>>` keeps an `i64` negative. -/
theorem sshiftRight_neg {v : U64} (h : 2 ^ 63 ≤ v.toNat) (s : Nat) :
    2 ^ 63 ≤ (v.sshiftRight s).toNat := by
  have hmsb : v.msb = true := by
    rw [BitVec.msb_eq_decide]
    simpa using h
  have hkeep : (v.sshiftRight s).msb = true := by
    rw [BitVec.msb_sshiftRight, hmsb]
  rw [BitVec.msb_eq_decide] at hkeep
  simpa using hkeep

/-- `usize::try_from` of an `i64`. -/
def tryUsize (v : U64) : Option Nat :=
  if 0 ≤ v.toInt then some v.toNat else none

/-- `i64::checked_add` of a count. -/
def checkedAddI64 (a : U64) (k : Nat) : Option U64 :=
  if a.toInt + k < 2 ^ 63 then some (a + BitVec.ofNat 64 k) else none

/-! ## Little-endian words -/

/-- The first `n` little-endian bytes of `v`. -/
def toLeBytes {w : Nat} (n : Nat) (v : BitVec w) : List U8 :=
  (List.range n).map fun i => v.extractLsb' (8 * i) 8

/-- The word of width `w` with the given little-endian bytes. -/
def fromLeBytes (w : Nat) : List U8 → BitVec w
  | [] => 0
  | b :: bs => b.setWidth w ||| (fromLeBytes w bs <<< 8)

@[simp] theorem toLeBytes_length {w : Nat} (n : Nat) (v : BitVec w) :
    (toLeBytes n v).length = n := by
  simp [toLeBytes]

theorem toLeBytes_getElem? {w : Nat} (n : Nat) (v : BitVec w) {i : Nat}
    (hi : i < n) : (toLeBytes n v)[i]? = some (v.extractLsb' (8 * i) 8) := by
  simp [toLeBytes, hi]

theorem toLeBytes_getD {w : Nat} (n : Nat) (v : BitVec w) {i : Nat}
    (hi : i < n) (b : U8) :
    (toLeBytes n v).getD i b = v.extractLsb' (8 * i) 8 := by
  rw [List.getD_eq_getElem?_getD, toLeBytes_getElem? n v hi, Option.getD_some]

/-- Bit `i` of a word is bit `i % 8` of its byte `i / 8`. -/
theorem getLsbD_fromLeBytes (w : Nat) (bs : List U8) (i : Nat) :
    (fromLeBytes w bs).getLsbD i =
      (decide (i < w) && (bs.getD (i / 8) 0).getLsbD (i % 8)) := by
  induction bs generalizing i with
  | nil => simp [fromLeBytes]
  | cons b bs ih =>
    rw [fromLeBytes, BitVec.getLsbD_or, BitVec.getLsbD_setWidth,
      BitVec.getLsbD_shiftLeft, ih]
    rcases Nat.lt_or_ge i 8 with hi | hi
    · have h0 : i / 8 = 0 := by omega
      have h1 : i % 8 = i := by omega
      simp [h0, h1, hi]
    · obtain ⟨k, rfl⟩ : ∃ k, i = k + 8 := ⟨i - 8, by omega⟩
      have h0 : (k + 8) / 8 = k / 8 + 1 := by omega
      have h1 : (k + 8) % 8 = k % 8 := by omega
      have hb : b.getLsbD (k + 8) = false :=
        BitVec.getLsbD_of_ge b (k + 8) (by omega)
      rw [hb, h0, h1, List.getD_cons_succ]
      by_cases hw : k + 8 < w
      · have hk : k < w := by omega
        simp [hw, hk]
      · simp [hw]

/-- Two words that agree on the bits of byte `j` come from byte strings that
agree at `j`. -/
theorem getD_eq_of_fromLeBytes {w : Nat} {bs : List U8} {j : Nat}
    (cs : List U8) (hj : 8 * j + 8 ≤ w)
    (h : ∀ i, 8 * j ≤ i → i < 8 * j + 8 → (fromLeBytes w bs).getLsbD i = (fromLeBytes w cs).getLsbD i) :
    bs.getD j 0 = cs.getD j 0 := by
  apply BitVec.eq_of_getLsbD_eq
  intro i hi
  have hdiv : (8 * j + i) / 8 = j := by omega
  have hmod : (8 * j + i) % 8 = i := by omega
  have hw : 8 * j + i < w := by omega
  have := h (8 * j + i) (by omega) (by omega)
  rw [getLsbD_fromLeBytes, getLsbD_fromLeBytes, hdiv, hmod] at this
  simpa [hw] using this

/-- Reading back the bytes of a word gives the word. -/
theorem fromLeBytes_toLeBytes {w : Nat} (n : Nat) (v : BitVec w)
    (h : w ≤ 8 * n) : fromLeBytes w (toLeBytes n v) = v := by
  apply BitVec.eq_of_getLsbD_eq
  intro i hi
  have hin : i / 8 < n := by omega
  have hmod : i % 8 < 8 := Nat.mod_lt _ (by decide)
  have hdm : 8 * (i / 8) + i % 8 = i := Nat.div_add_mod i 8
  rw [getLsbD_fromLeBytes, toLeBytes_getD n v hin, BitVec.getLsbD_extractLsb',
    hdm]
  simp [hi, hmod]

/-- The word of width `w` with the given bits. -/
def ofBits (f : Nat → Bool) : (w : Nat) → BitVec w
  | 0 => 0#0
  | w + 1 => BitVec.cons (f w) (ofBits f w)

theorem getLsbD_ofBits (f : Nat → Bool) (w i : Nat) :
    (ofBits f w).getLsbD i = (decide (i < w) && f i) := by
  induction w with
  | zero => simp [ofBits]
  | succ w ih =>
    rw [ofBits, BitVec.getLsbD_cons, ih]
    by_cases hi : i = w
    · simp [hi]
    · have : (i < w + 1) ↔ i < w := by omega
      simp [hi, this]

/-! ## Slices -/

variable {α : Type}

/-- `data.get(lo..hi)`. -/
def slice (l : List α) (lo hi : Nat) : Option (List α) :=
  if lo ≤ hi ∧ hi ≤ l.length then some ((l.drop lo).take (hi - lo)) else none

theorem slice_eq_some {l : List α} {lo hi : Nat} (h : lo ≤ hi)
    (hhi : hi ≤ l.length) :
    slice l lo hi = some ((l.drop lo).take (hi - lo)) :=
  if_pos ⟨h, hhi⟩

theorem slice_eq_none {l : List α} {lo hi : Nat} (hhi : l.length < hi) :
    slice l lo hi = none := by
  refine if_neg ?_
  rintro ⟨_, h⟩
  omega

/-- The slice of a list that starts after a known prefix. -/
theorem slice_append_right (pre mid post : List α) :
    slice (pre ++ (mid ++ post)) pre.length (pre.length + mid.length) =
      some mid := by
  rw [slice_eq_some (by omega) (by simp), List.drop_left,
    Nat.add_sub_cancel_left, List.take_left]

/-- `data.get(lo..)`. -/
def sliceFrom (l : List α) (lo : Nat) : Option (List α) :=
  if lo ≤ l.length then some (l.drop lo) else none

/-- `data.chunks(n)`: chunk `b` starts at `b * n`, and only the last one may
be short. -/
def chunks (n : Nat) (l : List α) : List (List α) :=
  (List.range ((l.length + n - 1) / n)).map fun b => (l.drop (b * n)).take n

theorem chunks_nil {n : Nat} (hn : 0 < n) : chunks n ([] : List α) = [] := by
  rw [chunks, List.length_nil, Nat.zero_add, Nat.div_eq_of_lt (by omega)]
  rfl

theorem chunks_flatten {n : Nat} (hn : 0 < n) (l : List α) :
    (chunks n l).flatten = l := by
  have htake : ∀ m, ((List.range m).map fun b =>
      (l.drop (b * n)).take n).flatten = l.take (m * n) := by
    intro m
    induction m with
    | zero => simp
    | succ m ih =>
      rw [List.range_succ, List.map_append, List.flatten_append, ih,
        Nat.add_mul, Nat.one_mul, List.take_add]
      simp
  have hdm := Nat.div_add_mod (l.length + n - 1) n
  have hmod := Nat.mod_lt (l.length + n - 1) hn
  rw [Nat.mul_comm] at hdm
  rw [chunks, htake, List.take_of_length_le (by omega)]

theorem chunks_getElem? {n i : Nat} (hn : 0 < n) {l : List α}
    (hi : i < l.length) :
    (chunks n l)[i / n]? = some ((l.drop (i / n * n)).take n) := by
  have hlt : i / n < (l.length + n - 1) / n := by
    rw [Nat.lt_div_iff_mul_lt hn]
    have := Nat.div_mul_le_self i n
    omega
  rw [chunks, List.getElem?_map, List.getElem?_range hlt, Option.map_some]

/-- A chunk is not empty, and has at most `n` elements. -/
theorem chunks_mem {n : Nat} (hn : 0 < n) {l c : List α}
    (hc : c ∈ chunks n l) : c ≠ [] ∧ c.length ≤ n := by
  obtain ⟨b, hb, rfl⟩ := List.mem_map.1 hc
  rw [List.mem_range, Nat.lt_div_iff_mul_lt hn] at hb
  refine ⟨?_, List.length_take_le _ _⟩
  rw [← List.length_pos_iff, List.length_take, List.length_drop]
  omega

theorem chunks_append {n : Nat} (hn : 0 < n) {c : List α} (hc : c.length = n) (l : List α) :
    chunks n (c ++ l) = c :: chunks n l := by
  have hcount : ((c ++ l).length + n - 1) / n = (l.length + n - 1) / n + 1 := by
    rw [List.length_append, hc, show n + l.length + n - 1 = l.length + n - 1 + n by omega,
      Nat.add_div_right _ hn]
  rw [chunks, hcount, List.range_succ_eq_map, List.map_cons, List.map_map, chunks]
  congr 1
  · rw [Nat.zero_mul, List.drop_zero, ← hc, List.take_left]
  · refine List.map_congr_left ?_
    intro b _
    rw [Function.comp_apply, Nat.succ_mul, Nat.add_comm, ← List.drop_drop, ← hc, List.drop_left]

/-- The chunks of parts of the length of a chunk are the parts. -/
theorem chunks_flatMap {β : Type} {n : Nat} (hn : 0 < n) {f : β → List α}
    (hf : ∀ x, (f x).length = n) (l : List β) : chunks n (l.flatMap f) = l.map f := by
  induction l with
  | nil =>
    rw [List.flatMap_nil, chunks, List.length_nil, Nat.div_eq_of_lt (by omega)]
    rfl
  | cons x l ih => rw [List.flatMap_cons, chunks_append hn (hf x), ih, List.map_cons]

theorem drop_flatMap {β : Type} {n : Nat} {f : β → List α} (hf : ∀ b, (f b).length = n) :
    ∀ (l : List β) (i : Nat), (l.flatMap f).drop (i * n) = (l.drop i).flatMap f
  | l, 0 => by rw [Nat.zero_mul, List.drop_zero, List.drop_zero]
  | [], i + 1 => by rw [List.drop_nil, List.flatMap_nil, List.drop_nil]
  | b :: l, i + 1 => by
    rw [List.flatMap_cons, List.drop_succ_cons, Nat.succ_mul, Nat.add_comm, ← List.drop_drop,
      ← hf b, List.drop_left, hf b, drop_flatMap hf l i]

theorem take_flatMap {β : Type} {n : Nat} {f : β → List α} (hf : ∀ b, (f b).length = n) :
    ∀ (l : List β) (i : Nat), (l.flatMap f).take (i * n) = (l.take i).flatMap f
  | l, 0 => by rw [Nat.zero_mul, List.take_zero, List.take_zero, List.flatMap_nil]
  | [], i + 1 => by rw [List.take_nil, List.flatMap_nil, List.take_nil]
  | b :: l, i + 1 => by
    rw [List.flatMap_cons, List.take_succ_cons, List.flatMap_cons, Nat.succ_mul, Nat.add_comm,
      List.take_append, hf b, Nat.add_sub_cancel_left, take_flatMap hf l i,
      List.take_of_length_le (by rw [hf b]; exact Nat.le_add_right _ _)]

/-- The bytes of some items of a fixed size. -/
theorem slice_flatMap {β : Type} {n : Nat} {f : β → List α} (hf : ∀ b, (f b).length = n)
    {l : List β} {lo hi : Nat} (h : lo ≤ hi) (hhi : hi ≤ l.length) :
    slice (l.flatMap f) (lo * n) (hi * n) = some (((l.drop lo).take (hi - lo)).flatMap f) := by
  have hlen : (l.flatMap f).length = l.length * n := by
    rw [List.length_flatMap, List.map_congr_left fun b _ => hf b, List.map_const',
      List.sum_replicate_nat]
  rw [slice_eq_some (Nat.mul_le_mul_right n h) (by rw [hlen]; exact Nat.mul_le_mul_right n hhi),
    drop_flatMap hf, ← Nat.sub_mul, take_flatMap hf]

/-- Overwrite `l` from `i` on with `src`. -/
def splice (l : List α) (i : Nat) (src : List α) : List α :=
  l.take i ++ (src ++ l.drop (i + src.length))

theorem splice_length {l src : List α} {i : Nat}
    (h : i + src.length ≤ l.length) : (splice l i src).length = l.length := by
  simp only [splice, List.length_append, List.length_take, List.length_drop]
  omega

theorem splice_take (l src : List α) {i : Nat} (hi : i ≤ l.length) :
    (splice l i src).take (i + src.length) = l.take i ++ src := by
  have hlen : (l.take i ++ src).length = i + src.length := by
    simp only [List.length_append, List.length_take]
    omega
  rw [splice, ← List.append_assoc, ← hlen, List.take_left]

theorem getElem?_splice {l src : List α} {i : Nat}
    (h : i + src.length ≤ l.length) (j : Nat) :
    (splice l i src)[j]? =
      if i ≤ j ∧ j < i + src.length then src[j - i]? else l[j]? := by
  have htake : (l.take i).length = i := List.length_take_of_le (by omega)
  rw [splice]
  by_cases hlo : j < i
  · rw [if_neg (by omega), List.getElem?_append_left (by omega),
      List.getElem?_take_of_lt hlo]
  · rw [List.getElem?_append_right (by omega), htake]
    by_cases hhi : j < i + src.length
    · rw [if_pos (by omega), List.getElem?_append_left (by omega)]
    · rw [if_neg (by omega), List.getElem?_append_right (by omega),
        List.getElem?_drop,
        show i + src.length + (j - i - src.length) = j by omega]

/-- Overwriting leaves what stands behind the range as it was. -/
theorem splice_drop {l src : List α} {i n : Nat} (hi : i ≤ l.length)
    (h : i + src.length ≤ n) : (splice l i src).drop n = l.drop n := by
  obtain ⟨k, rfl⟩ : ∃ k, n = i + src.length + k := ⟨n - (i + src.length), by omega⟩
  have hlen : (l.take i ++ src).length = i + src.length := by
    simp only [List.length_append, List.length_take]
    omega
  rw [splice, ← List.append_assoc, ← List.drop_drop, ← hlen, List.drop_left,
    hlen, List.drop_drop]

/-- Overwriting right after a prefix keeps the prefix. -/
theorem splice_append (out tail src : List α) :
    splice (out ++ tail) out.length src =
      (out ++ src) ++ tail.drop src.length := by
  simp [splice, List.drop_append]

/-- `dest.copy_within(src..src + n, dst)`. -/
def copyWithin {ε : Type} (dest : List α) (src n dst : Nat) :
    Outcome ε (List α) :=
  if src + n ≤ dest.length ∧ dst + n ≤ dest.length then
    .ok (splice dest dst ((dest.drop src).take n))
  else .panic

theorem copyWithin_ok {ε : Type} {dest : List α} {src n dst : Nat}
    (hf : src + n ≤ dest.length) (ht : dst + n ≤ dest.length) :
    (copyWithin dest src n dst : Outcome ε (List α)) =
      .ok (splice dest dst ((dest.drop src).take n)) :=
  if_pos ⟨hf, ht⟩

end RustSem
