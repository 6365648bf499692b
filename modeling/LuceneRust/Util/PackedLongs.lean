import LuceneRust.Lib.BitStream

/-!
# `lucene_util::packed_longs`

Bit-packed values that are read with one 8-byte load each.  `new` works out
how many leading values have a whole window inside the slice, and the loads
are not checked after that.  That bound is the field `fast` here: it is what
the `SAFETY` comments of the source appeal to.

Arithmetic on `u64` wraps, as in a build without overflow checks; it only
matters for a slice of more than `2 ^ 61` bytes.

* `get_eq` says what a load reads, as a field of the bit stream.
* `get_isSome_iff` says that the bound is exact: a value is answered whenever
  its whole window is inside the slice.
* `decodeRange_eq` says that a run of values is the values one by one,
  also where `decode_words` takes many of them out of one word.
* `FixedPackedLongs.get_eq` says that the narrow loads of the readers of a
  constant width return what the 8-byte load returns.
-/

namespace LuceneRust.Util

open RustSem BitStream

/-- `PackedLongs`.  `bits` and `mask` describe a value. -/
structure PackedLongs where
  bytes : List U8
  bits : Nat
  mask : U64
  /-- Every index below this has `byte(index) + 8 <= bytes.len()`. -/
  fastLimit : Nat
  isMask : IsMask mask bits
  /-- A value lies inside the window at its first byte. -/
  width : 0 < bits ∧ bits ≤ 64 ∧ (bits % 8 = 0 ∨ bits ≤ 56)
  fast : ∀ i < fastLimit, i * bits / 8 + 8 ≤ bytes.length

/-- The mask of the low `bits` bits, as the readers compute it. -/
def lowMask (bits : Nat) : U64 :=
  if bits = 64 then BitVec.allOnes 64 else (1#64 <<< bits) - 1#64

theorem lowMask_isMask (bits : Nat) (h : bits ≤ 64) :
    IsMask (lowMask bits) bits := by
  intro j hj
  unfold lowMask
  split
  · rename_i h64
    rw [h64, BitVec.getLsbD_allOnes]
  · have hone : (1#64).toNat = 1 := rfl
    have hlt : 2 ^ bits < 2 ^ 64 :=
      Nat.pow_lt_pow_right (by decide) (by omega)
    have hpos : 0 < 2 ^ bits := Nat.two_pow_pos bits
    have hnat : ((1#64 <<< bits) - 1#64).toNat = 2 ^ bits - 1 := by
      rw [BitVec.toNat_sub, BitVec.toNat_shiftLeft, Nat.shiftLeft_eq, hone,
        Nat.one_mul]
      omega
    rw [BitVec.getLsbD, hnat, Nat.testBit_two_pow_sub_one]

/-- The number of values with a whole window in `len` bytes. -/
def fastLimitOf (len bits : Nat) : Nat :=
  match checkedSub len 8 with
  | some room => ((room * 8 + 7) % 2 ^ 64 / bits + 1) % 2 ^ 64
  | none => 0

/-- An index below the limit: its bit position is a `u64`, and its window is
inside the slice. -/
theorem fastLimitOf_spec {len bits i : Nat} (hpos : 0 < bits)
    (hi : i < fastLimitOf len bits) : i * bits < 2 ^ 64 ∧ i * bits / 8 + 8 ≤ len := by
  unfold fastLimitOf checkedSub at hi
  by_cases h8 : 8 ≤ len
  · simp only [if_pos h8] at hi
    have hle := Nat.mod_le ((len - 8) * 8 + 7) (2 ^ 64)
    have hi' : i ≤ ((len - 8) * 8 + 7) % 2 ^ 64 / bits := by
      have := Nat.mod_le (((len - 8) * 8 + 7) % 2 ^ 64 / bits + 1) (2 ^ 64)
      omega
    have hmul : i * bits ≤ ((len - 8) * 8 + 7) % 2 ^ 64 :=
      (Nat.le_div_iff_mul_le hpos).1 hi'
    omega
  · simp only [if_neg h8] at hi
    exact absurd hi (Nat.not_lt_zero i)

/-- No window inside the slice is left out: the products of the constructor
do not wrap for a slice that was allocated. -/
theorem lt_fastLimitOf {len bits i : Nat} (hpos : 0 < bits)
    (halloc : len ≤ maxAlloc) (hi : i * bits / 8 + 8 ≤ len) :
    i < fastLimitOf len bits := by
  rw [maxAlloc] at halloc
  have hroom : (len - 8) * 8 + 7 < 2 ^ 64 := by omega
  have hdiv : ((len - 8) * 8 + 7) / bits ≤ (len - 8) * 8 + 7 := Nat.div_le_self _ _
  have hle : i ≤ ((len - 8) * 8 + 7) / bits :=
    (Nat.le_div_iff_mul_le hpos).2 (by omega)
  unfold fastLimitOf checkedSub
  rw [if_pos (show 8 ≤ len by omega)]
  dsimp only
  rw [Nat.mod_eq_of_lt hroom, Nat.mod_eq_of_lt (by omega)]
  omega

namespace PackedLongs

/-- `PackedLongs::new`. -/
def new (bytes : List U8) (bits : Nat) : Option PackedLongs :=
  if h : bits = 0 ∨ 64 < bits ∨ (bits % 8 ≠ 0 ∧ 56 < bits) then none
  else some
    { bytes := bytes
      bits := bits
      mask := lowMask bits
      fastLimit := fastLimitOf bytes.length bits
      isMask := lowMask_isMask _ (by omega)
      width := by omega
      fast := fun _ hi => (fastLimitOf_spec (by omega) hi).2 }

/-- `read_unaligned` of eight bytes, as a little-endian word. -/
def load (p : PackedLongs) (byte : Nat) : U64 :=
  fromLeBytes 64 ((p.bytes.drop byte).take 8)

/-- The value at `index`, with nothing checked. -/
def value (p : PackedLongs) (index : Nat) : U64 :=
  let bit := index * p.bits
  (p.load (bit / 8) >>> (bit % 8)) &&& p.mask

/-- `PackedLongs::get`. -/
def get (p : PackedLongs) (index : Nat) : Option U64 :=
  if p.fastLimit ≤ index then none else some (p.value index)

/-- `decode_run`. -/
def decodeRun (p : PackedLongs) (start n : Nat) : List U64 :=
  (List.range n).map fun i => p.value (start + i)

/-- The values of one word, `n` of them. -/
def decodeWord (p : PackedLongs) (index n : Nat) : List U64 :=
  let word := p.load (index * p.bits / 8)
  (List.range n).map fun k => (word >>> (k * p.bits)) &&& p.mask

/-- `decode_words`, for a width that divides 64: a head up to the first word
boundary, whole words, and a tail. -/
def decodeWords (p : PackedLongs) (start n : Nat) : List U64 :=
  let perWord := 64 / p.bits
  let head := min ((perWord - start % perWord) % perWord) n
  let rest := n - head
  let wordStart := start + head
  let done := head + rest / perWord * perWord
  p.decodeRun start head ++
    ((List.range (rest / perWord)).flatMap fun w =>
      p.decodeWord (wordStart + w * perWord) perWord) ++
    p.decodeRun (start + done) (rest % perWord)

/-- `decode_range`: the slots after the call, and how many were written. -/
def decodeRange (p : PackedLongs) (start : Nat) (out : List U64) :
    List U64 × Nat :=
  match checkedSub p.fastLimit start with
  | none => (out, 0)
  | some room =>
    let n := min out.length room
    let run :=
      if p.bits = 1 ∨ p.bits = 2 ∨ p.bits = 4 then p.decodeWords start n
      else p.decodeRun start n
    (run ++ out.drop n, n)

/-! ## What the reads return -/

theorem value_eq (p : PackedLongs) (index : Nat) :
    p.value index = field p.bytes (index * p.bits) p.bits := by
  obtain ⟨hpos, h64, hw⟩ := p.width
  -- A width of whole bytes starts on a byte; the others leave room for the
  -- seven bits that a value may start into its byte.
  have hfit : index * p.bits % 8 + p.bits ≤ 64 := by
    rcases hw with h8 | h56
    · rw [Nat.mul_mod, h8, Nat.mul_zero, Nat.zero_mod]
      omega
    · have := Nat.mod_lt (index * p.bits) (show 0 < 8 by decide)
      omega
  rw [value, load, window_eq_field p.isMask hfit (by omega),
    Nat.div_add_mod]

theorem get_eq (p : PackedLongs) (index : Nat) :
    p.get index = if index < p.fastLimit
      then some (field p.bytes (index * p.bits) p.bits) else none := by
  rw [get, value_eq]
  by_cases h : index < p.fastLimit
  · rw [if_pos h, if_neg (by omega)]
  · rw [if_neg h, if_pos (by omega)]

/-- A reader that was built for the slice, and the limit it answers below. -/
theorem new_eq_some {bytes : List U8} {bits : Nat} {p : PackedLongs}
    (h : new bytes bits = some p) :
    p.bytes = bytes ∧ p.bits = bits ∧ p.fastLimit = fastLimitOf bytes.length bits := by
  unfold new at h
  split at h
  · cases h
  · obtain rfl := Option.some.inj h
    exact ⟨rfl, rfl, rfl⟩

theorem get_isSome_iff {bytes : List U8} {bits : Nat} {p : PackedLongs}
    (h : new bytes bits = some p) (halloc : bytes.length ≤ maxAlloc) (i : Nat) :
    (p.get i).isSome ↔ i * bits / 8 + 8 ≤ bytes.length := by
  obtain ⟨-, hbits, hlimit⟩ := new_eq_some h
  have hpos : 0 < bits := hbits ▸ p.width.1
  rw [get_eq, hlimit]
  constructor
  · intro hsome
    by_cases hi : i < fastLimitOf bytes.length bits
    · exact (fastLimitOf_spec hpos hi).2
    · rw [if_neg hi] at hsome
      cases hsome
  · intro hwindow
    rw [if_pos (lt_fastLimitOf hpos halloc hwindow)]
    rfl

theorem decodeRun_append (p : PackedLongs) (start m n : Nat) :
    p.decodeRun start m ++ p.decodeRun (start + m) n =
      p.decodeRun start (m + n) := by
  rw [decodeRun, decodeRun, decodeRun, List.range_add, List.map_append,
    List.map_map]
  simp only [Function.comp_def, Nat.add_assoc]

/-- The values that share a word, out of one load.  The word starts on a
byte, and all of it is used. -/
theorem decodeWord_eq (p : PackedLongs) {index n : Nat}
    (hbyte : 8 ∣ index * p.bits) (hn : n * p.bits ≤ 64) :
    p.decodeWord index n = p.decodeRun index n := by
  refine List.map_congr_left fun k hk => ?_
  have hk' : (k + 1) * p.bits ≤ n * p.bits :=
    Nat.mul_le_mul_right _ (List.mem_range.1 hk)
  rw [Nat.add_mul, Nat.one_mul] at hk'
  rw [load, window_eq_field p.isMask (by omega) (by omega),
    Nat.mul_div_cancel' hbyte, value_eq, Nat.add_mul]

theorem flatMap_decodeRun (p : PackedLongs) (start n : Nat) :
    ∀ m, ((List.range m).flatMap fun w => p.decodeRun (start + w * n) n) =
      p.decodeRun start (m * n) := by
  intro m
  induction m with
  | zero => simp [decodeRun]
  | succ m ih =>
    rw [List.range_succ, List.flatMap_append, ih, List.flatMap_singleton,
      decodeRun_append, Nat.add_mul, Nat.one_mul]

theorem decodeWords_eq (p : PackedLongs) (hdiv : p.bits ∣ 8) (start n : Nat) :
    p.decodeWords start n = p.decodeRun start n := by
  have h64 : 64 / p.bits * p.bits = 64 :=
    Nat.div_mul_cancel (hdiv.trans (by decide))
  have hpos := p.width.1
  have hword : 0 < 64 / p.bits := by
    apply Nat.pos_of_ne_zero
    intro h0
    rw [h0] at h64
    omega
  simp only [decodeWords]
  generalize hper : 64 / p.bits = per at h64 hword
  rcases Nat.le_total ((per - start % per) % per) n with hle | hge
  · rw [Nat.min_eq_left hle]
    generalize hhead : (per - start % per) % per = head at hle
    -- The head ends at a word boundary.
    have hstart : per ∣ start + head := by
      have hmod := Nat.mod_lt start hword
      rcases Nat.eq_zero_or_pos (start % per) with h0 | h0
      · rw [h0, Nat.sub_zero, Nat.mod_self] at hhead
        rw [← hhead, Nat.add_zero]
        exact Nat.dvd_of_mod_eq_zero h0
      · rw [Nat.mod_eq_of_lt (by omega)] at hhead
        refine ⟨start / per + 1, ?_⟩
        have := Nat.div_add_mod start per
        rw [Nat.mul_add, Nat.mul_one]
        omega
    have hwords : ((List.range ((n - head) / per)).flatMap fun w =>
        p.decodeWord (start + head + w * per) per) =
        p.decodeRun (start + head) ((n - head) / per * per) := by
      rw [← flatMap_decodeRun]
      refine List.flatMap_congr fun w _ => ?_
      refine p.decodeWord_eq ?_ (Nat.le_of_eq h64)
      obtain ⟨c, hc⟩ := hstart
      refine ⟨(c + w) * 8, ?_⟩
      rw [hc, Nat.mul_comm per c, ← Nat.add_mul, Nat.mul_assoc, h64]
      omega
    have hsplit := Nat.div_add_mod (n - head) per
    rw [Nat.mul_comm] at hsplit
    rw [hwords, decodeRun_append, ← Nat.add_assoc, Nat.add_assoc start,
      decodeRun_append]
    congr 1
    omega
  · rw [Nat.min_eq_right hge, Nat.sub_self]
    simp [decodeRun]

theorem decodeRange_eq (p : PackedLongs) (start : Nat) (out : List U64) :
    p.decodeRange start out =
      let n := min out.length (p.fastLimit - start)
      (p.decodeRun start n ++ out.drop n, n) := by
  rw [decodeRange]
  by_cases h : start ≤ p.fastLimit
  · rw [checkedSub_of_le h]
    simp only
    split
    · rename_i hb
      rw [p.decodeWords_eq]
      rcases hb with hb | hb | hb <;> rw [hb] <;> decide
    · rfl
  · rw [checkedSub, if_neg h, Nat.sub_eq_zero_of_le (by omega)]
    simp [decodeRun]

/-- `decode_range` slot by slot: it writes what `get` answers from `start`
on, it leaves the other slots alone, and it stops where `get` does. -/
theorem decodeRange_get (p : PackedLongs) (start : Nat) (out : List U64) :
    ∃ n ≤ out.length, (p.decodeRange start out).2 = n ∧
      (p.decodeRange start out).1.length = out.length ∧
      (∀ k < n, (p.decodeRange start out).1[k]? = p.get (start + k)) ∧
      (∀ k < n, (p.get (start + k)).isSome) ∧
      (∀ k, n ≤ k → (p.decodeRange start out).1[k]? = out[k]?) ∧
      (n < out.length → p.get (start + n) = none) := by
  rw [decodeRange_eq]
  dsimp only
  generalize hn : min out.length (p.fastLimit - start) = n
  have hlen : (p.decodeRun start n).length = n := by
    rw [decodeRun, List.length_map, List.length_range]
  have hget : ∀ k < n, p.get (start + k) = some (p.value (start + k)) := by
    intro k hk
    rw [get, if_neg (by omega)]
  refine ⟨n, by omega, rfl, ?_, ?_, ?_, ?_, ?_⟩
  · rw [List.length_append, List.length_drop, hlen]
    omega
  · intro k hk
    rw [List.getElem?_append_left (by omega), hget k hk, decodeRun,
      List.getElem?_map, List.getElem?_range hk]
    rfl
  · intro k hk
    rw [hget k hk]
    rfl
  · intro k hk
    rw [List.getElem?_append_right (by omega), hlen, List.getElem?_drop]
    congr 1
    omega
  · intro hlt
    rw [get, if_pos (by omega)]

end PackedLongs

/-! ## Readers of a constant width -/

/-- `FixedPackedLongs<B>`. -/
structure FixedPackedLongs (B : Nat) where
  bytes : List U8
  fastLimit : Nat

namespace FixedPackedLongs

/-- `FixedPackedLongs::new`. -/
def new (B : Nat) (bytes : List U8) : FixedPackedLongs B :=
  { bytes := bytes
    fastLimit := ((PackedLongs.new bytes B).map (·.fastLimit)).getD 0 }

/-- The bytes of the narrowest load that holds a value from its first bit. -/
def loadBytes (B : Nat) : Nat :=
  if B ∈ [1, 2, 4, 8] then 1
  else if B ∈ [12, 16] then 2
  else if B ∈ [20, 24, 28, 32] then 4
  else 8

/-- `u64::MAX.checked_shr(64.saturating_sub(B)).unwrap_or(0)`. -/
def maskOf (B : Nat) : U64 :=
  if 64 - B < 64 then BitVec.allOnes 64 >>> (64 - B) else 0#64

/-- `FixedPackedLongs::get`. -/
def get {B : Nat} (p : FixedPackedLongs B) (index : Nat) : Option U64 :=
  if p.fastLimit ≤ index then none
  else
    let bit := index * B
    let byte := if B % 8 = 0 then index * (B / 8) else bit / 8
    let word := fromLeBytes 64 ((p.bytes.drop byte).take (loadBytes B))
    some ((word >>> (bit % 8)) &&& maskOf B)

theorem maskOf_isMask {B : Nat} (hpos : 0 < B) (h64 : B ≤ 64) : IsMask (maskOf B) B := by
  intro j hj
  rw [maskOf, if_pos (by omega), BitVec.getLsbD_ushiftRight, BitVec.getLsbD_allOnes]
  exact decide_eq_decide.2 (by omega)

/-- A value lies inside the narrow load: 1, 2 and 4 bits never leave their
byte, 12, 20 and 28 start at most four bits in, whole bytes do not shift. -/
theorem loadBytes_fits {B : Nat} (h64 : B ≤ 64) (hw : B % 8 = 0 ∨ B ≤ 56) (index : Nat) :
    index * B % 8 + B ≤ 8 * loadBytes B ∧ index * B % 8 + B ≤ 64 := by
  simp only [loadBytes, List.mem_cons, List.not_mem_nil, or_false]
  split
  · rename_i h
    rcases h with rfl | rfl | rfl | rfl <;> omega
  · split
    · rename_i h
      rcases h with rfl | rfl <;> omega
    · split
      · rename_i h
        rcases h with rfl | rfl | rfl | rfl <;> omega
      · rcases hw with h8 | h56
        · rw [Nat.mul_mod, h8, Nat.mul_zero, Nat.zero_mod]
          omega
        · omega

theorem get_eq (B : Nat) (bytes : List U8) (index : Nat) :
    (new B bytes).get index = (PackedLongs.new bytes B).bind (·.get index) := by
  rcases hp : PackedLongs.new bytes B with _ | p
  · simp [new, get, hp]
  · obtain ⟨hbytes, hbits, -⟩ := PackedLongs.new_eq_some hp
    obtain ⟨hpos, h64, hw⟩ := p.width
    rw [hbits] at hpos h64 hw
    obtain ⟨hload, hword⟩ := loadBytes_fits h64 hw index
    have hbyte : (if B % 8 = 0 then index * (B / 8) else index * B / 8) =
        index * B / 8 := by
      split
      · rename_i h8
        rw [Nat.mul_div_assoc _ (Nat.dvd_of_mod_eq_zero h8)]
      · rfl
    rw [Option.bind_some, PackedLongs.get_eq, hbytes, hbits]
    simp only [get, new, hp, Option.map_some, Option.getD_some, hbyte]
    rw [window_eq_field (maskOf_isMask hpos h64) hword hload, Nat.div_add_mod]
    by_cases hi : index < p.fastLimit
    · rw [if_neg (by omega), if_pos hi]
    · rw [if_pos (by omega), if_neg hi]

end FixedPackedLongs

end LuceneRust.Util
