import LuceneRust.Codecs.LowercaseAscii
import LuceneRust.Store.VarintSpec

/-!
# The round trip of `lowercase_ascii`

* `entries` are the places that the exception list names, bridging places included.  The
  count and the writer both walk them (`count_eq`, `write_ok`).
* `Packed` is the buffer in the middle of the packing, and `unpack_ok` reads the last
  quarter back.
* `Near` is what the decoder needs of the places, and `restore_ok` is the decoder over
  the first so many of them.

The count is written as an `i32`.  With `2 ^ 31` entries or more the decoder reads another
one, which is what `compress_meets` says.
-/

namespace LuceneRust.Codecs.LowercaseAscii

open RustSem Store

variable {input out q tmp : List U8} {i k n num previous : Nat}

/-! ## The varint -/

theorem setWidth_and_not_low7 (v : U32) :
    v.setWidth 64 &&& ~~~0x7F#64 = (v &&& ~~~0x7f#32).setWidth 64 := by
  apply BitVec.eq_of_getLsbD_eq
  intro i hi
  simp only [BitVec.getLsbD_and, BitVec.getLsbD_setWidth, BitVec.getLsbD_not,
    getLsbD_low7 (by decide : 7 ≤ 64), getLsbD_low7 (by decide : 7 ≤ 32)]
  by_cases h : i < 32
  · simp [h, hi]
  · simp [BitVec.getLsbD_of_ge v i (by omega)]

/-- `write_vint` is the encoder of `data_output`. -/
theorem writeVint_eq (v : U32) : writeVint v = encodeVarint (v.setWidth 64) := by
  have hcond : v &&& ~~~0x7f#32 ≠ 0 ↔ v.setWidth 64 &&& ~~~0x7F#64 ≠ 0 := by
    rw [setWidth_and_not_low7]
    constructor
    · intro h h0
      apply h
      have := congrArg (BitVec.setWidth 32) h0
      rwa [BitVec.setWidth_setWidth_of_le _ (by decide), BitVec.setWidth_eq] at this
    · intro h h0
      exact h (by rw [h0]; rfl)
  rw [writeVint, encodeVarint]
  by_cases h : v &&& ~~~0x7f#32 ≠ 0
  · have hlt := shiftRight_seven_lt h
    have hlow : (v &&& 0x7f#32).setWidth 8 = (v.setWidth 64 &&& 0x7F#64).setWidth 8 := by
      apply BitVec.eq_of_getLsbD_eq
      intro i hi
      simp [hi]
    have hshift : (v >>> 7).setWidth 64 = v.setWidth 64 >>> 7 := by
      apply BitVec.eq_of_toNat_eq
      rw [BitVec.toNat_setWidth_of_le (by decide), BitVec.toNat_ushiftRight,
        BitVec.toNat_ushiftRight, BitVec.toNat_setWidth_of_le (by decide)]
    rw [dif_pos h, if_pos (hcond.1 h), writeVint_eq (v >>> 7), hlow, hshift]
  · rw [dif_neg h, if_neg (fun h' => h (hcond.2 h')), BitVec.setWidth_setWidth_of_le _ (by decide)]
termination_by v.toNat

/-! ## Entries -/

/-- The places that bridge a gap. -/
def bridges (i previous : Nat) : List Nat :=
  if _h : 0xff < i - previous then (previous + 0xff) :: bridges i (previous + 0xff) else []
termination_by i - previous
decreasing_by omega

/-- A gap of `d` takes one bridge for every 255 bytes that it is more than one byte. -/
theorem length_bridges (i previous : Nat) :
    (bridges i previous).length = (i - previous - 1) / 0xff := by
  fun_induction bridges i previous with
  | case1 previous h ih =>
    rw [List.length_cons, ih]
    omega
  | case2 previous h =>
    rw [List.length_nil]
    omega

/-- The places of the exceptions and of their bridges, from the place `i` on. -/
def entriesFrom (previous i : Nat) : List U8 → List Nat
  | [] => []
  | b :: rest =>
    if isCompressible b then entriesFrom previous (i + 1) rest
    else bridges i previous ++ i :: entriesFrom i (i + 1) rest

/-- The places that the exception list names. -/
def entries (input : List U8) : List Nat := entriesFrom 0 0 input

/-- The last of the places. -/
def lastOf (previous : Nat) : List Nat → Nat
  | [] => previous
  | p :: ps => lastOf p ps

/-- The exception list of the places. -/
def encodeEntries (input : List U8) (previous : Nat) : List Nat → List U8
  | [] => []
  | p :: ps => BitVec.ofNat 8 (p - previous) :: input.getD p 0 :: encodeEntries input p ps

/-- Each place is in the input, and at most 255 bytes behind the one before. -/
def Near (n previous : Nat) : List Nat → Prop
  | [] => True
  | p :: ps => previous ≤ p ∧ p ≤ previous + 0xff ∧ p < n ∧ Near n p ps

attribute [local simp] entriesFrom lastOf encodeEntries Near

theorem encodeEntries_append (input : List U8) (ps qs : List Nat) (previous : Nat) :
    encodeEntries input previous (ps ++ qs) =
      encodeEntries input previous ps ++ encodeEntries input (lastOf previous ps) qs := by
  induction ps generalizing previous with
  | nil => rfl
  | cons p ps ih => simp [encodeEntries, lastOf, ih]

@[simp] theorem length_encodeEntries (input : List U8) (ps : List Nat) (previous : Nat) :
    (encodeEntries input previous ps).length = 2 * ps.length := by
  induction ps generalizing previous with
  | nil => rfl
  | cons p ps ih =>
    rw [encodeEntries, List.length_cons, List.length_cons, ih, List.length_cons]
    omega

theorem near_append {ps qs : List Nat} :
    Near n previous (ps ++ qs) ↔ Near n previous ps ∧ Near n (lastOf previous ps) qs := by
  induction ps generalizing previous with
  | nil => simp [Near, lastOf]
  | cons p ps ih => simp [Near, lastOf, ih, and_assoc]

theorem bridges_near (hi : i < n) (hle : previous ≤ i) :
    Near n previous (bridges i previous) ∧ lastOf previous (bridges i previous) ≤ i ∧
      i ≤ lastOf previous (bridges i previous) + 0xff := by
  fun_induction bridges i previous with
  | case1 previous h ih =>
    obtain ⟨hnear, hlast⟩ := ih (by omega)
    exact ⟨⟨Nat.le_add_right _ _, le_rfl, by omega, hnear⟩, hlast⟩
  | case2 previous h => exact ⟨trivial, hle, by rw [lastOf]; omega⟩

theorem entriesFrom_near (rest : List U8) (hle : previous ≤ i) (hn : i + rest.length ≤ n) :
    Near n previous (entriesFrom previous i rest) := by
  induction rest generalizing previous i with
  | nil => trivial
  | cons b rest ih =>
    rw [List.length_cons] at hn
    rw [entriesFrom]
    split
    · exact ih (by omega) (by omega)
    · obtain ⟨hnear, hlast, hgap⟩ := bridges_near (n := n) (by omega) hle
      exact near_append.2 ⟨hnear, hlast, hgap, by omega, ih (Nat.le_succ i) (by omega)⟩

/-- Every byte that does not fit has an entry. -/
theorem mem_entriesFrom (previous i : Nat) {rest : List U8} {b : U8} (hb : rest[k]? = some b)
    (hc : isCompressible b = false) : i + k ∈ entriesFrom previous i rest := by
  induction rest generalizing previous i k with
  | nil => cases hb
  | cons c rest ih =>
    rw [entriesFrom]
    cases k with
    | zero =>
      cases hb
      simp [hc]
    | succ k =>
      have hind : i + (k + 1) = i + 1 + k := by omega
      rw [List.getElem?_cons_succ] at hb
      rw [hind]
      split
      · exact ih _ _ hb
      · exact List.mem_append_right _ (List.mem_cons_of_mem _ (ih _ _ hb))

/-! ## The count -/

theorem countBridges_eq (i num previous : Nat) :
    (countBridges i (num, previous)).1 = num + (bridges i previous).length := by
  fun_induction bridges i previous generalizing num with
  | case1 previous h ih =>
    rw [countBridges, dif_pos h, ih, List.length_cons]
    omega
  | case2 previous h =>
    rw [countBridges, dif_neg h]
    rfl

/-- The count stops exactly when there are more entries than are allowed. -/
theorem count_eq (previous i : Nat) {most : Nat} (rest : List U8) (hnum : num ≤ most) :
    ((rest.zipIdx i).foldlM (countPass most) (num, previous)).map Prod.fst =
      if num + (entriesFrom previous i rest).length ≤ most then
        some (num + (entriesFrom previous i rest).length) else none := by
  induction rest generalizing i num previous with
  | nil =>
    rw [entriesFrom, List.length_nil, Nat.add_zero, if_pos hnum]
    rfl
  | cons b rest ih =>
    rw [List.zipIdx_cons, List.foldlM_cons, countPass, entriesFrom]
    dsimp only
    split
    · exact ih _ _ hnum
    · rw [countBridges_eq, List.length_append, List.length_cons]
      have hsum : num + ((bridges i previous).length + ((entriesFrom i (i + 1) rest).length + 1)) =
          num + (bridges i previous).length + 1 + (entriesFrom i (i + 1) rest).length := by omega
      rw [hsum]
      split
      next hmore =>
        rw [if_neg (by omega)]
        rfl
      next hfew => exact ih _ _ (not_lt.1 hfew)

/-! ## The writer of the exceptions -/

theorem getElem?_eq_getD {α : Type} {l : List α} (d : α) (h : k < l.length) :
    l[k]? = some (l.getD k d) := by
  rw [List.getD_eq_getElem?_getD, List.getElem?_eq_getElem h, Option.getD_some]

theorem writeBridges_ok (hi : i < input.length) (hle : previous ≤ i) (out : List U8) :
    writeBridges input i (out, previous) =
      .ok (out ++ encodeEntries input previous (bridges i previous),
        lastOf previous (bridges i previous)) := by
  fun_induction bridges i previous generalizing out with
  | case1 previous h ih =>
    have hget : input[previous + 0xff]? = some (input.getD (previous + 0xff) 0) :=
      getElem?_eq_getD 0 (by omega)
    rw [writeBridges, dif_pos h]
    dsimp only
    rw [hget, expect_some, ok_bind, ih (by omega), encodeEntries, lastOf,
      Nat.add_sub_cancel_left, List.append_assoc]
    rfl
  | case2 previous h =>
    rw [writeBridges, dif_neg h, encodeEntries, List.append_nil, lastOf]

theorem write_ok (rest : List U8) (hle : previous ≤ i) (hrest : input.drop i = rest)
    (out : List U8) : ∃ last, (rest.zipIdx i).foldlM (writePass input) (out, previous) =
      .ok (out ++ encodeEntries input previous (entriesFrom previous i rest), last) := by
  induction rest generalizing previous i out with
  | nil => exact ⟨previous, by rw [entriesFrom, encodeEntries, List.append_nil]; rfl⟩
  | cons b rest ih =>
    have hlt : i < input.length := by
      by_contra hge
      rw [List.drop_eq_nil_of_le (not_lt.1 hge)] at hrest
      cases hrest
    rw [List.drop_eq_getElem_cons hlt] at hrest
    obtain ⟨hb, hrest⟩ := List.cons.inj hrest
    rw [List.zipIdx_cons, List.foldlM_cons, writePass, entriesFrom]
    dsimp only
    split
    · exact ih (by omega) hrest out
    · have hget : input.getD i 0 = b := by
        rw [List.getD_eq_getElem _ _ hlt, hb]
      rw [writeBridges_ok hlt hle, ok_bind]
      dsimp only
      rw [ok_bind]
      obtain ⟨last, hrun⟩ := ih (Nat.le_succ i) hrest
        (out ++ encodeEntries input previous (bridges i previous) ++
          [BitVec.ofNat 8 (i - lastOf previous (bridges i previous)), b])
      refine ⟨last, ?_⟩
      rw [hrun, encodeEntries_append, encodeEntries, hget]
      simp

/-! ## Packing -/

/-- What goes into the top bits of the byte `o`. -/
def fill (q : List U8) (o : Nat) : U8 :=
  let saved := q.length / 4
  let shift := shifts.getD (o / saved) (0, 0)
  (q.getD (q.length - saved + o % saved) 0 &&& shift.1) <<< shift.2

/-- The byte `o` once the bytes below `k` are filled. -/
def packedAt (q : List U8) (k o : Nat) : U8 :=
  if o < k then q.getD o 0 ||| fill q o else q.getD o 0

/-- The buffer once the bytes below `k` are filled. -/
structure Packed (q : List U8) (k : Nat) (tmp : List U8) : Prop where
  length : tmp.length = q.length
  get : ∀ o, o < q.length → tmp[o]? = some (packedAt q k o)

theorem Packed.start (q : List U8) : Packed q 0 q where
  length := rfl
  get := by
    intro o ho
    rw [packedAt, if_neg (Nat.not_lt_zero o)]
    exact getElem?_eq_getD 0 ho

/-- One byte of the last quarter, in the round `g`. -/
theorem Packed.step {g j : Nat} (h : Packed q (g * (q.length / 4) + j) tmp) (hg : g < 3)
    (hj : j < q.length / 4) : ∃ tmp',
      orInto (shifts.getD g (0, 0)).1 (shifts.getD g (0, 0)).2 tmp (g * (q.length / 4) + j)
        (q.length - q.length / 4 + j) = .ok tmp' ∧ Packed q (g * (q.length / 4) + j + 1) tmp' := by
  have hround : (g + 1) * (q.length / 4) ≤ 3 * (q.length / 4) := Nat.mul_le_mul_right _ hg
  rw [Nat.succ_mul] at hround
  generalize hk : g * (q.length / 4) + j = k at h hround ⊢
  have hklt : k < q.length - q.length / 4 := by omega
  have hi : q.length - q.length / 4 + j < q.length := by omega
  have hhigh : packedAt q k (q.length - q.length / 4 + j) =
      q.getD (q.length - q.length / 4 + j) 0 := if_neg (by omega)
  have hlow : packedAt q k k = q.getD k 0 := if_neg (lt_irrefl k)
  have hdiv : k / (q.length / 4) = g := by
    rw [← hk, Nat.mul_comm, Nat.mul_add_div (by omega), Nat.div_eq_of_lt hj, Nat.add_zero]
  have hmod : k % (q.length / 4) = j := by
    rw [← hk, Nat.mul_comm, Nat.mul_add_mod, Nat.mod_eq_of_lt hj]
  have hfill : fill q k = (q.getD (q.length - q.length / 4 + j) 0 &&& (shifts.getD g (0, 0)).1) <<<
      (shifts.getD g (0, 0)).2 := by
    unfold fill
    dsimp only
    rw [hdiv, hmod]
  refine ⟨tmp.set k (q.getD k 0 ||| fill q k), ?_, by rw [List.length_set, h.length], ?_⟩
  · rw [orInto, h.get _ hi, expect_some, ok_bind, h.get k (by omega),
      expect_some, ok_bind, hhigh, hlow, hfill]
  · intro o ho
    have hlen := h.length
    rw [List.getElem?_set]
    by_cases hok : k = o
    · rw [if_pos hok, if_pos (by omega), packedAt, if_pos (by omega), ← hok]
    · rw [if_neg hok, h.get o ho, packedAt, packedAt]
      by_cases hlt : o < k
      · rw [if_pos hlt, if_pos (by omega)]
      · rw [if_neg hlt, if_neg (by omega)]

theorem packRound_ok {g : Nat} (hg : g < 3) (h : Packed q (g * (q.length / 4)) tmp) :
    ∃ tmp', packRound (q.length - q.length / 4) q.length (tmp, g * (q.length / 4))
        (shifts.getD g (0, 0)) = .ok (tmp', (g + 1) * (q.length / 4)) ∧
      Packed q ((g + 1) * (q.length / 4)) tmp' := by
  have hlen : q.length - (q.length - q.length / 4) = q.length / 4 := by omega
  -- the bytes of the last quarter from `j` on
  suffices hgen : ∀ n j tmp, j + n = q.length / 4 → Packed q (g * (q.length / 4) + j) tmp →
      ∃ tmp', (List.range' (q.length - q.length / 4 + j) n).foldlM (fun s i => do
          let tmp ← orInto (shifts.getD g (0, 0)).1 (shifts.getD g (0, 0)).2 s.1 s.2 i
          .ok (tmp, s.2 + 1)) (tmp, g * (q.length / 4) + j) =
            .ok (tmp', (g + 1) * (q.length / 4)) ∧
        Packed q ((g + 1) * (q.length / 4)) tmp' by
    rw [packRound, hlen]
    exact hgen (q.length / 4) 0 tmp (Nat.zero_add _) h
  intro n
  induction n with
  | zero =>
    intro j tmp hj h
    rw [Nat.add_zero] at hj
    rw [hj, ← Nat.succ_mul] at h
    exact ⟨tmp, by rw [hj, ← Nat.succ_mul]; rfl, h⟩
  | succ n ih =>
    intro j tmp hj h
    obtain ⟨tmp₁, hone, h₁⟩ := h.step hg (by omega)
    rw [List.range'_succ, List.foldlM_cons]
    dsimp only
    rw [hone, ok_bind]
    exact ih (j + 1) tmp₁ (by omega) h₁

/-- The three rounds. -/
theorem pack_ok (q : List U8) : ∃ tmp,
    shifts.foldlM (packRound (q.length - q.length / 4) q.length) (q, 0) =
      .ok (tmp, 3 * (q.length / 4)) ∧ Packed q (3 * (q.length / 4)) tmp := by
  have h₀ : Packed q (0 * (q.length / 4)) q := by
    rw [Nat.zero_mul]
    exact Packed.start q
  obtain ⟨tmp₁, hrun₁, h₁⟩ := packRound_ok (by decide : 0 < 3) h₀
  obtain ⟨tmp₂, hrun₂, h₂⟩ := packRound_ok (by decide : 1 < 3) h₁
  obtain ⟨tmp₃, hrun₃, h₃⟩ := packRound_ok (by decide : 2 < 3) h₂
  refine ⟨tmp₃, ?_, h₃⟩
  rw [Nat.zero_mul] at hrun₁
  change packRound _ _ _ _ = _ at hrun₁ hrun₂ hrun₃
  rw [shifts, List.foldlM_cons]
  erw [hrun₁]
  rw [ok_bind, List.foldlM_cons]
  erw [hrun₂]
  rw [ok_bind, List.foldlM_cons]
  erw [hrun₃]
  rfl

/-! ## Unpacking -/

/-- The top bits of a packed byte. -/
theorem top_bits {a x : U8} (ha : a &&& 0xC0#8 = 0#8) : (a ||| x) &&& 0xC0#8 = x &&& 0xC0#8 := by
  rw [BitVec.and_or_distrib_right, ha, BitVec.zero_or]

theorem moveBack_or {a x : U8} (hx : x &&& 0x3F#8 = 0#8) : moveBack (a ||| x) = moveBack a := by
  have hbits : ∀ x : U8, x &&& 0x3F#8 = 0#8 → x &&& 0x1F#8 = 0#8 ∧ x &&& 0x20#8 = 0#8 := by decide
  obtain ⟨h₁, h₂⟩ := hbits x hx
  rw [moveBack, BitVec.and_or_distrib_right, BitVec.and_or_distrib_right, h₁, h₂, BitVec.or_zero,
    BitVec.or_zero, moveBack]

/-- What is filled in is above the six bits. -/
theorem fill_low (q : List U8) (o : Nat) : fill q o &&& 0x3F#8 = 0#8 := by
  have hbits : ∀ h : U8, ((h &&& 0x30#8) <<< 2) &&& 0x3F#8 = 0#8 ∧
      ((h &&& 0x0c#8) <<< 4) &&& 0x3F#8 = 0#8 ∧ ((h &&& 0x03#8) <<< 6) &&& 0x3F#8 = 0#8 := by decide
  unfold fill
  dsimp only
  generalize q.getD (q.length - q.length / 4 + o % (q.length / 4)) 0 = h
  rcases o / (q.length / 4) with _ | _ | _ | g
  · exact (hbits h).1
  · exact (hbits h).2.1
  · exact (hbits h).2.2
  · simp [shifts]

theorem moveBack_packedAt (q : List U8) (k o : Nat) :
    moveBack (packedAt q k o) = moveBack (q.getD o 0) := by
  rw [packedAt]
  split
  · exact moveBack_or (fill_low q o)
  · rfl

/-- The buffer once `i` bytes of the last quarter are back. -/
structure Unpacked (q : List U8) (i : Nat) (out : List U8) : Prop where
  length : out.length = q.length
  low : ∀ o, o < q.length - q.length / 4 → out[o]? = some (packedAt q (3 * (q.length / 4)) o)
  high : ∀ j, j < i → out[q.length - q.length / 4 + j]? =
    some (q.getD (q.length - q.length / 4 + j) 0)

/-- The bits of one byte come back from the round `g`. -/
theorem packedAt_round {g : Nat} (hg : g < 3) (hi : i < q.length / 4) :
    packedAt q (3 * (q.length / 4)) (g * (q.length / 4) + i) =
      q.getD (g * (q.length / 4) + i) 0 |||
        ((q.getD (q.length - q.length / 4 + i) 0 &&& (shifts.getD g (0, 0)).1) <<<
          (shifts.getD g (0, 0)).2) := by
  have hround : (g + 1) * (q.length / 4) ≤ 3 * (q.length / 4) := Nat.mul_le_mul_right _ hg
  rw [Nat.succ_mul] at hround
  rw [packedAt, if_pos (by omega), fill, Nat.mul_comm g, Nat.mul_add_div (by omega), Nat.div_eq_of_lt hi, Nat.add_zero,
    Nat.mul_add_mod, Nat.mod_eq_of_lt hi]

theorem Unpacked.step (hq : ∀ o, q.getD o 0 &&& 0xC0#8 = 0#8) (h : Unpacked q i out)
    (hi : i < q.length / 4) : ∃ out',
      unpackOne (q.length - q.length / 4) (q.length / 4) out i = .ok out' ∧
        Unpacked q (i + 1) out' := by
  have hlen := h.length
  have hbits : ∀ h : U8, h &&& 0xC0#8 = 0#8 → ((((h &&& 0x30#8) <<< 2) &&& 0xC0#8) >>> 2) |||
      ((((h &&& 0x0c#8) <<< 4) &&& 0xC0#8) >>> 4) ||| ((((h &&& 0x03#8) <<< 6) &&& 0xC0#8) >>> 6) =
        h := by decide
  have h₀ := h.low i (by omega)
  have h₁ := h.low (q.length / 4 + i) (by omega)
  have h₂ := h.low (2 * (q.length / 4) + i) (by omega)
  have hr₀ := packedAt_round (by decide : 0 < 3) hi
  have hr₁ := packedAt_round (by decide : 1 < 3) hi
  have hr₂ := packedAt_round (by decide : 2 < 3) hi
  rw [Nat.zero_mul, Nat.zero_add] at hr₀
  rw [Nat.one_mul] at hr₁
  rw [hr₀] at h₀
  rw [hr₁] at h₁
  rw [hr₂] at h₂
  refine ⟨out.set (q.length - q.length / 4 + i) (q.getD (q.length - q.length / 4 + i) 0), ?_,
    by rw [List.length_set, hlen], ?_, ?_⟩
  · rw [unpackOne, h₀, expect_some, ok_bind, h₁, expect_some,
      ok_bind, Nat.shiftLeft_eq, Nat.mul_comm, h₂, expect_some, ok_bind,
      guardOk_pos (by omega), ok_bind, top_bits (hq _), top_bits (hq _),
      top_bits (hq _)]
    exact congrArg (fun b => Outcome.ok (out.set _ b)) (hbits _ (hq _))
  · intro o ho
    rw [List.getElem?_set_ne (by omega)]
    exact h.low o ho
  · intro j hj
    by_cases hji : j = i
    · rw [hji, List.getElem?_set_self (by omega)]
    · rw [List.getElem?_set_ne (by omega)]
      exact h.high j (by omega)

/-- The loop over the last quarter. -/
theorem unpack_ok (hq : ∀ o, q.getD o 0 &&& 0xC0#8 = 0#8) (h : Unpacked q 0 out) :
    ∃ out', (List.range (q.length / 4)).foldlM
        (unpackOne (q.length - q.length / 4) (q.length / 4)) out = .ok out' ∧
      out'.map moveBack = q.map moveBack := by
  suffices hgen : ∀ n ≤ q.length / 4, ∃ out', (List.range n).foldlM
      (unpackOne (q.length - q.length / 4) (q.length / 4)) out = .ok out' ∧ Unpacked q n out' by
    obtain ⟨out', hrun, hout⟩ := hgen _ le_rfl
    refine ⟨out', hrun, ?_⟩
    apply List.ext_getElem?
    intro o
    rw [List.getElem?_map, List.getElem?_map]
    rcases Nat.lt_or_ge o q.length with ho | ho
    · have hget : q[o]? = some (q.getD o 0) := getElem?_eq_getD 0 ho
      rw [hget]
      rcases Nat.lt_or_ge o (q.length - q.length / 4) with hlow | hhigh
      · rw [hout.low o hlow, Option.map_some, moveBack_packedAt, Option.map_some]
      · have := hout.high (o - (q.length - q.length / 4)) (by omega)
        rw [Nat.add_sub_cancel' hhigh] at this
        rw [this]
    · rw [List.getElem?_eq_none ho, List.getElem?_eq_none (by rw [hout.length]; exact ho)]
  intro n
  induction n with
  | zero => exact fun _ => ⟨out, rfl, h⟩
  | succ n ih =>
    intro hn
    obtain ⟨out₁, hrun, h₁⟩ := ih (by omega)
    obtain ⟨out₂, hone, h₂⟩ := h₁.step hq (by omega)
    refine ⟨out₂, ?_, h₂⟩
    rw [List.range_succ, List.foldlM_append, hrun, ok_bind, List.foldlM_cons, hone]
    rfl

/-! ## Restoring the exceptions -/

/-- The bytes of the input at the places. -/
def patch (input out : List U8) : List Nat → List U8
  | [] => out
  | p :: ps => patch input (out.set p (input.getD p 0)) ps

/-- A buffer that is right but at the places becomes the input. -/
theorem patch_eq {ps : List Nat} (hlen : out.length = input.length)
    (h : ∀ o, o < input.length → o ∈ ps ∨ out[o]? = input[o]?) : patch input out ps = input := by
  induction ps generalizing out with
  | nil =>
    apply List.ext_getElem?
    intro o
    rcases Nat.lt_or_ge o input.length with ho | ho
    · exact (h o ho).resolve_left List.not_mem_nil
    · rw [patch, List.getElem?_eq_none ho, List.getElem?_eq_none (by omega)]
  | cons p ps ih =>
    apply ih (by rw [List.length_set, hlen])
    intro o ho
    by_cases hop : p = o
    · right
      rw [hop, List.getElem?_set_self (by omega)]
      exact (getElem?_eq_getD 0 ho).symm
    · rw [List.getElem?_set_ne hop]
      exact (h o ho).imp_left fun hmem => (List.mem_cons.1 hmem).resolve_left (Ne.symm hop)

/-- The decoder over a list of places. -/
theorem restore_ok {ps : List Nat} (out : List U8) {inp : SliceInput} {tail : List U8}
    (hnear : Near input.length previous ps) (hlen : out.length = input.length)
    (hrest : inp.rest = encodeEntries input previous ps ++ tail) :
    restoreExceptions ps.length previous out inp =
      .ok (patch input out ps, inp.advance (2 * ps.length)) := by
  induction ps generalizing previous out inp with
  | nil =>
    rw [List.length_nil, restoreExceptions, Nat.mul_zero, SliceInput.advance_zero]
    rfl
  | cons p ps ih =>
    obtain ⟨hle, hgap, hlt, hnear⟩ := hnear
    rw [encodeEntries, List.cons_append, List.cons_append] at hrest
    have hrest₁ : (inp.advance 1).rest = _ := SliceInput.rest_advance_append (a := [_]) hrest
    have hrest₂ : ((inp.advance 1).advance 1).rest = encodeEntries input p ps ++ tail :=
      SliceInput.rest_advance_append (a := [_]) hrest₁
    have hdelta : previous + (BitVec.ofNat 8 (p - previous)).toNat = p := by
      rw [BitVec.toNat_ofNat, Nat.mod_eq_of_lt (by omega)]
      omega
    rw [List.length_cons, restoreExceptions, SliceInput.readByte_cons hrest, ok_bind]
    dsimp only
    rw [hdelta, if_neg (by omega), SliceInput.readByte_cons hrest₁, ok_bind]
    dsimp only
    rw [ih _ hnear (by rw [List.length_set, hlen]) hrest₂, patch, SliceInput.advance_advance,
      SliceInput.advance_advance, show 1 + (1 + 2 * ps.length) = 2 * (ps.length + 1) by omega]

/-! ## The round trip -/

theorem sixBits_top (b : U8) : sixBits b &&& 0xC0#8 = 0#8 := by
  have h : ∀ b : U8, sixBits b &&& 0xC0#8 = 0#8 := by decide
  exact h b

/-- A byte that fits is back after the two moves. -/
theorem moveBack_sixBits {b : U8} (hb : isCompressible b = true) : moveBack (sixBits b) = b := by
  have h : ∀ b : U8, isCompressible b = true → moveBack (sixBits b) = b := by decide
  exact h b hb

/-- The packed bytes. -/
def packedBytes (input tmp : List U8) : List U8 := tmp.take (input.length - input.length / 4)

/-- What `compress` appends. -/
def appended (input tmp : List U8) (count : U32) : List U8 :=
  packedBytes input tmp ++ writeVint count ++ encodeEntries input 0 (entries input)

/-- The decoder over what is appended, with the count that it reads. -/
theorem decompress_eq (hpacked : Packed (input.map sixBits) (3 * (input.length / 4)) tmp)
    {count : U32} (hcount : count.toInt.toNat ≤ (entries input).length) {buf : List U8}
    (hbuf : buf.length = input.length) {inp : SliceInput} {tail : List U8}
    (hrest : inp.rest = appended input tmp count ++ tail) :
    decompressLowercaseAscii buf inp = .ok
      (patch input ((input.map sixBits).map moveBack)
        ((entries input).take count.toInt.toNat),
      inp.advance ((packedBytes input tmp).length + (writeVint count).length +
        2 * count.toInt.toNat)) := by
  have hlen := hpacked.length
  rw [List.length_map] at hlen
  have hplen : (packedBytes input tmp).length = input.length - input.length / 4 := by
    rw [packedBytes, List.length_take, hlen]
    omega
  -- the packed bytes over the earlier contents of the buffer
  have hunpacked : Unpacked (input.map sixBits) 0
      (packedBytes input tmp ++ buf.drop (input.length - input.length / 4)) := by
    refine ⟨?_, fun o ho => ?_, fun j hj => absurd hj (Nat.not_lt_zero j)⟩
    · rw [List.length_append, hplen, List.length_drop, hbuf, List.length_map]
      omega
    · rw [List.length_map] at ho ⊢
      rw [List.getElem?_append_left (by omega), packedBytes, List.getElem?_take_of_lt ho]
      exact hpacked.get o (by rw [List.length_map]; omega)
  have hsix : ∀ o, (input.map sixBits).getD o 0 &&& 0xC0#8 = 0#8 := by
    intro o
    rw [List.getD_eq_getElem?_getD, List.getElem?_map]
    cases input[o]? with
    | none => rfl
    | some b => exact sixBits_top b
  obtain ⟨out, hunpack, hmoved⟩ := unpack_ok hsix hunpacked
  rw [List.length_map] at hunpack
  unfold appended at hrest
  rw [List.append_assoc, List.append_assoc] at hrest
  have hread := SliceInput.readN_append hrest
  rw [hplen] at hread
  have hrest₁ := SliceInput.rest_advance_append hrest
  have hvint := reads_readVint count
  rw [← writeVint_eq] at hvint
  have hrest₂ := SliceInput.rest_advance_append hrest₁
  have hsplit : encodeEntries input 0 (entries input) = encodeEntries input 0
      ((entries input).take count.toInt.toNat) ++ encodeEntries input
        (lastOf 0 ((entries input).take count.toInt.toNat))
          ((entries input).drop count.toInt.toNat) := by
    rw [← encodeEntries_append, List.take_append_drop]
  rw [hsplit, List.append_assoc] at hrest₂
  have hnear : Near input.length 0 ((entries input).take count.toInt.toNat) := by
    have hall := entriesFrom_near (n := input.length) input (Nat.le_refl 0) (by omega)
    change Near input.length 0 (entries input) at hall
    rw [← List.take_append_drop count.toInt.toNat (entries input), near_append] at hall
    exact hall.1
  have hrestore := restore_ok (out.map moveBack) hnear
    (by rw [hmoved, List.length_map, List.length_map]) hrest₂
  rw [List.length_take, Nat.min_eq_left hcount, hplen] at hrestore
  have hshift : buf.length >>> 2 = input.length / 4 := by
    rw [hbuf, Nat.shiftRight_eq_div_pow]
  unfold decompressLowercaseAscii
  dsimp only
  rw [hshift, hbuf, hread, ok_bind]
  dsimp only
  rw [hunpack, ok_bind, ← hplen, hvint _ _ hrest₁, ok_bind]
  dsimp only
  rw [hplen, hrestore, hmoved, SliceInput.advance_advance, SliceInput.advance_advance,
    Nat.add_assoc]

/-- The count that the decoder reads is never more than the entries, and all of them
unless it is too large for an `i32`. -/
theorem count_toInt (n : Nat) : (BitVec.ofNat 32 n).toInt.toNat ≤ n ∧
    (n < 2 ^ 31 ↔ (BitVec.ofNat 32 n).toInt.toNat = n) := by
  have hmod := Nat.mod_le n (2 ^ 32)
  have hlt := Nat.mod_lt n (show 0 < 2 ^ 32 by decide)
  rw [BitVec.toInt_eq_toNat_cond, BitVec.toNat_ofNat]
  split <;> omega

/-- What `compress` does with an input that is long enough and has few entries. -/
theorem compress_true (hlen : 8 ≤ input.length)
    (hfew : (entries input).length ≤ input.length / 32) (out : List U8) :
    ∃ tmp, Packed (input.map sixBits) (3 * (input.length / 4)) tmp ∧
      compress input out =
        .ok (true, out ++ appended input tmp (BitVec.ofNat 32 (entries input).length)) := by
  have hcount := count_eq 0 0 input (Nat.zero_le (input.length / 32))
  rw [Nat.zero_add, show entriesFrom 0 0 input = entries input from rfl, if_pos hfew] at hcount
  obtain ⟨⟨num, last⟩, hrun, rfl⟩ := Option.map_eq_some_iff.1 hcount
  obtain ⟨tmp, hpack, hpacked⟩ := pack_ok (input.map sixBits)
  rw [List.length_map] at hpack hpacked
  have htmp := hpacked.length
  rw [List.length_map] at htmp
  have hslice : slice tmp 0 (input.length - input.length / 4) = some (packedBytes input tmp) := by
    rw [slice_eq_some (Nat.zero_le _) (by omega), List.drop_zero, Nat.sub_zero, packedBytes]
  refine ⟨tmp, hpacked, ?_⟩
  unfold compress
  dsimp only
  rw [if_neg (by omega), show input.length >>> 5 = input.length / 32 from
    Nat.shiftRight_eq_div_pow _ _, hrun, show input.length >>> 2 = input.length / 4 from
    Nat.shiftRight_eq_div_pow _ _, hpack]
  dsimp only
  rw [ok_bind]
  dsimp only
  rw [hslice, expect_some, ok_bind]
  split
  next hpos =>
    obtain ⟨last, hwrite⟩ := write_ok (i := 0) input (Nat.le_refl 0) rfl
      (out ++ packedBytes input tmp ++ writeVint (BitVec.ofNat 32 (entries input).length))
    rw [hwrite, ok_bind, appended]
    dsimp only
    rw [List.append_assoc, List.append_assoc, List.append_assoc]
    rfl
  next hnone =>
    have hnil : entries input = [] := List.eq_nil_of_length_eq_zero (by omega)
    rw [appended, hnil, encodeEntries, List.append_nil, List.append_assoc]

/-- What `compress` does with any other input. -/
theorem compress_false (h : input.length < 8 ∨ input.length / 32 < (entries input).length)
    (out : List U8) : compress input out = .ok (false, out) := by
  unfold compress
  dsimp only
  split
  · rfl
  next hlen =>
    have hmany := h.resolve_left hlen
    have hcount := count_eq 0 0 input (Nat.zero_le (input.length / 32))
    rw [Nat.zero_add, show entriesFrom 0 0 input = entries input from rfl,
      if_neg (not_le.2 hmany), Option.map_eq_none_iff] at hcount
    rw [show input.length >>> 5 = input.length / 32 from Nat.shiftRight_eq_div_pow _ _, hcount]

/-- The number of exception entries that the input needs, from the place `i` on: one for
every byte that does not fit, and one for every 255 bytes of a longer gap. -/
def neededFrom (previous i : Nat) : List U8 → Nat
  | [] => 0
  | b :: rest =>
    if isCompressible b then neededFrom previous (i + 1) rest
    else (i - previous - 1) / 0xff + 1 + neededFrom i (i + 1) rest

/-- The exception entries that the input needs. -/
def needed (input : List U8) : Nat := neededFrom 0 0 input

theorem length_entriesFrom (rest : List U8) :
    (entriesFrom previous i rest).length = neededFrom previous i rest := by
  induction rest generalizing previous i with
  | nil => rfl
  | cons b rest ih =>
    rw [entriesFrom, neededFrom]
    split
    · exact ih
    · rw [List.length_append, length_bridges, List.length_cons, ih]
      omega

theorem length_entries (input : List U8) : (entries input).length = needed input :=
  length_entriesFrom input

/-- The contract of `compress` on one input: it refuses exactly the short inputs and those
with too many exceptions, and what it appends is decoded to the input. -/
def Meets (input : List U8) : Prop :=
  ∀ out, ∃ accepted out', compress input out = .ok (accepted, out') ∧
    (accepted = false ↔ input.length < 8 ∨ input.length / 32 < needed input) ∧
    (accepted = false → out' = out) ∧
    (accepted = true → ∃ bytes, out' = out ++ bytes ∧ ∀ buf : List U8,
      buf.length = input.length → Reads (decompressLowercaseAscii buf) bytes input)

theorem meets_of_refused (h : input.length < 8 ∨ input.length / 32 < needed input) :
    Meets input := by
  intro out
  refine ⟨false, out, compress_false (by rwa [length_entries]) out, ?_, fun _ => rfl, ?_⟩
  · simp [h]
  · simp

/-- Every place of the input is an entry or holds a byte that fits. -/
theorem patch_entries (input : List U8) :
    patch input ((input.map sixBits).map moveBack) (entries input) = input := by
  apply patch_eq (by rw [List.length_map, List.length_map])
  intro o ho
  have hget : input[o]? = some (input.getD o 0) := getElem?_eq_getD 0 ho
  by_cases hc : isCompressible (input.getD o 0) = true
  · right
    rw [List.getElem?_map, List.getElem?_map, hget, Option.map_some, Option.map_some,
      moveBack_sixBits hc]
  · left
    have := mem_entriesFrom 0 0 hget (Bool.eq_false_iff.2 hc)
    rwa [Nat.zero_add] at this

theorem meets_of_few (h : needed input < 2 ^ 31) : Meets input := by
  by_cases hno : input.length < 8 ∨ input.length / 32 < needed input
  · exact meets_of_refused hno
  rw [not_or, not_lt, not_lt] at hno
  intro out
  have hfew : (entries input).length ≤ input.length / 32 := by
    rw [length_entries]
    exact hno.2
  obtain ⟨tmp, hpacked, hrun⟩ := compress_true hno.1 hfew out
  refine ⟨true, _, hrun, ?_, by simp, fun _ => ⟨_, rfl, ?_⟩⟩
  · simp only [Bool.true_eq_false, false_iff, not_or, not_lt]
    exact hno
  · intro buf hbuf inp tail hrest
    rw [← length_entries] at h
    have hcount := (count_toInt _).2.1 h
    have hdec := decompress_eq hpacked (count_toInt _).1 hbuf hrest
    rw [hcount, List.take_length, patch_entries] at hdec
    rw [hdec, appended, List.length_append, List.length_append, length_encodeEntries]

theorem not_meets_of_many (h : 2 ^ 31 ≤ needed input) (hfew : needed input ≤ input.length / 32) :
    ¬ Meets input := by
  intro hmeets
  obtain ⟨accepted, out', hrun, -, -, hok⟩ := hmeets []
  have hfew' : (entries input).length ≤ input.length / 32 := by
    rw [length_entries]
    exact hfew
  obtain ⟨tmp, hpacked, hrun'⟩ := compress_true (by omega) hfew' []
  rw [hrun'] at hrun
  cases hrun
  obtain ⟨bytes, hbytes, hreads⟩ := hok rfl
  rw [List.nil_append, List.nil_append] at hbytes
  -- the decoder over exactly the appended bytes
  have hrest : (SliceInput.new bytes).rest = appended input tmp
      (BitVec.ofNat 32 (entries input).length) ++ [] := by
    rw [SliceInput.rest_new, List.append_nil, hbytes]
  have hdec := decompress_eq hpacked (count_toInt _).1 rfl hrest
  have hread := hreads input rfl (SliceInput.new bytes) [] (by simp)
  rw [hread] at hdec
  have hpos := congrArg (fun r => (Prod.snd r).pos) (Outcome.ok.inj hdec)
  dsimp only at hpos
  have hmany : ¬ (entries input).length < 2 ^ 31 := by
    rw [length_entries]
    omega
  have hless := (count_toInt (entries input).length).1
  have hne := mt (count_toInt (entries input).length).2.2 hmany
  have hlen : bytes.length = (packedBytes input tmp).length + (writeVint (BitVec.ofNat 32
      (entries input).length)).length + 2 * (entries input).length := by
    rw [← hbytes, appended, List.length_append, List.length_append, length_encodeEntries]
  rw [SliceInput.pos_advance (by simp), SliceInput.pos_advance (by simp; omega)] at hpos
  omega

/-- `compress` meets its contract exactly when the number of entries is an `i32`, or there
are too many of them anyway. -/
theorem compress_meets (input : List U8) :
    Meets input ↔ needed input < 2 ^ 31 ∨ input.length / 32 < needed input := by
  constructor
  · intro hmeets
    by_contra hno
    rw [not_or, not_lt, not_lt] at hno
    exact not_meets_of_many hno.1 hno.2 hmeets
  · rintro (hfew | hmany)
    · exact meets_of_few hfew
    · exact meets_of_refused (.inr hmany)

/-- Blocks of 32 bytes whose first byte does not fit. -/
def everyThirtySecond : Nat → List U8
  | 0 => []
  | n + 1 => 0xff#8 :: (List.replicate 31 0x61#8 ++ everyThirtySecond n)

theorem length_everyThirtySecond (n : Nat) : (everyThirtySecond n).length = 32 * n := by
  induction n with
  | zero => rfl
  | succ n ih =>
    rw [everyThirtySecond, List.length_cons, List.length_append, List.length_replicate, ih]
    omega

theorem neededFrom_replicate {b : U8} (hb : isCompressible b = true) (k : Nat) (rest : List U8) :
    neededFrom previous i (List.replicate k b ++ rest) = neededFrom previous (i + k) rest := by
  induction k generalizing i with
  | zero => rfl
  | succ k ih =>
    rw [List.replicate_succ, List.cons_append, neededFrom, if_pos hb, ih, Nat.add_right_comm,
      Nat.add_assoc]

theorem neededFrom_everyThirtySecond (hgap : i - previous ≤ 0xff) :
    neededFrom previous i (everyThirtySecond n) = n := by
  induction n generalizing i previous with
  | zero => rfl
  | succ n ih =>
    rw [everyThirtySecond, neededFrom, if_neg (by decide), neededFrom_replicate (by decide),
      ih (by omega)]
    omega

/-- 64 GiB with an exception in every 32 bytes: the count is negative as an `i32`, and the
decoder skips the exceptions. -/
theorem compress_count_overflow : ¬ Meets (everyThirtySecond (2 ^ 31)) := by
  have hneeded : needed (everyThirtySecond (2 ^ 31)) = 2 ^ 31 :=
    neededFrom_everyThirtySecond (Nat.zero_le _)
  apply not_meets_of_many
  · rw [hneeded]
  · rw [hneeded, length_everyThirtySecond, Nat.mul_div_cancel_left _ (by decide)]

end LuceneRust.Codecs.LowercaseAscii
