import LuceneRust.Util.Packed.PackedLongValues

/-!
# A packed buffer returns what was added

* `makePage_spec`: the page that the builder makes of values holds them.
* `Stored` says what a page has to hold for its part of the sequence, and
  `Pages` that every chunk of the sequence is stored in its page.
* `Added` is the invariant of the builder: the pages hold the chunks that are
  full, and the pending values are the rest (`Addition.run_spec`).
* `packedLongValues_returns`: random access and iteration both give back the
  values that were added.
-/

namespace LuceneRust.Util.Packed

open RustSem

/-! ## Signed bounds -/

theorem toInt_minI64 (a b : U64) : (minI64 a b).toInt = min a.toInt b.toInt := by
  unfold minI64
  split <;> omega

theorem toInt_maxI64 (a b : U64) : (maxI64 a b).toInt = max a.toInt b.toInt := by
  unfold maxI64
  split <;> omega

theorem eq_zero_of_toInt {v : U64} (h : v.toInt = 0) : v = 0#64 := by
  apply BitVec.eq_of_toInt_eq
  rw [h]
  rfl

/-- A value of a range without negative values fits what its upper end
needs. -/
theorem toNat_lt_of_le_max {v hi : U64} {w : Nat} (h0 : 0 ≤ v.toInt) (hle : v.toInt ≤ hi.toInt)
    (hw : unsignedBitsRequired hi ≤ w) (h1 : 1 ≤ w) : v.toNat < 2 ^ w := by
  have hhi : hi.toNat < 2 ^ w := (unsignedBitsRequired_le_iff h1).1 hw
  have hv := (nonneg_iff v).1 h0
  have hm := (nonneg_iff hi).1 (Int.le_trans h0 hle)
  rw [BitVec.toInt_eq_toNat_cond, BitVec.toInt_eq_toNat_cond, if_pos (by omega),
    if_pos (by omega)] at hle
  omega

namespace PackedLongValues

/-! ## One page -/

/-- The page holds the values `vs`. -/
def Page.Holds : Page → List U64 → Prop
  | .null n, vs => vs = List.replicate n 0#64
  | .packed m, vs => FixedWidth.Holds m vs

namespace Page

variable {p : Page} {vs arr : List U64} {i : Nat}

theorem Holds.size (h : p.Holds vs) : p.size = vs.length := by
  cases p with
  | null n =>
    have hvs : vs = List.replicate n 0#64 := h
    rw [hvs, List.length_replicate]
    rfl
  | packed m => exact FixedWidth.size_eq h

theorem Holds.get {v : U64} (h : p.Holds vs) (hv : vs[i]? = some v) : p.get i = .ok v := by
  cases p with
  | null n =>
    have hvs : vs = List.replicate n 0#64 := h
    rw [hvs] at hv
    rw [List.eq_of_mem_replicate (List.mem_of_getElem? hv)]
    rfl
  | packed m => exact FixedWidth.get_spec h hv

theorem Holds.getBulk (h : p.Holds vs) (hi : i < vs.length) (hne : arr ≠ []) :
    ∃ n, 0 < n ∧ n ≤ arr.length ∧ i + n ≤ vs.length ∧
      p.getBulk i arr = .ok ((vs.drop i).take n ++ arr.drop n, n) := by
  cases p with
  | null n =>
    have hvs : vs = List.replicate n 0#64 := h
    have hlen : vs.length = n := by rw [hvs, List.length_replicate]
    have harr := List.length_pos_iff.2 hne
    refine ⟨min arr.length (n - i), by omega, by omega, by omega, ?_⟩
    dsimp only [Page.getBulk]
    rw [guardOk_pos hne, ok_bind, guardOk_pos (by omega), ok_bind,
      hvs, List.drop_replicate, List.take_replicate,
      Nat.min_eq_left (Nat.min_le_right arr.length (n - i))]
  | packed m => exact FixedWidth.getBulk_spec h hi hne

end Page

/-- The bulk reads fill the slots up to the size of the page. -/
theorem iterate_readPass {p : Page} {vs : List U64} (h : p.Holds vs) {dest : List U64}
    (hlen : vs.length ≤ dest.length) :
    iterate (readPass p) (p.size + 1) (0, dest) = .ok (vs ++ dest.drop vs.length) := by
  have hrun := iterate_ok (readPass p)
    (fun s => s.1 ≤ vs.length ∧ s.2.length = dest.length ∧
      s.2.take s.1 = vs.take s.1 ∧ s.2.drop vs.length = dest.drop vs.length)
    (fun s => vs.length - s.1) (fun d => d = vs ++ dest.drop vs.length) ?_ (p.size + 1) (0, dest)
    ⟨Nat.zero_le _, rfl, rfl, rfl⟩ (by rw [h.size]; exact Nat.lt_succ_self _)
  · obtain ⟨d, hd, rfl⟩ := hrun
    exact hd
  rintro ⟨k, d⟩ ⟨hk, hd, htake, hdrop⟩
  unfold readPass
  dsimp only at hk hd htake hdrop ⊢
  rw [h.size]
  by_cases hlt : k < vs.length
  · left
    have hslots : slice d k vs.length = some ((d.drop k).take (vs.length - k)) :=
      slice_eq_some hk (by omega)
    have hne : (d.drop k).take (vs.length - k) ≠ [] := by
      rw [← List.length_pos_iff, List.length_take, List.length_drop]
      omega
    obtain ⟨n, hn, hnle, hin, hget⟩ := h.getBulk hlt hne
    have hsl : ((d.drop k).take (vs.length - k)).length = vs.length - k := by
      rw [List.length_take, List.length_drop]
      omega
    have hvals : ((vs.drop k).take n).length = n := by
      rw [List.length_take, List.length_drop]
      omega
    have hnew : ((vs.drop k).take n ++ ((d.drop k).take (vs.length - k)).drop n).length =
        vs.length - k := by
      rw [List.length_append, hvals, List.length_drop, hsl]
      omega
    refine ⟨(k + n, splice d k ((vs.drop k).take n ++
      ((d.drop k).take (vs.length - k)).drop n)), ?_, ⟨hin, ?_, ?_, ?_⟩, ?_⟩
    · rw [if_pos hlt, hslots, expect_some, ok_bind, hget, ok_bind]
    · rw [splice_length (by omega)]
      exact hd
    · have hhead := splice_take_left d ((vs.drop k).take n)
        (((d.drop k).take (vs.length - k)).drop n) (i := k) (by omega)
      rw [hvals] at hhead
      rw [hhead, htake, take_append_take_drop]
    · rw [splice_drop (by omega) (by omega)]
      exact hdrop
    · dsimp only
      omega
  · right
    have hkl : k = vs.length := by omega
    refine ⟨d, if_neg hlt, ?_⟩
    rw [hkl, List.take_length] at htake
    calc d = d.take vs.length ++ d.drop vs.length := (List.take_append_drop _ _).symm
      _ = vs ++ dest.drop vs.length := by rw [htake, hdrop]

end PackedLongValues

namespace PackedLongValuesBuilder

open PackedLongValues

variable {values : List U64}

theorem foldl_bounds (l : List U64) : ∀ (lo hi : U64) (s : U64 × U64),
    l.foldl (fun s v => (minI64 s.1 v, maxI64 s.2 v)) (lo, hi) = s →
      s.1.toInt ≤ lo.toInt ∧ hi.toInt ≤ s.2.toInt ∧
        ∀ v ∈ l, s.1.toInt ≤ v.toInt ∧ v.toInt ≤ s.2.toInt := by
  induction l with
  | nil =>
    rintro lo hi _ rfl
    exact ⟨Int.le_refl _, Int.le_refl _, fun v hv => absurd hv List.not_mem_nil⟩
  | cons a l ih =>
    intro lo hi s hs
    obtain ⟨hlo, hhi, hall⟩ := ih _ _ s hs
    dsimp only at hlo hhi
    rw [toInt_minI64] at hlo
    rw [toInt_maxI64] at hhi
    refine ⟨by omega, by omega, ?_⟩
    intro v hv
    rcases List.mem_cons.1 hv with rfl | hv
    · exact ⟨by omega, by omega⟩
    · exact hall v hv

theorem bounds_spec (hne : values ≠ []) : ∃ s, bounds values = .ok s ∧
    ∀ v ∈ values, s.1.toInt ≤ v.toInt ∧ v.toInt ≤ s.2.toInt := by
  cases values with
  | nil => exact absurd rfl hne
  | cons a l =>
    refine ⟨_, rfl, ?_⟩
    obtain ⟨hlo, hhi, hall⟩ := foldl_bounds l a a _ rfl
    intro v hv
    rcases List.mem_cons.1 hv with rfl | hv
    · exact ⟨hlo, hhi⟩
    · exact hall v hv

/-- The width of a page that is not all zeros is a width, and all values of
the page fit it. -/
theorem pageBits_spec {lo hi : U64} (hne : values ≠ [])
    (hall : ∀ v ∈ values, lo.toInt ≤ v.toInt ∧ v.toInt ≤ hi.toInt) :
    ∃ w, pageBits lo hi = .ok w ∧ 1 ≤ w ∧ w ≤ 64 ∧ ∀ v ∈ values, v.toNat < 2 ^ w := by
  unfold pageBits
  by_cases hneg : lo.toInt < 0
  · rw [if_pos hneg]
    exact ⟨64, rfl, by decide, Nat.le_refl _, fun v _ => v.isLt⟩
  · obtain ⟨v, hv⟩ := List.exists_mem_of_ne_nil values hne
    have hpos : ¬ hi.toInt < 0 := by
      have := hall v hv
      omega
    have h1 : 1 ≤ unsignedBitsRequired hi := Nat.le_max_right _ _
    rw [if_neg hneg, bitsRequired, if_neg hpos, expect_some]
    refine ⟨_, rfl, h1, (unsignedBitsRequired_le_iff (by decide)).2 hi.isLt, ?_⟩
    intro v hv
    obtain ⟨hlo, hhi⟩ := hall v hv
    exact toNat_lt_of_le_max (by omega) hhi (Nat.le_refl _) h1

/-- The page that is made of values holds them. -/
theorem makePage_spec (overhead : Nat → Int) (hne : values ≠ []) (halloc : 8 * values.length ≤ maxAlloc) :
    ∃ p, makePage overhead values = .ok p ∧ p.Holds values := by
  obtain ⟨⟨lo, hi⟩, hb, hall⟩ := bounds_spec hne
  unfold makePage
  rw [hb, ok_bind]
  dsimp only at hall ⊢
  by_cases hz : lo = 0#64 ∧ hi = 0#64
  · obtain ⟨rfl, rfl⟩ := hz
    refine ⟨_, if_pos ⟨rfl, rfl⟩, ?_⟩
    apply List.eq_replicate_iff.2 ⟨rfl, ?_⟩
    intro v hv
    have hv0 := hall v hv
    rw [BitVec.toInt_zero] at hv0
    exact eq_zero_of_toInt (by omega)
  · obtain ⟨w, hw, h1, h64, hfit⟩ := pageBits_spec hne hall
    obtain ⟨m, hm, hzero, hwide⟩ := GrowableWriter.getMutable_spec overhead h1 h64 halloc
    obtain ⟨m', hset, hrep, -⟩ := iterate_setAllPass (M := PackedMutable) (values.length + 1) m 0 values
      (List.replicate values.length 0#64) hzero (by simp)
      (fun v hv => (hfit v hv).trans_le (Nat.pow_le_pow_right (by decide) hwide))
      (Nat.lt_succ_self _)
    have hall' : splice (List.replicate values.length 0#64) 0 values = values := by
      simp [splice]
    rw [hall'] at hrep
    refine ⟨.packed m', ?_, hrep⟩
    rw [if_neg hz, hw, ok_bind, hm, ok_bind, hset, ok_bind]

end PackedLongValuesBuilder

/-! ## The pages of a sequence -/

namespace PackedLongValues

variable {F : Type} (fl : FloatOps F)

/-- The differences from the line. -/
def belowLine (average : F) (c : List U64) : List U64 :=
  c.mapIdx fun i v => v - expected fl 0#64 average (BitVec.ofNat 64 i)

/-- The differences from one value. -/
def above (min : U64) (c : List U64) : List U64 := c.map fun v => v - min

/-- What page `j` has to hold for the values `c`. -/
def Differences (kind : Kind) (mins : List U64) (averages : List F) (j : Nat)
    (c raws : List U64) : Prop :=
  match kind with
  | .packed => raws = c
  | .deltaPacked => ∃ min, mins[j]? = some min ∧ raws = above min c
  | .monotonic => ∃ min average, mins[j]? = some min ∧ averages[j]? = some average ∧
      raws = above min (belowLine fl average c)

/-- Page `j` stores the values `c`. -/
def Stored (kind : Kind) (values : List Page) (mins : List U64) (averages : List F) (j : Nat)
    (c : List U64) : Prop :=
  ∃ page raws, values[j]? = some page ∧ page.Holds raws ∧
    Differences fl kind mins averages j c raws

/-- The pages store the chunks of `vs`. -/
structure Pages (n : Nat) (kind : Kind) (values : List Page) (mins : List U64)
    (averages : List F) (vs : List U64) : Prop where
  count : values.length = (chunks n vs).length
  minCount : kind ≠ .packed → mins.length = values.length
  averageCount : kind = .monotonic → averages.length = values.length
  stored : ∀ j c, (chunks n vs)[j]? = some c → Stored fl kind values mins averages j c

variable {fl} {kind : Kind} {values : List Page} {mins : List U64} {averages : List F} {j n : Nat}
  {c raws vs : List U64}

theorem getElem?_append_of_some {α : Type} {l : List α} {i : Nat} {a : α} (h : l[i]? = some a)
    (l' : List α) : (l ++ l')[i]? = some a := by
  rw [List.getElem?_append_left (List.getElem?_eq_some_iff.1 h).1]
  exact h

theorem Differences.length (h : Differences fl kind mins averages j c raws) :
    raws.length = c.length := by
  cases kind with
  | packed => exact congrArg List.length h
  | deltaPacked =>
    obtain ⟨min, -, rfl⟩ := h
    exact List.length_map _
  | monotonic =>
    obtain ⟨min, average, -, -, rfl⟩ := h
    rw [above, belowLine, List.length_map, List.length_mapIdx]

theorem Differences.append (h : Differences fl kind mins averages j c raws) (mins' : List U64)
    (averages' : List F) : Differences fl kind (mins ++ mins') (averages ++ averages') j c raws := by
  cases kind with
  | packed => exact h
  | deltaPacked =>
    obtain ⟨min, hmin, hraws⟩ := h
    exact ⟨min, getElem?_append_of_some hmin _, hraws⟩
  | monotonic =>
    obtain ⟨min, average, hmin, havg, hraws⟩ := h
    exact ⟨min, average, getElem?_append_of_some hmin _, getElem?_append_of_some havg _, hraws⟩

theorem Stored.append (h : Stored fl kind values mins averages j c) (values' : List Page)
    (mins' : List U64) (averages' : List F) :
    Stored fl kind (values ++ values') (mins ++ mins') (averages ++ averages') j c := by
  obtain ⟨page, raws, hpage, hholds, hdiff⟩ := h
  exact ⟨page, raws, getElem?_append_of_some hpage _, hholds, hdiff.append mins' averages'⟩

/-- One more chunk after full ones. -/
theorem chunks_append_last {n : Nat} (hn : 0 < n) {l c : List U64} (hdvd : n ∣ l.length)
    (hne : c ≠ []) (hc : c.length ≤ n) : chunks n (l ++ c) = chunks n l ++ [c] := by
  obtain ⟨k, hk⟩ := hdvd
  have hpos := List.length_pos_iff.2 hne
  have hone : (l.length + n - 1) / n = k := by
    rw [hk]
    apply Nat.div_eq_of_lt_le
    · rw [Nat.mul_comm]
      omega
    · rw [Nat.succ_mul, Nat.mul_comm]
      omega
  have htwo : ((l ++ c).length + n - 1) / n = k + 1 := by
    rw [List.length_append, hk]
    apply Nat.div_eq_of_lt_le
    · rw [Nat.succ_mul, Nat.mul_comm]
      omega
    · rw [Nat.succ_mul, Nat.succ_mul, Nat.mul_comm]
      omega
  rw [chunks, chunks, hone, htwo, List.range_succ, List.map_append]
  congr 1
  · apply List.map_congr_left
    intro b hb
    have hlt := List.mem_range.1 hb
    have hmul : (b + 1) * n ≤ k * n := Nat.mul_le_mul_right n hlt
    rw [Nat.succ_mul, Nat.mul_comm k] at hmul
    rw [List.drop_append_of_le_length (by omega), List.take_append_of_le_length]
    rw [List.length_drop]
    omega
  · rw [List.map_singleton, Nat.mul_comm, ← hk, List.drop_left, List.take_of_length_le hc]

/-- A page behind full ones. -/
theorem Pages.push (h : Pages fl n kind values mins averages vs) (hn : 0 < n)
    (hdvd : n ∣ vs.length) (hne : c ≠ []) (hc : c.length ≤ n) {page : Page} {min : List U64}
    {average : List F} (hmin : kind ≠ .packed → min.length = 1)
    (havg : kind = .monotonic → average.length = 1)
    (hstored : Stored fl kind (values ++ [page]) (mins ++ min) (averages ++ average)
      values.length c) :
    Pages fl n kind (values ++ [page]) (mins ++ min) (averages ++ average) (vs ++ c) := by
  have hchunks := chunks_append_last hn hdvd hne hc
  refine ⟨?_, ?_, ?_, ?_⟩
  · rw [hchunks, List.length_append, List.length_append, h.count]
    rfl
  · intro hk
    rw [List.length_append, List.length_append, h.minCount hk, hmin hk]
    rfl
  · intro hk
    rw [List.length_append, List.length_append, h.averageCount hk, havg hk]
    rfl
  · intro j d hd
    rw [hchunks] at hd
    rcases Nat.lt_or_ge j (chunks n vs).length with hlt | hge
    · rw [List.getElem?_append_left hlt] at hd
      exact (h.stored j d hd).append _ _ _
    · rw [List.getElem?_append_right hge, List.getElem?_singleton] at hd
      split at hd
      · cases hd
        have hj : j = values.length := by
          rw [h.count]
          omega
        rwa [hj]
      · cases hd

/-! ## Reading -/

/-- The buffer holds the values `vs` in pages of `n`. -/
structure Holds (fl : FloatOps F) (n : Nat) (v : PackedLongValues F) (vs : List U64) : Prop where
  pages : Pages fl n v.kind v.values v.mins v.averages vs
  shift : n = 2 ^ v.pageShift
  mask : v.pageMask = n - 1
  size : v.size = vs.length
  alloc : 8 * n ≤ maxAlloc

variable {v : PackedLongValues F}

theorem getIn_spec {chunk : List U64} {i : Nat} {x : U64}
    (h : Stored fl v.kind v.values v.mins v.averages j chunk) (hx : chunk[i]? = some x) :
    v.getIn fl j i = .ok x := by
  obtain ⟨page, raws, hpage, hholds, hdiff⟩ := h
  unfold getIn
  rw [hpage, expect_some, ok_bind]
  cases hk : v.kind with
  | packed =>
    rw [hk] at hdiff
    have hraws : raws = chunk := hdiff
    rw [hholds.get (hraws ▸ hx), ok_bind]
  | deltaPacked =>
    rw [hk] at hdiff
    obtain ⟨min, hmin, hraws⟩ := hdiff
    have hraw : raws[i]? = some (x - min) := by
      rw [hraws, above, List.getElem?_map, hx]
      rfl
    rw [hholds.get hraw, ok_bind]
    dsimp only
    rw [hmin, expect_some, ok_bind, BitVec.add_comm, BitVec.sub_add_cancel]
  | monotonic =>
    rw [hk] at hdiff
    obtain ⟨min, average, hmin, havg, hraws⟩ := hdiff
    have hraw : raws[i]? = some (x - expected fl 0#64 average (BitVec.ofNat 64 i) - min) := by
      rw [hraws, above, belowLine, List.getElem?_map, List.getElem?_mapIdx, hx]
      rfl
    rw [hholds.get hraw, ok_bind]
    dsimp only
    rw [hmin, expect_some, ok_bind, havg, expect_some, ok_bind]
    congr 1
    unfold expected
    grind

/-- `get` returns the value at an index. -/
theorem get_spec (h : Holds fl n v vs) {i : Nat} {x : U64} (hx : vs[i]? = some x) :
    v.get fl i = .ok x := by
  have hi : i < vs.length := (List.getElem?_eq_some_iff.1 hx).1
  have hn : 0 < n := h.shift ▸ Nat.two_pow_pos _
  have hblock : i >>> v.pageShift = i / n := by rw [Nat.shiftRight_eq_div_pow, h.shift]
  have helement : i &&& v.pageMask = i % n := by
    rw [h.mask, h.shift, Nat.and_two_pow_sub_one_eq_mod]
  have hin : ((vs.drop (i / n * n)).take n)[i % n]? = some x := by
    rw [List.getElem?_take_of_lt (Nat.mod_lt i hn), List.getElem?_drop, Nat.mul_comm,
      Nat.div_add_mod, hx]
  unfold get
  rw [h.size, guardOk_pos hi, ok_bind, hblock, helement]
  exact getIn_spec (h.pages.stored _ _ (chunks_getElem? hn hi)) hin

/-- The decoding undoes the differences. -/
theorem decodeValues_spec {chunk : List U64} (h : Differences fl v.kind v.mins v.averages j chunk raws) :
    v.decodeValues fl j raws = .ok chunk := by
  unfold decodeValues
  cases hk : v.kind with
  | packed =>
    rw [hk] at h
    exact congrArg Outcome.ok h
  | deltaPacked =>
    rw [hk] at h
    obtain ⟨min, hmin, rfl⟩ := h
    dsimp only
    rw [hmin, expect_some, ok_bind, above, List.map_map]
    congr 1
    have hid : (fun d => d + min) ∘ (fun v => v - min) = (id : U64 → U64) := by
      funext d
      exact BitVec.sub_add_cancel d min
    rw [hid, List.map_id]
  | monotonic =>
    rw [hk] at h
    obtain ⟨min, average, hmin, havg, rfl⟩ := h
    dsimp only
    rw [hmin, expect_some, ok_bind, havg, expect_some, ok_bind,
      above, belowLine]
    congr 1
    apply List.ext_getElem?
    intro i
    rw [List.getElem?_mapIdx, List.getElem?_map, List.getElem?_map, List.getElem?_mapIdx]
    cases chunk[i]? with
    | none => rfl
    | some d =>
      simp only [Option.map_some]
      congr 1
      grind

/-- `decode_block` puts the values of a page into the slots. -/
theorem decodeBlock_spec (h : Stored fl v.kind v.values v.mins v.averages j c)
    {dest : List U64} (hlen : c.length ≤ dest.length) :
    v.decodeBlock fl j dest = .ok (c ++ dest.drop c.length, c.length) := by
  obtain ⟨page, raws, hpage, hholds, hdiff⟩ := h
  have hraws := hdiff.length
  have hsize := hholds.size
  have hhead : slice (raws ++ dest.drop raws.length) 0 raws.length = some raws := by
    rw [slice_eq_some (Nat.zero_le _) (by rw [List.length_append]; omega), List.drop_zero,
      Nat.sub_zero, List.take_left]
  unfold decodeBlock
  rw [hpage, expect_some, ok_bind]
  dsimp only
  rw [iterate_readPass hholds (by omega), ok_bind, hsize, hhead, expect_some, ok_bind, decodeValues_spec hdiff,
    ok_bind]
  rw [splice, List.take_zero, List.nil_append, Nat.zero_add, ← hraws, List.drop_left]

/-! ## Iterating -/

/-- The iterator has the values `rest` before it. -/
structure Iter.At (fl : FloatOps F) (n : Nat) (vs : List U64) (it : Iter F) (rest : List U64) :
    Prop where
  owner : Holds fl n it.owner vs
  room : ∀ c ∈ chunks n vs, c.length ≤ it.currentValues.length
  /-- Nothing is left, or the current chunk is decoded and not all read. -/
  position : (rest = [] ∧ it.currentCount ≤ it.pOff) ∨
    ∃ c later, (chunks n vs).drop it.vOff = c :: later ∧ it.currentCount = c.length ∧
      it.currentValues.take c.length = c ∧ it.pOff < c.length ∧
      rest = c.drop it.pOff ++ later.flatten

variable {it : Iter F} {rest : List U64}

theorem fillBlock_spec (it : Iter F) (h : Holds fl n it.owner vs)
    (hroom : ∀ c ∈ chunks n vs, c.length ≤ it.currentValues.length)
    (hoff : it.vOff ≤ (chunks n vs).length) (hp : it.pOff = 0) :
    ∃ it', it.fillBlock fl = .ok it' ∧
      Iter.At fl n vs it' ((chunks n vs).drop it.vOff).flatten := by
  unfold Iter.fillBlock
  rw [h.pages.count]
  by_cases hend : it.vOff = (chunks n vs).length
  · refine ⟨_, if_pos hend, h, hroom, Or.inl ⟨?_, Nat.zero_le _⟩⟩
    rw [hend, List.drop_length, List.flatten_nil]
  · have hlt : it.vOff < (chunks n vs).length := by omega
    obtain ⟨c, hc⟩ : ∃ c, (chunks n vs)[it.vOff]? = some c :=
      ⟨_, List.getElem?_eq_getElem hlt⟩
    have hmem := List.mem_of_getElem? hc
    have hn : 0 < n := h.shift ▸ Nat.two_pow_pos _
    have hpos : 0 < c.length := List.length_pos_iff.2 (chunks_mem hn hmem).1
    have hdrop : (chunks n vs).drop it.vOff = c :: (chunks n vs).drop (it.vOff + 1) := by
      rw [List.drop_eq_getElem_cons hlt]
      rw [List.getElem?_eq_getElem hlt] at hc
      rw [Option.some.inj hc]
    rw [if_neg hend, decodeBlock_spec (h.pages.stored _ _ hc) (hroom c hmem), ok_bind]
    dsimp only
    rw [guardOk_pos hpos, ok_bind]
    refine ⟨_, rfl, h, ?_, Or.inr ⟨c, _, hdrop, rfl, List.take_left, ?_, ?_⟩⟩
    · intro d hd
      have hd' := hroom d hd
      have hc' := hroom c hmem
      rw [List.length_append, List.length_drop]
      omega
    · dsimp only
      omega
    · dsimp only
      rw [hp, List.drop_zero, hdrop, List.flatten_cons]

/-- `next` at the end. -/
theorem next_none (h : Iter.At fl n vs it []) : it.next fl = .ok (none, it) := by
  apply if_pos
  rcases h.position with ⟨-, hend⟩ | ⟨c, later, -, -, -, hlt, hrest⟩
  · exact hend
  · have hlen := congrArg List.length hrest
    rw [List.length_append, List.length_drop, List.length_nil] at hlen
    omega

/-- `next` before a value. -/
theorem next_some {x : U64} (h : Iter.At fl n vs it (x :: rest)) :
    ∃ it', it.next fl = .ok (some x, it') ∧ Iter.At fl n vs it' rest := by
  rcases h.position with ⟨hnil, -⟩ | ⟨chunk, later, hdrop, hcount, hcur, hlt, hrest⟩
  · cases hnil
  have hx : x = chunk[it.pOff] ∧ rest = chunk.drop (it.pOff + 1) ++ later.flatten := by
    rw [List.drop_eq_getElem_cons hlt, List.cons_append] at hrest
    exact List.cons.inj hrest
  have hget : it.currentValues[it.pOff]? = some x := by
    rw [← List.getElem?_take_of_lt hlt, hcur, List.getElem?_eq_getElem hlt, hx.1]
  have hvoff : it.vOff < (chunks n vs).length := by
    have hlen := congrArg List.length hdrop
    rw [List.length_drop, List.length_cons] at hlen
    omega
  have hadv : ∃ it', it.advance fl = .ok it' ∧ Iter.At fl n vs it' rest := by
    unfold Iter.advance
    by_cases hlast : it.pOff + 1 = it.currentCount
    · rw [if_pos hlast]
      obtain ⟨it', hfill, hat⟩ := fillBlock_spec { it with vOff := it.vOff + 1, pOff := 0 }
        h.owner h.room hvoff rfl
      refine ⟨it', hfill, ?_⟩
      have hlater : (chunks n vs).drop (it.vOff + 1) = later := by
        rw [← List.drop_drop, hdrop]
        rfl
      have hrest' : rest = later.flatten := by
        rw [hx.2, hlast, hcount, List.drop_length, List.nil_append]
      rw [hrest', ← hlater]
      exact hat
    · rw [if_neg hlast]
      refine ⟨_, rfl, h.owner, h.room, Or.inr ⟨chunk, later, hdrop, hcount, hcur, ?_, hx.2⟩⟩
      dsimp only
      omega
  obtain ⟨it', hadv, hat⟩ := hadv
  refine ⟨it', ?_, hat⟩
  unfold Iter.next
  rw [if_neg (by omega), hget, expect_some, ok_bind, hadv, ok_bind]

/-- The calls of `next` return the values that are left, and then none. -/
theorem nexts_spec (k : Nat) : ∀ (it : Iter F) (rest : List U64), Iter.At fl n vs it rest →
    it.nexts fl k = .ok ((List.range k).map (rest[·]?)) := by
  induction k with
  | zero => exact fun _ _ _ => rfl
  | succ k ih =>
    intro it rest h
    unfold Iter.nexts
    rw [List.range_succ_eq_map, List.map_cons, List.map_map]
    cases rest with
    | nil =>
      rw [next_none h, ok_bind]
      dsimp only
      rw [ih it [] h, ok_bind]
      congr 1
    | cons x rest =>
      obtain ⟨it', hnext, h'⟩ := next_some h
      rw [hnext, ok_bind]
      dsimp only
      rw [ih it' rest h', ok_bind]
      rfl

/-- `iter` starts before all values. -/
theorem iter_spec (h : Holds fl n v vs) :
    ∃ it, v.iter fl = .ok it ∧ Iter.At fl n vs it vs := by
  have hn : 0 < n := h.shift ▸ Nat.two_pow_pos _
  have hcap : min v.size (v.pageMask + 1) = min vs.length n := by
    rw [h.size, h.mask, Nat.sub_add_cancel hn]
  have halloc := h.alloc
  unfold iter
  dsimp only
  rw [hcap, vecZeroed_ok (by omega), ok_bind]
  have hroom : ∀ c ∈ chunks n vs,
      c.length ≤ (List.replicate (min vs.length n) (0#64 : U64)).length := by
    intro c hc
    rw [List.length_replicate]
    have hle := (chunks_mem hn hc).2
    have hsum := (List.sublist_flatten_of_mem hc).length_le
    rw [chunks_flatten hn] at hsum
    omega
  obtain ⟨it, hfill, hat⟩ := fillBlock_spec
    ⟨v, List.replicate (min vs.length n) 0#64, 0, 0, 0⟩ h hroom (Nat.zero_le _) rfl
  refine ⟨it, hfill, ?_⟩
  rw [List.drop_zero, chunks_flatten hn] at hat
  exact hat

end PackedLongValues

/-! ## Building -/

namespace PackedLongValuesBuilder

open PackedLongValues

variable {F : Type} {fl : FloatOps F} {b : PackedLongValuesBuilder F} {n : Nat}
  {full cur c vs pending : List U64}

theorem averageOf_ok (fl : FloatOps F) (hne : c ≠ []) : ∃ a, averageOf fl c = .ok a := by
  have hpos := List.length_pos_iff.2 hne
  unfold averageOf
  dsimp only
  split
  · exact ⟨_, rfl⟩
  · rw [sub_of_le hpos, ok_bind, List.getElem?_eq_getElem (by omega : c.length - 1 < c.length),
      expect_some, ok_bind, List.getElem?_eq_getElem hpos, expect_some,
      ok_bind]
    exact ⟨_, rfl⟩

theorem packDelta_spec (b : PackedLongValuesBuilder F) (hne : c ≠ []) :
    ∃ min, b.packDelta c = .ok ({ b with mins := b.mins ++ [min] }, above min c) := by
  cases c with
  | nil => exact absurd rfl hne
  | cons x l => exact ⟨_, rfl⟩

/-- The values that a page gets, and what the builder keeps to undo it. -/
theorem packDifferences_spec
    (h : Pages fl n b.kind b.values b.mins b.averages vs) (hne : c ≠ []) :
    ∃ min average raws, b.packDifferences fl c =
        .ok ({ b with mins := b.mins ++ min, averages := b.averages ++ average }, raws) ∧
      (b.kind ≠ .packed → min.length = 1) ∧ (b.kind = .monotonic → average.length = 1) ∧
      Differences fl b.kind (b.mins ++ min) (b.averages ++ average) b.values.length c raws := by
  have hmins := h.minCount
  have haverages := h.averageCount
  unfold packDifferences
  obtain ⟨kind, pageShift, pageMask, overhead, pending, size, values, mins, averages, off⟩ := b
  dsimp only at hmins haverages ⊢
  cases kind with
  | packed =>
    refine ⟨[], [], c, ?_, fun hk => absurd rfl hk, ?_, rfl⟩
    · rw [List.append_nil, List.append_nil]
    · intro hk
      cases hk
  | deltaPacked =>
    obtain ⟨min, hdelta⟩ := packDelta_spec ⟨.deltaPacked, pageShift, pageMask, overhead, pending,
      size, values, mins, averages, off⟩ hne
    refine ⟨[min], [], _, ?_, fun _ => rfl, ?_, min, ?_, rfl⟩
    · rw [List.append_nil]
      exact hdelta
    · intro hk
      cases hk
    · rw [← hmins (by decide), List.getElem?_concat_length]
  | monotonic =>
    obtain ⟨average, havg⟩ := averageOf_ok fl hne
    have hline : belowLine fl average c ≠ [] := by
      rw [← List.length_pos_iff, belowLine, List.length_mapIdx]
      exact List.length_pos_iff.2 hne
    obtain ⟨min, hdelta⟩ := packDelta_spec ⟨.monotonic, pageShift, pageMask, overhead, pending,
      size, values, mins, averages ++ [average], off⟩ hline
    refine ⟨[min], [average], _, ?_, fun _ => rfl, fun _ => rfl, min, average, ?_, ?_, rfl⟩
    · dsimp only [packMonotonic]
      rw [havg, ok_bind, ok_bind]
      exact hdelta
    · rw [← hmins (by decide), List.getElem?_concat_length]
    · rw [← haverages rfl, List.getElem?_concat_length]

/-- Packing values stores them in a new page behind full ones. -/
theorem packValues_spec (h : Pages fl n b.kind b.values b.mins b.averages vs) (hn : 0 < n)
    (hdvd : n ∣ vs.length) (hne : c ≠ []) (hc : c.length ≤ n) (halloc : 8 * n ≤ maxAlloc) :
    ∃ values mins averages raws, b.packValues fl c =
        .ok ({ b with values := values, mins := mins, averages := averages }, raws) ∧
      raws.length = c.length ∧ Pages fl n b.kind values mins averages (vs ++ c) := by
  obtain ⟨min, average, raws, hpack, hmin, havg, hdiff⟩ := packDifferences_spec h hne
  have hlen := hdiff.length
  have hrne : raws ≠ [] := by
    rw [← List.length_pos_iff, hlen]
    exact List.length_pos_iff.2 hne
  obtain ⟨page, hpage, hholds⟩ := makePage_spec b.overhead hrne (by omega)
  refine ⟨b.values ++ [page], b.mins ++ min, b.averages ++ average, raws, ?_, hlen,
    h.push hn hdvd hne hc hmin havg ⟨page, raws, List.getElem?_concat_length, hholds, hdiff⟩⟩
  unfold packValues
  rw [guardOk_pos hne, ok_bind, hpack, ok_bind]
  dsimp only
  rw [hpage, ok_bind]

/-- The pages hold the values `full`, a multiple of the page size, and `cur`
is pending. -/
structure Holds (fl : FloatOps F) (n : Nat) (b : PackedLongValuesBuilder F)
    (full cur : List U64) : Prop where
  pages : Pages fl n b.kind b.values b.mins b.averages full
  whole : n ∣ full.length
  pending : ∃ p, b.pending = some p ∧ p.length = n ∧ p.take b.pendingOff = cur
  pendingOff : b.pendingOff = cur.length
  size : b.size = full.length + cur.length
  shift : n = 2 ^ b.pageShift
  mask : b.pageMask = n - 1
  alloc : 8 * n ≤ maxAlloc

/-- The values `vs` were added. -/
def Added (fl : FloatOps F) (n : Nat) (b : PackedLongValuesBuilder F) (vs : List U64) : Prop :=
  ∃ full cur, Holds fl n b full cur ∧ vs = full ++ cur

theorem Holds.pos (h : Holds fl n b full cur) : 0 < n := h.shift ▸ Nat.two_pow_pos _

theorem Holds.le (h : Holds fl n b full cur) : cur.length ≤ n := by
  obtain ⟨p, -, hp, rfl⟩ := h.pending
  rw [List.length_take]
  omega

/-- Packing moves the pending values into a page. -/
theorem pack_spec (h : Holds fl n b full cur) (hne : cur ≠ []) :
    ∃ values mins averages p, b.pack fl = .ok { b with
        values := values, mins := mins, averages := averages, pending := some p,
        pendingOff := 0 } ∧
      p.length = n ∧ Pages fl n b.kind values mins averages (full ++ cur) := by
  obtain ⟨p, hp, hlen, hcur⟩ := h.pending
  have hle := h.le
  have hslice : slice p 0 b.pendingOff = some cur := by
    rw [slice_eq_some (Nat.zero_le _) (by rw [h.pendingOff]; omega), List.drop_zero,
      Nat.sub_zero, hcur]
  obtain ⟨values, mins, averages, raws, hpack, hraws, hpages⟩ := packValues_spec
    (b := { b with pending := none }) h.pages h.pos h.whole hne hle h.alloc
  refine ⟨values, mins, averages, splice p 0 raws, ?_, ?_, hpages⟩
  · unfold pack
    rw [hp, expect_some, ok_bind]
    dsimp only
    rw [hslice, expect_some, ok_bind, hpack, ok_bind]
  · rw [splice_length (by omega), hlen]

/-- Packing a full page keeps what was added and makes room. -/
theorem packIfFull_spec (h : Added fl n b vs) :
    ∃ b' full cur, b.packIfFull fl = .ok b' ∧ Holds fl n b' full cur ∧ vs = full ++ cur ∧
      cur.length < n := by
  obtain ⟨full, cur, h, rfl⟩ := h
  obtain ⟨p, hp, hlen, -⟩ := h.pending
  have hle := h.le
  have hn := h.pos
  unfold packIfFull
  by_cases hfull : cur.length = n
  · have hne : cur ≠ [] := List.length_pos_iff.1 (by omega)
    obtain ⟨values, mins, averages, p', hpack, hp', hpages⟩ := pack_spec h hne
    rw [if_pos (by rw [hp, h.pendingOff, Option.map_some, hlen, hfull]), hpack]
    refine ⟨_, full ++ cur, [], rfl, ⟨hpages, ?_, ⟨p', rfl, hp', rfl⟩, rfl, ?_, h.shift, h.mask,
      h.alloc⟩, (List.append_nil _).symm, hn⟩
    · rw [List.length_append, hfull]
      exact Nat.dvd_add h.whole (Nat.dvd_refl n)
    · rw [List.length_append, List.length_nil]
      exact h.size
  · refine ⟨b, full, cur, if_neg ?_, h, rfl, by omega⟩
    rw [hp, h.pendingOff, Option.map_some, Option.some.injEq, hlen]
    exact fun heq => hfull heq.symm

/-- Values that there is room for join the pending ones. -/
theorem Holds.put (h : Holds fl n b full cur) (src : List U64) (hp : b.pending = some pending)
    (hroom : cur.length + src.length ≤ n) :
    Holds fl n { b with
      pending := some (splice pending b.pendingOff src), pendingOff := b.pendingOff + src.length,
      size := b.size + src.length } full (cur ++ src) := by
  obtain ⟨p, hp', hlen, hcur⟩ := h.pending
  rw [hp] at hp'
  cases hp'
  have hoff := h.pendingOff
  refine ⟨h.pages, h.whole, ⟨_, rfl, ?_, ?_⟩, ?_, ?_, h.shift, h.mask, h.alloc⟩
  · rw [splice_length (by omega), hlen]
  · dsimp only
    rw [splice_take _ _ (by omega), hcur]
  · dsimp only
    rw [hoff, List.length_append]
  · dsimp only
    rw [h.size, List.length_append, Nat.add_assoc]

theorem add_spec (h : Added fl n b vs) (l : U64) :
    ∃ b', b.add fl l = .ok b' ∧ Added fl n b' (vs ++ [l]) := by
  obtain ⟨b₁, full, cur, hpack, h₁, rfl, hlt⟩ := packIfFull_spec h
  obtain ⟨p, hp, hlen, hcur⟩ := h₁.pending
  have hoff := h₁.pendingOff
  have hset : p.set b₁.pendingOff l = splice p b₁.pendingOff [l] := by
    rw [← splice_cons (by omega), splice_nil]
  refine ⟨_, ?_, full, cur ++ [l], h₁.put [l] hp hlt, List.append_assoc _ _ _⟩
  unfold add
  rw [hpack, ok_bind, hp, expect_some, ok_bind,
    guardOk_pos (by omega), ok_bind, hset]
  rfl

/-- A pass of a loop that fills what room the pending values leave. -/
theorem putPending_spec (h : Added fl n b vs) :
    ∃ b₁ p room, b.packIfFull fl = .ok b₁ ∧ b₁.pending = some p ∧
      (sub p.length b₁.pendingOff : Call Nat) = .ok room ∧ 0 < room ∧
      ∀ src : List U64, src.length ≤ room →
        ∃ b', b₁.putPending p src = .ok b' ∧ Added fl n b' (vs ++ src) := by
  obtain ⟨b₁, full, cur, hpack, h₁, rfl, hlt⟩ := packIfFull_spec h
  obtain ⟨p, hp, hlen, hcur⟩ := h₁.pending
  have hoff := h₁.pendingOff
  refine ⟨b₁, p, _, hpack, hp, sub_of_le (by omega), by omega, ?_⟩
  intro src hsrc
  refine ⟨_, ?_, full, cur ++ src, h₁.put src hp (by omega), List.append_assoc _ _ _⟩
  unfold putPending
  rw [guardOk_pos (by omega), ok_bind]

theorem addRepeated_spec (h : Added fl n b vs) (value : U64) (count : Nat) :
    ∃ b', b.addRepeated fl value count = .ok b' ∧
      Added fl n b' (vs ++ List.replicate count value) := by
  unfold addRepeated
  apply iterate_ok (addRepeatedPass fl value)
    (fun s => s.2 ≤ count ∧ Added fl n s.1 (vs ++ List.replicate (count - s.2) value))
    (fun s => s.2)
  · rintro ⟨b, k⟩ ⟨hk, hadd⟩
    unfold addRepeatedPass
    dsimp only at hk hadd ⊢
    by_cases hpos : 0 < k
    · left
      obtain ⟨b₁, p, room, hpack, hp, hroom, hroom0, hput⟩ := putPending_spec hadd
      obtain ⟨b', hb', hadd'⟩ := hput (List.replicate (min k room) value)
        (by rw [List.length_replicate]; omega)
      refine ⟨(b', k - min k room), ?_, ⟨by omega, ?_⟩, by dsimp only; omega⟩
      · rw [if_pos hpos, hpack, ok_bind, hp, expect_some, ok_bind, hroom,
          ok_bind, hb', ok_bind]
      · rw [List.append_assoc, List.replicate_append_replicate] at hadd'
        have hsum : count - (k - min k room) = count - k + min k room := by omega
        rw [hsum]
        exact hadd'
    · right
      obtain rfl : k = 0 := by omega
      exact ⟨b, if_neg hpos, hadd⟩
  · refine ⟨Nat.le_refl _, ?_⟩
    rw [Nat.sub_self, List.replicate_zero, List.append_nil]
    exact h
  · exact Nat.lt_succ_self _

theorem addAll_spec (h : Added fl n b vs) (values : List U64) :
    ∃ b', b.addAll fl values = .ok b' ∧ Added fl n b' (vs ++ values) := by
  unfold addAll
  apply iterate_ok (addAllPass fl)
    (fun s => ∃ done, values = done ++ s.2 ∧ Added fl n s.1 (vs ++ done)) (fun s => s.2.length)
  · rintro ⟨b, rest⟩ ⟨done, hdone, hadd⟩
    unfold addAllPass
    dsimp only at hdone hadd ⊢
    by_cases hne : rest ≠ []
    · left
      have hpos := List.length_pos_iff.2 hne
      obtain ⟨b₁, p, room, hpack, hp, hroom, hroom0, hput⟩ := putPending_spec hadd
      obtain ⟨b', hb', hadd'⟩ := hput (rest.take (min rest.length room))
        (by rw [List.length_take]; omega)
      refine ⟨(b', rest.drop (min rest.length room)), ?_,
        ⟨done ++ rest.take (min rest.length room), ?_, ?_⟩, ?_⟩
      · rw [if_pos hne, hpack, ok_bind, hp, expect_some, ok_bind, hroom,
          ok_bind, hb', ok_bind]
      · rw [List.append_assoc, List.take_append_drop, hdone]
      · rw [← List.append_assoc]
        exact hadd'
      · rw [List.length_drop]
        omega
    · right
      rw [not_not] at hne
      refine ⟨b, if_neg (not_not.2 hne), ?_⟩
      rw [hdone, hne, List.append_nil]
      exact hadd
  · exact ⟨[], rfl, by rwa [List.append_nil]⟩
  · exact Nat.lt_succ_self _

/-- One call adds its values behind those that were added before. -/
theorem Addition.run_spec (h : Added fl n b vs) (a : Addition) :
    ∃ b', a.run fl b = .ok b' ∧ Added fl n b' (vs ++ a.values) := by
  cases a with
  | add l => exact add_spec h l
  | addRepeated value count => exact addRepeated_spec h value count
  | addAll values => exact addAll_spec h values

/-- The buffer that is built holds what was added. -/
theorem build_spec (h : Added fl n b vs) : ∃ v, b.build fl = .ok v ∧ v.Holds fl n vs := by
  obtain ⟨full, cur, h, rfl⟩ := h
  have hsize := h.size
  rw [← List.length_append] at hsize
  unfold build finish
  by_cases hpos : 0 < b.pendingOff
  · have hne : cur ≠ [] := List.length_pos_iff.1 (by rwa [← h.pendingOff])
    obtain ⟨values, mins, averages, p, hpack, -, hpages⟩ := pack_spec h hne
    rw [if_pos hpos, hpack, ok_bind]
    exact ⟨_, rfl, hpages, h.shift, h.mask, hsize, h.alloc⟩
  · have hnil : cur = [] := List.length_eq_zero_iff.1 (by rw [← h.pendingOff]; omega)
    rw [if_neg hpos, ok_bind]
    refine ⟨_, rfl, ?_, h.shift, h.mask, hsize, h.alloc⟩
    rw [hnil, List.append_nil]
    exact h.pages

theorem checkBlockSize_ok {size lo hi : Nat} (hlo : lo ≤ size) (hhi : size ≤ hi)
    (hpow : ∃ k, size = 2 ^ k) :
    ∃ k, checkBlockSize size lo hi = .ok k ∧ size = 2 ^ k := by
  obtain ⟨k, rfl⟩ := hpow
  refine ⟨k, ?_, rfl⟩
  unfold checkBlockSize
  rw [if_neg (by omega), Nat.log2_two_pow, if_neg (by simp)]

/-- A new builder, for every page size that is a power of two between the
bounds. -/
theorem new_spec (fl : FloatOps F) (kind : Kind) (overhead : Nat → Int) (hlo : minPageSize ≤ n)
    (hhi : n ≤ maxPageSize) (hpow : ∃ k, n = 2 ^ k) :
    ∃ b : PackedLongValuesBuilder F, new kind n overhead = .ok b ∧ Added fl n b [] := by
  obtain ⟨k, hcheck, hk⟩ := checkBlockSize_ok hlo hhi hpow
  have hn : 0 < n := hk ▸ Nat.two_pow_pos k
  have hnil : chunks n ([] : List U64) = [] := by
    rw [chunks, List.length_nil, Nat.div_eq_of_lt (by omega)]
    rfl
  unfold new
  rw [hcheck, ok_bind]
  refine ⟨_, rfl, [], [], ⟨⟨?_, fun _ => rfl, fun _ => rfl, ?_⟩, Nat.dvd_zero n,
    ⟨_, rfl, List.length_replicate, rfl⟩, rfl, rfl, hk, rfl, ?_⟩, rfl⟩
  · rw [hnil]
    rfl
  · intro j c hc
    rw [hnil] at hc
    cases hc
  · have hmax : 8 * maxPageSize ≤ maxAlloc := by decide
    omega

/-- A run of calls. -/
theorem buildFrom_spec (h : Added fl n b []) (adds : List Addition) :
    ∃ v, b.buildFrom fl adds = .ok v ∧ v.Holds fl n (adds.flatMap Addition.values) := by
  obtain ⟨b', hrun, h'⟩ := foldlM_visited (f := fun b a => Addition.run fl b a)
    (fun seen b => Added fl n b (seen.flatMap Addition.values)) adds
    (fun seen a s _ hs => by
      rw [List.flatMap_append, List.flatMap_singleton]
      exact Addition.run_spec hs a) b h
  obtain ⟨v, hv, hholds⟩ := build_spec h'
  refine ⟨v, ?_, hholds⟩
  unfold buildFrom
  rw [hrun, ok_bind, hv]

end PackedLongValuesBuilder

/-! ## The buffer -/

open PackedLongValues PackedLongValuesBuilder

/-- For every kind, page size and overhead ratio, every sequence of calls to a
builder and every arithmetic of the slopes: the buffer has the size of what
was added, `get` returns the value at each index, and `next` returns the
values one by one and then none. -/
theorem packedLongValues_returns {F : Type} (fl : FloatOps F) (kind : Kind) (pageSize : Nat)
    (overhead : Nat → Int) (adds : List Addition) (hlo : minPageSize ≤ pageSize)
    (hhi : pageSize ≤ maxPageSize) (hpow : ∃ k, pageSize = 2 ^ k) :
    ∃ b v it, new kind pageSize overhead = .ok b ∧ b.buildFrom fl adds = .ok v ∧
      v.iter fl = .ok it ∧
      v.size = (adds.flatMap Addition.values).length ∧
      (∀ i x, (adds.flatMap Addition.values)[i]? = some x → v.get fl i = .ok x) ∧
      ∀ k, it.nexts fl k = .ok ((List.range k).map ((adds.flatMap Addition.values)[·]?)) := by
  obtain ⟨b, hnew, hadded⟩ := new_spec fl kind overhead hlo hhi hpow
  obtain ⟨v, hbuild, hv⟩ := buildFrom_spec hadded adds
  obtain ⟨it, hiter, hat⟩ := iter_spec hv
  exact ⟨b, v, it, hnew, hbuild, hiter, hv.size, fun i x hx => get_spec hv hx,
    fun k => nexts_spec k it _ hat⟩

/-- A monotonic buffer with pages of 64, to which values are added in all
three ways. -/
theorem packedLongValues_returns_sample :
    ∃ b v it, new .monotonic 64 (fun _ => 0) = .ok b ∧
      b.buildFrom (⟨0, fun d n => d.toInt / n, fun a i => BitVec.ofInt 64 (a * i.toInt)⟩ : FloatOps Int)
        [.add 5#64, .addRepeated 7#64 100, .addAll [8#64, 9#64]] = .ok v ∧
      v.iter ⟨0, fun d n => d.toInt / n, fun a i => BitVec.ofInt 64 (a * i.toInt)⟩ = .ok it ∧
      v.size = ([5#64] ++ List.replicate 100 7#64 ++ [8#64, 9#64]).length ∧
      (∀ i x, ([5#64] ++ List.replicate 100 7#64 ++ [8#64, 9#64])[i]? = some x →
        v.get ⟨0, fun d n => d.toInt / n, fun a i => BitVec.ofInt 64 (a * i.toInt)⟩ i = .ok x) ∧
      ∀ k, it.nexts ⟨0, fun d n => d.toInt / n, fun a i => BitVec.ofInt 64 (a * i.toInt)⟩ k =
        .ok ((List.range k).map (([5#64] ++ List.replicate 100 7#64 ++ [8#64, 9#64])[·]?)) :=
  packedLongValues_returns _ .monotonic 64 _ _ (by decide) (by decide) ⟨6, rfl⟩

end LuceneRust.Util.Packed
