import LuceneRust.Lib.BitStream
import LuceneRust.Util.Packed.Mutable

/-!
# Packed arrays refine plain lists

The laws of `LawfulMutable` are proved once for the code that the layouts
share: the base implementations (`defaultSetBulk_spec`, `defaultFill_spec`),
the bulk operations over any pair of single and whole-run codecs
(`bulkGet_spec`, `bulkSet_spec`) and `copy` (`copy_spec`).

`Op` is one operation of a caller, `Op.run` does it on a packed array and
`Op.plain` on a list.  `runAll_refines` is the simulation, and
`refinesPlain_of_rep` says it in terms of what a caller sees.
-/

namespace LuceneRust.Util.Packed

open RustSem
open BitStream (IsMask)

/-! ## Lists -/

theorem splice_nil {α : Type} (l : List α) (i : Nat) : splice l i [] = l := by
  simp [splice]

/-- Writing a run is writing its first value, and then the others. -/
theorem splice_cons {α : Type} {l : List α} {i : Nat} (hi : i < l.length)
    (a : α) (src : List α) :
    splice (l.set i a) (i + 1) src = splice l i (a :: src) := by
  have htake : (l.set i a).take (i + 1) = l.take i ++ [a] := by
    rw [List.take_succ_eq_append_getElem (by simpa using hi), List.take_set,
      List.set_eq_of_length_le (by rw [List.length_take]; omega),
      List.getElem_set_self]
  have hdrop : (l.set i a).drop (i + 1 + src.length) =
      l.drop (i + (a :: src).length) := by
    rw [List.drop_set_of_lt (by omega), List.length_cons]
    congr 1
    omega
  rw [splice, splice, htake, hdrop, List.append_assoc]
  rfl

/-- Two runs, one behind the other. -/
theorem splice_splice {α : Type} {l : List α} {i : Nat} (a b : List α)
    (h : i + a.length ≤ l.length) :
    splice (splice l i a) (i + a.length) b = splice l i (a ++ b) := by
  have hdrop : (splice l i a).drop (i + a.length + b.length) =
      l.drop (i + (a ++ b).length) := by
    rw [splice_drop (by omega) (by omega), List.length_append, Nat.add_assoc]
  rw [splice, splice_take l a (by omega), hdrop]
  simp only [splice, List.append_assoc]

/-- The first part of a run. -/
theorem splice_take_left {α : Type} (l a b : List α) {i : Nat}
    (hi : i ≤ l.length) :
    (splice l i (a ++ b)).take (i + a.length) = l.take i ++ a := by
  have hlen : (l.take i ++ a).length = i + a.length := by
    rw [List.length_append, List.length_take_of_le hi]
  rw [splice, List.append_assoc, ← List.append_assoc, ← hlen, List.take_left]

theorem take_append_take_drop {α : Type} (l : List α) (m n : Nat) :
    l.take m ++ (l.drop m).take n = l.take (m + n) := List.take_add.symm

theorem forall_mem_splice {α : Type} {P : α → Prop} {l src : List α}
    (i : Nat) (hl : ∀ a ∈ l, P a) (hsrc : ∀ a ∈ src, P a) :
    ∀ a ∈ splice l i src, P a := by
  intro a ha
  rw [splice, List.mem_append, List.mem_append] at ha
  rcases ha with ha | ha | ha
  · exact hl a (List.mem_of_mem_take ha)
  · exact hsrc a ha
  · exact hl a (List.mem_of_mem_drop ha)

/-- The head of `fill` ends at a boundary. -/
theorem boundary_aligned {n : Nat} (hn : 0 < n) (lo : Nat) :
    (lo + if lo % n ≠ 0 then n - lo % n else 0) % n = 0 := by
  have hmod := Nat.mod_lt lo hn
  split
  · rw [Nat.add_mod, Nat.mod_eq_of_lt (show n - lo % n < n by omega),
      Nat.add_sub_cancel' hmod.le, Nat.mod_self]
  · rw [Nat.add_zero]
    omega

/-! ## Widths -/

theorem unsignedBitsRequired_le_iff {v : U64} {w : Nat} (hw : 1 ≤ w) :
    unsignedBitsRequired v ≤ w ↔ v.toNat < 2 ^ w := by
  rw [unsignedBitsRequired, Nat.max_le, and_iff_left hw]
  constructor
  · intro h
    exact BitVec.toNat_lt_two_pow_sub_clz.trans_le
      (Nat.pow_le_pow_right (by decide) h)
  · intro h
    by_cases hz : v = 0#64
    · subst hz
      exact (show 64 - (0#64).clz.toNat = 0 by decide).trans_le (Nat.zero_le w)
    · have hle := BitVec.two_pow_sub_clz_le_toNat_of_ne_zero (by decide) hz
      have hlt := (Nat.pow_lt_pow_iff_right (by decide)).1 (hle.trans_lt h)
      omega

theorem isMask_maxValue {w : Nat} (hw : w < 64) : IsMask (maxValue w) w := by
  intro j hj
  rw [maxValue, if_neg (by omega), BitVec.getLsbD_not,
    BitVec.getLsbD_shiftLeft, BitVec.getLsbD_allOnes]
  by_cases hjw : j < w
  · simp [hj, hjw]
  · simp [hj, hjw, show j - w < 64 by omega]

/-- A value that fits the width is at most `max_value`. -/
theorem le_maxValue {v : U64} {w : Nat} (hv : v.toNat < 2 ^ w) :
    v.toInt ≤ (maxValue w).toInt := by
  by_cases hw : w < 64
  · have hpow : 2 ^ w ≤ 2 ^ 63 := Nat.pow_le_pow_right (by decide) (by omega)
    have hnat := (isMask_maxValue hw).toNat_eq hw.le
    rw [BitVec.toInt_eq_toNat_of_lt (by omega),
      BitVec.toInt_eq_toNat_of_lt (by omega), hnat]
    omega
  · have hlt := BitVec.toInt_lt (x := v)
    have hmax : (BitVec.ofNat 64 (2 ^ 63 - 1)).toInt = 2 ^ 63 - 1 := by decide
    rw [maxValue, if_pos (by omega), hmax]
    omega

/-! ## Single writes -/

section Writes

variable {M : Type} {set : M → Nat → U64 → Call M}
  {Rep : M → List U64 → Prop} {Fits : M → U64 → Prop}

/-- A write of one value is lawful. -/
def SetSpec (set : M → Nat → U64 → Call M) (Rep : M → List U64 → Prop)
    (Fits : M → U64 → Prop) : Prop :=
  ∀ {m vs i v}, Rep m vs → i < vs.length → Fits m v →
    ∃ m', set m i v = .ok m' ∧ Rep m' (vs.set i v) ∧ ∀ u, Fits m u → Fits m' u

theorem setEach_spec (hset : SetSpec set Rep Fits) (index : Nat)
    (arr : List U64) :
    ∀ (m : M) (vs : List U64), Rep m vs → index + arr.length ≤ vs.length →
      (∀ v ∈ arr, Fits m v) →
      ∃ m', setEach set m index arr = .ok m' ∧ Rep m' (splice vs index arr) ∧
        ∀ u, Fits m u → Fits m' u := by
  suffices h : ∀ (arr : List U64) (k : Nat) (m : M) (vs : List U64), Rep m vs →
      index + k + arr.length ≤ vs.length → (∀ v ∈ arr, Fits m v) →
      ∃ m', (arr.zipIdx k).foldlM (fun m v => set m (index + v.2) v.1) m =
          .ok m' ∧ Rep m' (splice vs (index + k) arr) ∧
        ∀ u, Fits m u → Fits m' u by
    intro m vs
    exact h arr 0 m vs
  intro arr
  induction arr with
  | nil =>
    intro k m vs hrep _ _
    exact ⟨m, rfl, by rwa [splice_nil], fun u hu => hu⟩
  | cons a arr ih =>
    intro k m vs hrep hlen hfits
    rw [List.length_cons] at hlen
    obtain ⟨m₁, hset₁, hrep₁, hfit₁⟩ := hset (i := index + k) hrep (by omega)
      (hfits a (List.mem_cons_self ..))
    obtain ⟨m₂, hrun, hrep₂, hfit₂⟩ := ih (k + 1) m₁ _ hrep₁
      (by rw [List.length_set]; omega)
      fun v hv => hfit₁ v (hfits v (List.mem_cons_of_mem a hv))
    refine ⟨m₂, ?_, ?_, fun u hu => hfit₂ u (hfit₁ u hu)⟩
    · rw [List.zipIdx_cons, List.foldlM_cons, hset₁, ok_bind, hrun]
    · rwa [← Nat.add_assoc, splice_cons (by omega)] at hrep₂

theorem defaultSetBulk_spec (arr : List U64) (hset : SetSpec set Rep Fits)
    {size : M → Nat} {m : M} {vs : List U64} (hsize : size m = vs.length)
    {i : Nat} (hrep : Rep m vs) (hi : i < vs.length) (hne : arr ≠ [])
    (hfits : ∀ v ∈ arr, Fits m v) :
    ∃ m' n, defaultSetBulk size set m i arr = .ok (m', n) ∧ 0 < n ∧
      n ≤ arr.length ∧ i + n ≤ vs.length ∧ Rep m' (splice vs i (arr.take n)) ∧
      ∀ u, Fits m u → Fits m' u := by
  have hpos := List.length_pos_iff.2 hne
  obtain ⟨m', hrun, hrep', hfit'⟩ := setEach_spec hset i
    (arr.take (min arr.length (vs.length - i))) m vs hrep
    (by rw [List.length_take]; omega)
    fun v hv => hfits v (List.mem_of_mem_take hv)
  refine ⟨m', min arr.length (vs.length - i), ?_, by omega, by omega,
    by omega, hrep', hfit'⟩
  rw [defaultSetBulk, guardOk_pos hne, ok_bind,
    guardOk_pos (by rw [hsize]; exact hi), ok_bind, hsize]
  dsimp only
  rw [hrun, ok_bind]

/-- The loop of `fill`. -/
theorem foldlM_set_range (hset : SetSpec set Rep Fits) (v : U64) (n : Nat) :
    ∀ (lo : Nat) (m : M) (vs : List U64), Rep m vs → lo + n ≤ vs.length →
      Fits m v →
      ∃ m', (List.range' lo n).foldlM (fun m i => set m i v) m = .ok m' ∧
        Rep m' (splice vs lo (List.replicate n v)) ∧
        ∀ u, Fits m u → Fits m' u := by
  induction n with
  | zero =>
    intro lo m vs hrep _ _
    exact ⟨m, rfl, by rwa [List.replicate_zero, splice_nil], fun u hu => hu⟩
  | succ n ih =>
    intro lo m vs hrep hlen hfit
    obtain ⟨m₁, hset₁, hrep₁, hfit₁⟩ := hset (i := lo) hrep (by omega) hfit
    obtain ⟨m₂, hrun, hrep₂, hfit₂⟩ := ih (lo + 1) m₁ _ hrep₁
      (by rw [List.length_set]; omega) (hfit₁ v hfit)
    refine ⟨m₂, ?_, ?_, fun u hu => hfit₂ u (hfit₁ u hu)⟩
    · rw [List.range'_succ, List.foldlM_cons, hset₁, ok_bind, hrun]
    · rwa [splice_cons (by omega), ← List.replicate_succ] at hrep₂

theorem defaultFill_spec (bits : M → Nat) (hset : SetSpec set Rep Fits)
    {m : M} {vs : List U64} {lo hi : Nat} {v : U64} (hrep : Rep m vs)
    (hle : lo ≤ hi) (hhi : hi ≤ vs.length) (hfit : Fits m v)
    (hmax : v.toInt ≤ (maxValue (bits m)).toInt) :
    ∃ m', defaultFill bits set m lo hi v = .ok m' ∧
      Rep m' (splice vs lo (List.replicate (hi - lo) v)) ∧
      ∀ u, Fits m u → Fits m' u := by
  obtain ⟨m', hrun, hrep', hfit'⟩ := foldlM_set_range hset v (hi - lo) lo m vs
    hrep (by omega) hfit
  refine ⟨m', ?_, hrep', hfit'⟩
  rw [defaultFill, guardOk_pos hmax, ok_bind,
    guardOk_pos hle, ok_bind, hrun]

end Writes

/-! ## Bulk operations -/

theorem headLen_le (per index len : Nat) : headLen per index len ≤ len := by
  unfold headLen
  split <;> omega

/-- The head ends at a boundary, unless nothing is left behind it. -/
theorem headLen_aligned {per : Nat} (index len : Nat) (hper : 0 < per)
    (h : ¬ (index % per ≠ 0 ∧ len - headLen per index len = 0)) :
    (index + headLen per index len) % per = 0 := by
  unfold headLen at h ⊢
  by_cases h0 : index % per = 0
  · rw [if_neg (by simp [h0]), Nat.add_zero, h0]
  · rw [if_pos h0] at h ⊢
    have hlt := Nat.mod_lt index hper
    have hmin : min (per - index % per) len = per - index % per := by omega
    rw [hmin, Nat.add_mod, Nat.mod_eq_of_lt (show per - index % per < per by omega),
      Nat.add_sub_cancel' (by omega), Nat.mod_self]

/-- Reading values one by one. -/
theorem mapM_get {get : Nat → Call U64} {vs : List U64}
    (hget : ∀ i v, vs[i]? = some v → get i = .ok v) (index n : Nat)
    (h : index + n ≤ vs.length) :
    (List.range n).mapM (fun j => get (index + j)) =
      .ok ((vs.drop index).take n) := by
  induction n with
  | zero => simp
  | succ n ih =>
    have hlt : index + n < vs.length := by omega
    rw [List.range_succ, List.mapM_append, ih (by omega), ok_bind,
      List.mapM_cons, List.mapM_nil, hget _ _ (List.getElem?_eq_getElem hlt),
      List.take_succ_eq_append_getElem (by rw [List.length_drop]; omega)]
    simp

/-- A bulk read from codecs that read the values of a list. -/
theorem bulkGet_spec {per : Nat} (hper : 0 < per) {vs : List U64}
    {get : Nat → Call U64}
    {bulk : Nat → Nat → List U64 → Call (List U64 × Nat)}
    (hget : ∀ i v, vs[i]? = some v → get i = .ok v)
    (hbulk : ∀ i len slots, i % per = 0 → i + len ≤ vs.length →
      len ≤ slots.length → ∃ got ≤ len, bulk i len slots =
        .ok ((vs.drop i).take got ++ slots.drop got, got))
    {i : Nat} {arr : List U64} (hi : i < vs.length) (hne : arr ≠ []) :
    ∃ n, 0 < n ∧ n ≤ arr.length ∧ i + n ≤ vs.length ∧
      bulkGet per vs.length get bulk i arr =
        .ok ((vs.drop i).take n ++ arr.drop n, n) := by
  have hpos := List.length_pos_iff.2 hne
  simp only [bulkGet]
  rw [guardOk_pos hne, ok_bind, guardOk_pos hi,
    ok_bind]
  generalize hlen : min arr.length (vs.length - i) = len
  have hhead := headLen_le per i len
  rw [mapM_get hget i _ (by omega), ok_bind]
  by_cases hdone : i % per ≠ 0 ∧ len - headLen per i len = 0
  · rw [if_pos hdone]
    exact ⟨_, by omega, by omega, by omega, rfl⟩
  · rw [if_neg hdone]
    obtain ⟨got, hgot, hrun⟩ := hbulk (i + headLen per i len)
      (len - headLen per i len) (arr.drop (headLen per i len))
      (headLen_aligned _ _ hper hdone) (by omega) (by rw [List.length_drop]; omega)
    rw [hrun, ok_bind]
    dsimp only
    by_cases hprog : 0 < headLen per i len + got
    · rw [if_pos hprog]
      refine ⟨_, hprog, by omega, by omega, ?_⟩
      rw [← List.append_assoc, ← List.drop_drop, take_append_take_drop,
        List.drop_drop]
    · rw [if_neg hprog, mapM_get hget i _ (by omega), ok_bind]
      exact ⟨_, by omega, by omega, by omega, rfl⟩

/-- A bulk write through codecs that write the values of a list. -/
theorem bulkSet_spec {M : Type} {per : Nat} (size : M → Nat)
    (set : M → Nat → U64 → Call M) (Rep : M → List U64 → Prop)
    (Fits : M → U64 → Prop) (bulk : M → Nat → Nat → List U64 → Call (M × Nat))
    (hper : 0 < per) (hsize : ∀ {m vs}, Rep m vs → size m = vs.length)
    (hset : SetSpec set Rep Fits)
    (hbulk : ∀ {m vs} i len us, Rep m vs → i % per = 0 → i + len ≤ vs.length → len ≤ us.length → (∀ v ∈ us, Fits m v) → ∃ m' n, n ≤ len ∧ bulk m i len us = .ok (m', n) ∧ Rep m' (splice vs i (us.take n)) ∧ ∀ u, Fits m u → Fits m' u)
    {m : M} {vs : List U64} {i : Nat} {arr : List U64} (hrep : Rep m vs)
    (hi : i < vs.length) (hne : arr ≠ []) (hfits : ∀ v ∈ arr, Fits m v) :
    ∃ m' n, bulkSet per size set bulk m i arr = .ok (m', n) ∧ 0 < n ∧
      n ≤ arr.length ∧ i + n ≤ vs.length ∧ Rep m' (splice vs i (arr.take n)) ∧
      ∀ u, Fits m u → Fits m' u := by
  have hpos := List.length_pos_iff.2 hne
  simp only [bulkSet]
  rw [guardOk_pos hne, ok_bind,
    guardOk_pos (by rw [hsize hrep]; exact hi), ok_bind,
    hsize hrep]
  generalize hlen : min arr.length (vs.length - i) = len
  have hhead := headLen_le per i len
  generalize hh : headLen per i len = head at hhead
  have htake : (arr.take head).length = head := by
    rw [List.length_take]
    omega
  obtain ⟨m₁, hrun, hrep₁, hfit₁⟩ := setEach_spec hset i (arr.take head) m vs
    hrep (by omega) fun v hv => hfits v (List.mem_of_mem_take hv)
  rw [hrun, ok_bind]
  by_cases hdone : i % per ≠ 0 ∧ len - head = 0
  · rw [if_pos hdone]
    exact ⟨m₁, head, rfl, by omega, by omega, by omega, hrep₁, hfit₁⟩
  · have hlen₁ : (splice vs i (arr.take head)).length = vs.length :=
      splice_length (by omega)
    have halign := headLen_aligned i len hper
      (by rw [hh]; exact hdone)
    rw [hh] at halign
    obtain ⟨m₂, n, hn, hrun₂, hrep₂, hfit₂⟩ := hbulk (i + head) (len - head)
      (arr.drop head) hrep₁ halign (by omega) (by rw [List.length_drop]; omega)
      fun v hv => hfit₁ v (hfits v (List.mem_of_mem_drop hv))
    have hjoin : splice (splice vs i (arr.take head)) (i + head)
        ((arr.drop head).take n) = splice vs i (arr.take (head + n)) := by
      have := splice_splice (l := vs) (i := i) (arr.take head)
        ((arr.drop head).take n) (by omega)
      rwa [htake, take_append_take_drop] at this
    rw [hjoin] at hrep₂
    rw [if_neg hdone, hrun₂, ok_bind]
    dsimp only
    by_cases hprog : 0 < head + n
    · rw [if_pos hprog]
      exact ⟨m₂, head + n, rfl, hprog, by omega, by omega, hrep₂,
        fun u hu => hfit₂ u (hfit₁ u hu)⟩
    · -- No progress: nothing is written yet.
      obtain rfl : head = 0 := by omega
      obtain rfl : n = 0 := by omega
      rw [if_neg hprog]
      rw [List.take_zero, splice_nil] at hrep₂
      obtain ⟨m₃, k, hrun₃, hk, hkle, hki, hrep₃, hfit₃⟩ := defaultSetBulk_spec (arr.take len)
        hset (hsize hrep₂) hrep₂ hi
        (by rw [← List.length_pos_iff, List.length_take]; omega)
        fun v hv => hfit₂ v (hfit₁ v (hfits v (List.mem_of_mem_take hv)))
      rw [List.length_take] at hkle
      rw [List.take_take, Nat.min_eq_left (by omega)] at hrep₃
      exact ⟨m₃, k, hrun₃, hk, by omega, hki, hrep₃,
        fun u hu => hfit₃ u (hfit₂ u (hfit₁ u hu))⟩

/-! ## `copy` -/

section Copy

variable {R M : Type} [Mutable R] [LawfulMutable R] [Mutable M]
  [LawfulMutable M]

open LawfulMutable

/-- The state of `copy_with_buffer` with `r` values of `data` read and `w` of
them written.  What fitted at the start (`fit`) still fits. -/
structure CopyInv (fit : U64 → Prop) (data dvs : List U64)
    (srcPos destPos : Nat) (s : CopyState M) (r w : Nat) : Prop where
  rep : Rep s.dest (splice dvs destPos (data.take w))
  fits : ∀ v, fit v → Fits s.dest v
  src : s.srcPos = srcPos + r
  dest : s.destPos = destPos + w
  len : s.len + r = data.length
  remaining : s.remaining + w = r
  room : s.remaining < s.buf.length
  buf : s.buf.take s.remaining = (data.drop w).take s.remaining

/-- Dropping what was written from the front of the buffer. -/
theorem copyWithin_front {buf rest : List U64} {n k : Nat}
    (hn : n + k ≤ buf.length) (hbuf : (buf.drop n).take k = rest) :
    ∃ buf', (copyWithin buf n k 0 : Call (List U64)) = .ok buf' ∧
      buf'.length = buf.length ∧ buf'.take k = rest := by
  have hlen : ((buf.drop n).take k).length = k := by
    rw [List.length_take, List.length_drop]
    omega
  refine ⟨_, copyWithin_ok (by omega) (by omega), splice_length (by omega), ?_⟩
  have := splice_take buf ((buf.drop n).take k) (Nat.zero_le _)
  rw [hlen, Nat.zero_add] at this
  rw [this, List.take_zero, List.nil_append, hbuf]

theorem keepRest_spec {buf rest : List U64} {n k : Nat}
    (hn : n + k ≤ buf.length) (hbuf : (buf.drop n).take k = rest) :
    ∃ buf', keepRest buf n k = .ok buf' ∧ buf'.length = buf.length ∧
      buf'.take k = rest := by
  unfold keepRest
  rcases Nat.eq_zero_or_pos k with rfl | hk
  · exact ⟨buf, rfl, rfl, by rw [← hbuf, List.take_zero, List.take_zero]⟩
  · rw [if_pos hk]
    exact copyWithin_front hn hbuf

/-- One write of the buffer into the destination. -/
theorem setBulk_buffer {data dvs : List U64} {destPos w k : Nat} {dest : M}
    (hdest : destPos + data.length ≤ dvs.length)
    (hrep : Rep dest (splice dvs destPos (data.take w)))
    (hfits : ∀ v ∈ data, Fits dest v) (hk : 0 < k)
    (hw : w + k ≤ data.length) :
    ∃ dest' n, Mutable.setBulk dest (destPos + w) ((data.drop w).take k) =
        .ok (dest', n) ∧ 0 < n ∧ n ≤ k ∧
      Rep dest' (splice dvs destPos (data.take (w + n))) ∧
      ∀ u, Fits dest u → Fits dest' u := by
  have hwlen : (data.take w).length = w := List.length_take_of_le (by omega)
  have hklen : ((data.drop w).take k).length = k := by
    rw [List.length_take, List.length_drop]
    omega
  have hlen : (splice dvs destPos (data.take w)).length = dvs.length :=
    splice_length (by omega)
  have hne : (data.drop w).take k ≠ [] := by
    rw [← List.length_pos_iff]
    omega
  obtain ⟨dest', n, hrun, hn, hnk, -, hrep', hfit'⟩ := setBulk_spec hrep
    (i := destPos + w) (by omega) hne
    fun v hv => hfits v (List.mem_of_mem_drop (List.mem_of_mem_take hv))
  refine ⟨dest', n, hrun, hn, by omega, ?_, hfit'⟩
  have hjoin := splice_splice (l := dvs) (i := destPos) (data.take w)
    ((data.drop w).take n) (by omega)
  rw [hwlen, take_append_take_drop] at hjoin
  rwa [List.take_take, Nat.min_eq_left (by omega), hjoin] at hrep'

/-- One pass of the first loop. -/
theorem copyPass_step {src : R} {svs data dvs : List U64}
    {srcPos destPos len : Nat} (hsrc : Rep src svs)
    (hdata : data = (svs.drop srcPos).take len)
    (hlen : srcPos + len ≤ svs.length)
    (hdest : destPos + data.length ≤ dvs.length) {fit : U64 → Prop}
    (hfit : ∀ v ∈ data, fit v) {s : CopyState M} {r w : Nat}
    (h : CopyInv fit data dvs srcPos destPos s r w) (hpos : 0 < s.len) :
    ∃ s' r' w', copyPass src s = .ok (.inl s') ∧
      CopyInv fit data dvs srcPos destPos s' r' w' ∧ s'.len < s.len := by
  obtain ⟨hrep, hfits, hs, hd, hl, hr, hroom, hbuf⟩ := h
  have hdlen : data.length = len := by
    rw [hdata, List.length_take, List.length_drop]
    omega
  simp only [copyPass, if_pos hpos]
  rw [sub_of_le (by omega), ok_bind]
  generalize hwant : min s.len (s.buf.length - s.remaining) = want
  have hslots : slice s.buf s.remaining (s.remaining + want) =
      some ((s.buf.drop s.remaining).take want) := by
    rw [slice_eq_some (by omega) (by omega), Nat.add_sub_cancel_left]
  have hslen : ((s.buf.drop s.remaining).take want).length = want := by
    rw [List.length_take, List.length_drop]
    omega
  have hne : (s.buf.drop s.remaining).take want ≠ [] := by
    rw [← List.length_pos_iff]
    omega
  obtain ⟨n, hn, hnle, hnin, hget⟩ := getBulk_spec hsrc (i := s.srcPos)
    (by omega) hne
  rw [hslen] at hnle
  rw [hslots, expect_some, ok_bind, hget, ok_bind]
  dsimp only
  rw [guardOk_pos hn, ok_bind, sub_of_le (by omega),
    ok_bind]
  -- The buffer after the read: the values read and not yet written.
  have hread : (svs.drop s.srcPos).take n = (data.drop r).take n := by
    rw [hdata, hs, List.drop_take, List.take_take, List.drop_drop,
      Nat.min_eq_left (by omega)]
  have hblen : (splice s.buf s.remaining ((svs.drop s.srcPos).take n ++
      ((s.buf.drop s.remaining).take want).drop n)).length = s.buf.length := by
    apply splice_length
    rw [List.length_append, List.length_take, List.length_drop,
      List.length_drop, hslen]
    omega
  have hfull : (splice s.buf s.remaining ((svs.drop s.srcPos).take n ++
      ((s.buf.drop s.remaining).take want).drop n)).take (s.remaining + n) =
      (data.drop w).take (s.remaining + n) := by
    have hnlen : ((svs.drop s.srcPos).take n).length = n := by
      rw [List.length_take, List.length_drop]
      omega
    have htake := splice_take_left s.buf ((svs.drop s.srcPos).take n)
      (((s.buf.drop s.remaining).take want).drop n) (i := s.remaining)
      (by omega)
    rw [hnlen] at htake
    rw [htake, hbuf, hread, ← take_append_take_drop, List.drop_drop]
    rw [show w + s.remaining = r by omega]
  generalize splice s.buf s.remaining ((svs.drop s.srcPos).take n ++
    ((s.buf.drop s.remaining).take want).drop n) = buf at hblen hfull
  obtain ⟨dest', k, hset, hk, hkle, hrep', hfits'⟩ := setBulk_buffer
    (k := s.remaining + n) hdest hrep (fun v hv => hfits v (hfit v hv))
    (by omega) (by omega)
  rw [hfull, hd, hset, ok_bind]
  dsimp only
  rw [guardOk_pos hk, ok_bind, sub_of_le (by omega),
    ok_bind]
  have hrest : (buf.drop k).take (s.remaining + n - k) =
      (data.drop (w + k)).take (s.remaining + n - k) := by
    have := congrArg (List.drop k) hfull
    rwa [List.drop_take, List.drop_take, List.drop_drop] at this
  obtain ⟨buf', hcopy, hlen', htake'⟩ := keepRest_spec (by omega) hrest
  rw [hcopy, ok_bind]
  refine ⟨_, r + n, w + k, rfl, ⟨hrep', fun v hv => hfits' v (hfits v hv), ?_, ?_,
    ?_, ?_, ?_, htake'⟩, ?_⟩
  · simp only
    omega
  · simp only
    omega
  · simp only
    omega
  · simp only
    omega
  · simp only
    omega
  · simp only
    omega

/-- One pass of the second loop. -/
theorem drainPass_step {data dvs : List U64} {srcPos destPos : Nat}
    (hdest : destPos + data.length ≤ dvs.length) {fit : U64 → Prop}
    (hfit : ∀ v ∈ data, fit v) {s : CopyState M} {r w : Nat}
    (h : CopyInv fit data dvs srcPos destPos s r w) (hpos : 0 < s.remaining) :
    ∃ s' w', drainPass s = .ok (.inl s') ∧
      CopyInv fit data dvs srcPos destPos s' r w' ∧ s'.remaining < s.remaining := by
  obtain ⟨hrep, hfits, hs, hd, hl, hr, hroom, hbuf⟩ := h
  obtain ⟨dest', k, hset, hk, hkle, hrep', hfits'⟩ := setBulk_buffer
    (k := s.remaining) hdest hrep (fun v hv => hfits v (hfit v hv)) hpos
    (by omega)
  have hrest : (s.buf.drop k).take (s.remaining - k) =
      (data.drop (w + k)).take (s.remaining - k) := by
    have := congrArg (List.drop k) hbuf
    rwa [List.drop_take, List.drop_take, List.drop_drop] at this
  obtain ⟨buf', hcopy, hlen', htake'⟩ := copyWithin_front (by omega) hrest
  simp only [drainPass, if_pos hpos]
  rw [hbuf, hd, hset, ok_bind]
  dsimp only
  rw [sub_of_le (by omega), ok_bind, hcopy, ok_bind]
  refine ⟨_, w + k, rfl, ⟨hrep', fun v hv => hfits' v (hfits v hv), hs, ?_,
    hl, ?_, ?_, htake'⟩, ?_⟩
  · simp only
    omega
  · simp only
    omega
  · simp only
    omega
  · simp only
    omega

/-- `copy_with_buffer` copies `len` values. -/
theorem copyWithBuffer_spec {src : R} {dest : M} {svs dvs : List U64}
    (srcPos destPos len : Nat) (buf : List U64) (hsrc : Rep src svs)
    (hdst : Rep dest dvs) (hs : srcPos + len ≤ svs.length)
    (hd : destPos + len ≤ dvs.length) (hbuf : buf ≠ [])
    (hfits : ∀ v ∈ (svs.drop srcPos).take len, Fits dest v) :
    ∃ dest', copyWithBuffer src srcPos dest destPos len buf = .ok dest' ∧
      Rep dest' (splice dvs destPos ((svs.drop srcPos).take len)) ∧
      ∀ u, Fits dest u → Fits dest' u := by
  generalize hdata : (svs.drop srcPos).take len = data at hfits
  have hdlen : data.length = len := by
    rw [← hdata, List.length_take, List.length_drop]
    omega
  have hinit : CopyInv (Fits dest) data dvs srcPos destPos
      ⟨dest, srcPos, destPos, len, buf, 0⟩ 0 0 :=
    ⟨by rwa [List.take_zero, splice_nil], fun v hv => hv, rfl, rfl, hdlen.symm, rfl,
      List.length_pos_iff.2 hbuf, rfl⟩
  obtain ⟨s, hloop, w, hread⟩ := iterate_ok (copyPass (M := M) src)
    (fun s => ∃ r w, CopyInv (Fits dest) data dvs srcPos destPos s r w) CopyState.len
    (fun s => ∃ w, CopyInv (Fits dest) data dvs srcPos destPos s data.length w)
    (by
      rintro s ⟨r, w, hinv⟩
      rcases Nat.eq_zero_or_pos s.len with h0 | hpos
      · refine Or.inr ⟨s, ?_, w, ?_⟩
        · simp only [copyPass, h0, Nat.lt_irrefl, if_false]
        · have hl := hinv.len
          rw [h0, Nat.zero_add] at hl
          exact hl ▸ hinv
      · obtain ⟨s', r', w', hpass, hinv', hlt⟩ := copyPass_step hsrc
          hdata.symm hs (by omega) hfits hinv hpos
        exact Or.inl ⟨s', hpass, ⟨r', w', hinv'⟩, hlt⟩)
    (len + 1) _ ⟨0, 0, hinit⟩ (Nat.lt_succ_self len)
  obtain ⟨dest', hdrain, hrep⟩ := iterate_ok (drainPass (M := M))
    (fun s => ∃ w, CopyInv (Fits dest) data dvs srcPos destPos s data.length w)
    CopyState.remaining
    (fun dest' => Rep dest' (splice dvs destPos data) ∧
      ∀ u, Fits dest u → Fits dest' u)
    (by
      rintro s ⟨w, hinv⟩
      rcases Nat.eq_zero_or_pos s.remaining with h0 | hpos
      · refine Or.inr ⟨s.dest, ?_, ?_, hinv.fits⟩
        · simp only [drainPass, h0, Nat.lt_irrefl, if_false]
        · have hr := hinv.remaining
          have hrep := hinv.rep
          rw [h0, Nat.zero_add] at hr
          rwa [hr, List.take_length] at hrep
      · obtain ⟨s', w', hpass, hinv', hlt⟩ := drainPass_step (by omega) hfits
          hinv hpos
        exact Or.inl ⟨s', hpass, ⟨w', hinv'⟩, hlt⟩)
    (s.remaining + 1) s ⟨w, hread⟩ (Nat.lt_succ_self _)
  refine ⟨dest', ?_, hrep⟩
  rw [copyWithBuffer, guardOk_pos hbuf, ok_bind, hloop,
    ok_bind, hdrain]

/-- `copy` of a whole array into one that is as long. -/
theorem copy_spec {svs dvs : List U64} (mem : Nat) (src : R) (dest : M)
    (hsrc : Rep src svs) (hdst : Rep dest dvs)
    (hlen : svs.length = dvs.length) (hmem : 8 ≤ mem)
    (halloc : mem ≤ maxAlloc) (hfits : ∀ v ∈ svs, Fits dest v) :
    ∃ dest', copy src 0 dest 0 svs.length mem = .ok dest' ∧ Rep dest' svs ∧
      ∀ u, Fits dest u → Fits dest' u := by
  simp only [copy]
  rw [guardOk_pos (by rw [size_eq hsrc]; omega), ok_bind,
    guardOk_pos (by rw [size_eq hdst]; omega), ok_bind,
    if_neg (by omega)]
  rcases Nat.eq_zero_or_pos svs.length with h0 | hpos
  · rw [h0, if_neg (by omega)]
    have hsnil : svs = [] := List.length_eq_zero_iff.1 h0
    have hdnil : dvs = [] := List.length_eq_zero_iff.1 (hlen ▸ h0)
    exact ⟨dest, rfl, by rwa [hsnil, ← hdnil], fun u hu => hu⟩
  · rw [if_pos hpos, vecZeroed_ok (by omega), ok_bind]
    obtain ⟨dest', hrun, hrep, hfit⟩ := copyWithBuffer_spec 0 0 svs.length (List.replicate (min (mem / 8) svs.length) 0#64) hsrc hdst
      (by omega) (by omega)
      (by rw [← List.length_pos_iff, List.length_replicate]; omega)
      fun v hv => hfits v (List.mem_of_mem_drop (List.mem_of_mem_take hv))
    refine ⟨dest', hrun, ?_, hfit⟩
    rw [List.drop_zero, List.take_length] at hrep
    have hall : splice dvs 0 svs = svs := by
      rw [splice, Nat.zero_add, hlen, List.drop_length, List.take_zero,
        List.append_nil, List.nil_append]
    rwa [hall] at hrep

end Copy

/-! ## Runs of operations -/

/-- One operation of a caller.  A bulk operation is repeated, advancing by
its return value, until all values are done. -/
inductive Op where
  | set (index : Nat) (value : U64)
  | setBulk (index : Nat) (values : List U64)
  | fill (lo hi : Nat) (value : U64)
  | clear
  | get (index : Nat)
  | getBulk (index len : Nat)
  deriving DecidableEq

namespace Op

/-- Indices in range, and values that fit. -/
def Valid (size : Nat) (fits : U64 → Prop) : Op → Prop
  | set i v => i < size ∧ fits v
  | setBulk i vs => i + vs.length ≤ size ∧ ∀ v ∈ vs, fits v
  | fill lo hi v => lo ≤ hi ∧ hi ≤ size ∧ fits v
  | clear => True
  | get i => i < size
  | getBulk i len => i + len ≤ size

theorem Valid.mono {size : Nat} {fits fits' : U64 → Prop} {op : Op}
    (h : op.Valid size fits) (hfits : ∀ v, fits v → fits' v) :
    op.Valid size fits' := by
  cases op with
  | set i v => exact ⟨h.1, hfits v h.2⟩
  | setBulk i vs => exact ⟨h.1, fun v hv => hfits v (h.2 v hv)⟩
  | fill lo hi v => exact ⟨h.1, h.2.1, hfits v h.2.2⟩
  | clear => exact h
  | get i => exact h
  | getBulk i len => exact h

/-- The operation on a plain list: the list after it, and what it reads. -/
def plain (vs : List U64) : Op → List U64 × List U64
  | set i v => (vs.set i v, [])
  | setBulk i us => (splice vs i us, [])
  | fill lo hi v => (splice vs lo (List.replicate (hi - lo) v), [])
  | clear => (List.replicate vs.length 0#64, [])
  | get i => (vs, (vs.drop i).take 1)
  | getBulk i len => (vs, (vs.drop i).take len)

end Op

section Run

variable {M : Type} [Mutable M]

/-- `set_bulk`, advancing by its return value. -/
def setAllPass (s : M × Nat × List U64) :
    Call ((M × Nat × List U64) ⊕ M) :=
  let (m, i, us) := s
  if us = [] then .ok (.inr m)
  else do
    let (m, n) ← Mutable.setBulk m i us
    .ok (.inl (m, i + n, us.drop n))

/-- `get_bulk`, advancing by its return value: the index, the slots that are
left and the values read. -/
def getAllPass (m : M) (s : Nat × List U64 × List U64) :
    Call ((Nat × List U64 × List U64) ⊕ List U64) :=
  let (i, slots, vals) := s
  if slots = [] then .ok (.inr vals)
  else do
    let (slots, n) ← Mutable.getBulk m i slots
    .ok (.inl (i + n, slots.drop n, vals ++ slots.take n))

/-- The operation on a packed array. -/
def Op.run (m : M) : Op → Call (M × List U64)
  | .set i v => do
    let m ← Mutable.set m i v
    .ok (m, [])
  | .setBulk i us => do
    let m ← iterate setAllPass (us.length + 1) (m, i, us)
    .ok (m, [])
  | .fill lo hi v => do
    let m ← Mutable.fill m lo hi v
    .ok (m, [])
  | .clear => do
    let m ← Mutable.clear m
    .ok (m, [])
  | .get i => do
    let v ← Mutable.get m i
    .ok (m, [v])
  | .getBulk i len => do
    let vals ← iterate (getAllPass m) (len + 1)
      (i, List.replicate len 0#64, [])
    .ok (m, vals)

/-- A sequence of operations, with everything that it reads. -/
def runAll (m : M) : List Op → Call (M × List U64)
  | [] => .ok (m, [])
  | op :: ops => do
    let (m, out) ← op.run m
    let (m, outs) ← runAll m ops
    .ok (m, out ++ outs)

end Run

/-- The sequence on a plain list. -/
def plainAll (vs : List U64) : List Op → List U64 × List U64
  | [] => (vs, [])
  | op :: ops =>
    let (vs, out) := op.plain vs
    let (vs, outs) := plainAll vs ops
    (vs, out ++ outs)

theorem Op.plain_length {vs : List U64} {op : Op} {fits : U64 → Prop}
    (h : op.Valid vs.length fits) : (op.plain vs).1.length = vs.length := by
  cases op with
  | set i v => exact List.length_set
  | setBulk i us => exact splice_length h.1
  | fill lo hi v =>
    refine splice_length ?_
    have := h.1
    have := h.2.1
    rw [List.length_replicate]
    omega
  | clear => exact List.length_replicate
  | get i => rfl
  | getBulk i len => rfl

section Refine

variable {M : Type} [Mutable M] [LawfulMutable M]

open LawfulMutable

theorem iterate_setAllPass (fuel : Nat) :
    ∀ (m : M) (i : Nat) (us vs : List U64), Rep m vs →
      i + us.length ≤ vs.length → (∀ v ∈ us, Fits m v) → us.length < fuel →
      ∃ m', iterate setAllPass fuel (m, i, us) = .ok m' ∧
        Rep m' (splice vs i us) ∧ ∀ u, Fits m u → Fits m' u := by
  induction fuel with
  | zero =>
    intro m i us vs _ _ _ hfuel
    omega
  | succ fuel ih =>
    intro m i us vs hrep hlen hfits hfuel
    by_cases hnil : us = []
    · subst hnil
      exact ⟨m, iterate_leave (by simp [setAllPass]), by rwa [splice_nil],
        fun u hu => hu⟩
    · have hpos := List.length_pos_iff.2 hnil
      obtain ⟨m₁, n, hset, hn, hnle, -, hrep₁, hfit₁⟩ := setBulk_spec (i := i)
        hrep (by omega) hnil hfits
      have htake : (us.take n).length = n := List.length_take_of_le hnle
      obtain ⟨m₂, hrun, hrep₂, hfit₂⟩ := ih m₁ (i + n) (us.drop n) _ hrep₁
        (by rw [splice_length (by omega), List.length_drop]; omega)
        (fun v hv => hfit₁ v (hfits v (List.mem_of_mem_drop hv)))
        (by rw [List.length_drop]; omega)
      have hpass : setAllPass (m, i, us) =
          .ok (.inl (m₁, i + n, us.drop n)) := by
        simp only [setAllPass, if_neg hnil, hset, ok_bind]
      have hjoin := splice_splice (l := vs) (i := i) (us.take n) (us.drop n)
        (by omega)
      rw [htake, List.take_append_drop] at hjoin
      refine ⟨m₂, ?_, by rwa [hjoin] at hrep₂, fun u hu => hfit₂ u (hfit₁ u hu)⟩
      rw [iterate_continue hpass, hrun]

theorem iterate_getAllPass {m : M} {vs : List U64} (hrep : Rep m vs)
    (fuel : Nat) :
    ∀ (i : Nat) (slots vals : List U64), i + slots.length ≤ vs.length →
      slots.length < fuel →
      iterate (getAllPass m) fuel (i, slots, vals) =
        .ok (vals ++ (vs.drop i).take slots.length) := by
  induction fuel with
  | zero =>
    intro i slots vals _ hfuel
    omega
  | succ fuel ih =>
    intro i slots vals hlen hfuel
    by_cases hnil : slots = []
    · subst hnil
      exact iterate_leave (by simp [getAllPass])
    · have hpos := List.length_pos_iff.2 hnil
      obtain ⟨n, hn, hnle, hin, hget⟩ := getBulk_spec (i := i) hrep (by omega)
        hnil
      have hread : ((vs.drop i).take n).length = n := by
        rw [List.length_take, List.length_drop]
        omega
      have hpass : getAllPass m (i, slots, vals) =
          .ok (.inl (i + n, slots.drop n, vals ++ (vs.drop i).take n)) := by
        simp only [getAllPass, if_neg hnil, hget, ok_bind]
        rw [List.drop_left' hread, List.take_left' hread]
      rw [iterate_continue hpass, ih (i + n) _ _
        (by rw [List.length_drop]; omega) (by rw [List.length_drop]; omega),
        List.append_assoc, ← List.drop_drop, take_append_take_drop,
        List.length_drop, Nat.add_sub_cancel' hnle]

/-- One operation. -/
theorem Op.run_refines {m : M} {vs : List U64} (hrep : Rep m vs) {op : Op}
    (h : op.Valid vs.length (Fits m)) :
    ∃ m', op.run m = .ok (m', (op.plain vs).2) ∧ Rep m' (op.plain vs).1 ∧
      ∀ u, Fits m u → Fits m' u := by
  cases op with
  | set i v =>
    obtain ⟨m', hset, hrep', hfit⟩ := set_spec hrep h.1 h.2
    exact ⟨m', by simp only [Op.run, hset, ok_bind]; rfl, hrep', hfit⟩
  | setBulk i us =>
    obtain ⟨m', hset, hrep', hfit⟩ := iterate_setAllPass (us.length + 1) m i us
      vs hrep h.1 h.2 (Nat.lt_succ_self _)
    exact ⟨m', by simp only [Op.run, hset, ok_bind]; rfl, hrep', hfit⟩
  | fill lo hi v =>
    obtain ⟨m', hset, hrep', hfit⟩ := fill_spec hrep h.1 h.2.1 h.2.2
    exact ⟨m', by simp only [Op.run, hset, ok_bind]; rfl, hrep', hfit⟩
  | clear =>
    obtain ⟨m', hset, hrep', hfit⟩ := clear_spec hrep
    exact ⟨m', by simp only [Op.run, hset, ok_bind]; rfl, hrep', hfit⟩
  | get i =>
    have hi : i < vs.length := h
    have hget := get_spec hrep (List.getElem?_eq_getElem hi)
    refine ⟨m, ?_, hrep, fun u hu => hu⟩
    have hone : (vs.drop i).take 1 = [vs[i]] := by
      rw [List.drop_eq_getElem_cons hi]
      rfl
    simp only [Op.run, hget, ok_bind, Op.plain, hone]
  | getBulk i len =>
    have hget := iterate_getAllPass hrep (len + 1) i (List.replicate len 0#64)
      [] (by rw [List.length_replicate]; exact h)
      (by rw [List.length_replicate]; omega)
    rw [List.length_replicate, List.nil_append] at hget
    refine ⟨m, ?_, hrep, fun u hu => hu⟩
    simp only [Op.run, hget, ok_bind, Op.plain]

/-- A run of operations on a packed array is the run on the plain list. -/
theorem runAll_refines (ops : List Op) :
    ∀ {m : M} {vs : List U64}, Rep m vs →
      (∀ op ∈ ops, op.Valid vs.length (Fits m)) →
      ∃ m', runAll m ops = .ok (m', (plainAll vs ops).2) ∧
        Rep m' (plainAll vs ops).1 ∧ ∀ u, Fits m u → Fits m' u := by
  induction ops with
  | nil =>
    intro m vs hrep _
    exact ⟨m, rfl, hrep, fun u hu => hu⟩
  | cons op ops ih =>
    intro m vs hrep hvalid
    have hop := hvalid op (List.mem_cons_self ..)
    obtain ⟨m₁, hrun, hrep₁, hfit₁⟩ := Op.run_refines hrep hop
    obtain ⟨m₂, hruns, hrep₂, hfit₂⟩ := ih hrep₁ (by
      intro op' hop'
      rw [Op.plain_length hop]
      exact (hvalid op' (List.mem_cons_of_mem op hop')).mono hfit₁)
    refine ⟨m₂, ?_, hrep₂, fun u hu => hfit₂ u (hfit₁ u hu)⟩
    simp only [runAll, hrun, hruns, ok_bind]
    rfl

end Refine

/-! ## What a caller sees -/

/-- The array is the plain list `vs`, as far as its operations tell.  A bulk
call makes progress and stays in its range. -/
structure Behaves {M : Type} [Mutable M] (fits : U64 → Prop) (m : M)
    (vs : List U64) : Prop where
  get : ∀ i v, vs[i]? = some v → Mutable.get m i = .ok v
  getBulk : ∀ i arr, i < vs.length → arr ≠ [] →
    ∃ n, 1 ≤ n ∧ n ≤ arr.length ∧ i + n ≤ vs.length ∧
      Mutable.getBulk m i arr = .ok ((vs.drop i).take n ++ arr.drop n, n)
  setBulk : ∀ i arr, i < vs.length → arr ≠ [] → (∀ v ∈ arr, fits v) →
    ∃ m' n, Mutable.setBulk m i arr = .ok (m', n) ∧ 1 ≤ n ∧
      n ≤ arr.length ∧ i + n ≤ vs.length ∧
      ∀ j v, (if i ≤ j ∧ j < i + n then arr[j - i]? else vs[j]?) = some v →
        Mutable.get m' j = .ok v

/-- A new array of `n` values that runs every sequence of operations as a
plain list does. -/
def RefinesPlain {M : Type} [Mutable M] (new : Call M) (n : Nat)
    (fits : U64 → Prop) : Prop :=
  ∃ m, new = .ok m ∧ ∀ ops, (∀ op ∈ ops, op.Valid n fits) →
    ∃ m', runAll m ops =
        .ok (m', (plainAll (List.replicate n 0#64) ops).2) ∧
      Behaves fits m' (plainAll (List.replicate n 0#64) ops).1

section

variable {M : Type} [Mutable M] [LawfulMutable M]

open LawfulMutable

theorem behaves_of_rep {fits : U64 → Prop} {m : M} {vs : List U64}
    (h : Rep m vs) (hfits : ∀ v, fits v → Fits m v) : Behaves fits m vs where
  get := fun _ _ hv => get_spec h hv
  getBulk := fun _ _ hi hne => getBulk_spec h hi hne
  setBulk := by
    intro i arr hi hne hv
    obtain ⟨m', n, hset, hn, hle, hin, h', -⟩ := setBulk_spec h hi hne
      fun v hmem => hfits v (hv v hmem)
    have htake : (arr.take n).length = n := List.length_take_of_le hle
    refine ⟨m', n, hset, hn, hle, hin, fun j v hj => get_spec h' ?_⟩
    rw [getElem?_splice (by omega), htake]
    by_cases hjn : i ≤ j ∧ j < i + n
    · rw [if_pos hjn] at hj ⊢
      rw [List.getElem?_take_of_lt (by omega), hj]
    · rw [if_neg hjn] at hj ⊢
      exact hj

/-- A lawful array that starts with zeros refines the plain list. -/
theorem refinesPlain_of_rep {new : Call M} {m : M} {n : Nat}
    {fits : U64 → Prop} (hnew : new = .ok m)
    (h : Rep m (List.replicate n 0#64)) (hfits : ∀ v, fits v → Fits m v) :
    RefinesPlain new n fits := by
  refine ⟨m, hnew, fun ops hops => ?_⟩
  obtain ⟨m', hrun, h', hfit⟩ := runAll_refines ops h (by
    intro op hop
    rw [List.length_replicate]
    exact (hops op hop).mono hfits)
  exact ⟨m', hrun, behaves_of_rep h' fun v hv => hfit v (hfits v hv)⟩

end

end LuceneRust.Util.Packed
