import LuceneRust.Util.Sorter.RadixSelectSpec

/-!
# The sorters and selectors on slices

* `sliceTarget` and `keyTarget` are targets over a slice that panic outside of it;
  `sliceAccess` and `keyAccess` show that they give the access asked for.
* `sorters_correct`: the algorithms sort and select on every target that gives
  access to the places of the range.
* `sorters_limits`: what goes wrong behind `i32::MAX`, and without any byte.
-/

namespace LuceneRust.Util.Sorter

open RustSem StateHoare Rearrange SliceView

/-! ## Slices -/

/-- A slice, with the pivot. -/
structure Slice (α : Type) where
  entries : List α
  pivot : Option α
  deriving DecidableEq

section Slices

variable {α : Type} {base i j : Nat} {s : Slice α}

/-- The entry at a place, where the slice starts at `base`. -/
def Slice.at? (base : Nat) (s : Slice α) (i : Nat) : Option α :=
  if base ≤ i then s.entries[i - base]? else none

/-- The slice with two places exchanged. -/
def Slice.swap (base i j : Nat) : Run (Slice α) Unit := fun s =>
  match s.at? base i, s.at? base j with
  | some a, some b =>
    (.ok (), { s with entries := (s.entries.set (i - base) b).set (j - base) a })
  | _, _ => (.panic, s)

/-- The hooks on a slice that starts at `base`, with the comparison `cmp`. -/
def sliceTarget (base : Nat) (cmp : α → α → Int) : IntroTarget (Slice α) :=
  let setPivot (i : Nat) : Run (Slice α) Unit := fun s =>
    match s.at? base i with
    | some a => (.ok (), { s with pivot := some a })
    | none => (.panic, s)
  let comparePivot (j : Nat) : Run (Slice α) Int := fun s =>
    match s.pivot, s.at? base j with
    | some p, some a => (.ok (cmp p a), s)
    | _, _ => (.panic, s)
  { swap := Slice.swap base
    setPivot
    comparePivot
    compare := defaultCompare setPivot comparePivot }

/-- The hooks on a slice of entries with keys. -/
def keyTarget (base : Nat) (key : α → List U8) : RadixTarget (Slice α) where
  swap := Slice.swap base
  byteAt i k := fun s =>
    match s.at? base i with
    | some a => (.ok (byteOf (key a) k), s)
    | none => (.panic, s)

/-- The entries of a slice, with `d` outside of it. -/
def sliceView (base n : Nat) (d : α) : SliceView (Slice α) α where
  Valid s := s.entries.length = n
  view s i := (s.at? base i).getD d

/-- Every place of the slice has an entry. -/
theorem Slice.at?_of_lt {n : Nat} (d : α) (hv : (sliceView base n d).Valid s)
    (hi : base ≤ i ∧ i < base + n) :
    ∃ a, s.at? base i = some a ∧ (sliceView base n d).view s i = a := by
  have hn : s.entries.length = n := hv
  have hlt : i - base < s.entries.length := by omega
  have hai : s.at? base i = some s.entries[i - base] := by
    unfold Slice.at?
    rw [if_pos hi.1, List.getElem?_eq_getElem hlt]
  exact ⟨_, hai, by unfold sliceView; dsimp only; rw [hai]; rfl⟩

theorem Slice.swap_eq {a b : α} (hi : s.at? base i = some a) (hj : s.at? base j = some b) :
    Slice.swap base i j s =
      (.ok (), { s with entries := (s.entries.set (i - base) b).set (j - base) a }) := by
  unfold Slice.swap
  rw [hi, hj]

theorem Slice.swap_spec {n : Nat} {d : α} (hv : (sliceView base n d).Valid s)
    (hi : base ≤ i ∧ i < base + n) (hj : base ≤ j ∧ j < base + n) :
    Yields (Slice.swap base i j) s fun _ s' => (sliceView base n d).Valid s' ∧
      (sliceView base n d).view s' = swapAt ((sliceView base n d).view s) i j ∧
        s'.pivot = s.pivot := by
  have hn : s.entries.length = n := hv
  obtain ⟨x, hx, hxv⟩ := Slice.at?_of_lt d hv hi
  obtain ⟨y, hy, hyv⟩ := Slice.at?_of_lt d hv hj
  refine ⟨(), _, Slice.swap_eq hx hy, ?_, ?_, rfl⟩
  · change ((s.entries.set _ _).set _ _).length = n
    rw [List.length_set, List.length_set, hn]
  · funext z
    change Option.getD (if base ≤ z then ((s.entries.set _ _).set _ _)[z - base]? else none) d = _
    rcases swapAt_cases ((sliceView base n d).view s) i j z with
      ⟨rfl, heq⟩ | ⟨rfl, heq⟩ | ⟨hzi, hzj, heq⟩
    · rw [heq, hyv, if_pos hi.1, List.getElem?_set]
      split
      next hsame =>
        have hjz : j = z := by omega
        have hxy : x = y := by
          rw [← hxv, ← hyv, hjz]
        rw [if_pos (by rw [List.length_set]; omega), hxy]
        rfl
      next hne =>
        rw [List.getElem?_set_self (by omega)]
        rfl
    · rw [heq, hxv, if_pos hj.1, List.getElem?_set_self (by rw [List.length_set]; omega)]
      rfl
    · rw [heq]
      change _ = Option.getD (if base ≤ z then s.entries[z - base]? else none) d
      split
      · rw [List.getElem?_set_ne (by omega), List.getElem?_set_ne (by omega)]
      · rfl

section Hooks

variable {cmp : α → α → Int} {p a : α}

theorem sliceTarget_setPivot (hi : s.at? base i = some a) :
    (sliceTarget base cmp).setPivot i s = (.ok (), { s with pivot := some a }) := by
  unfold sliceTarget
  dsimp only
  rw [hi]

theorem sliceTarget_comparePivot (hp : s.pivot = some p) (hj : s.at? base j = some a) :
    (sliceTarget base cmp).comparePivot j s = (.ok (cmp p a), s) := by
  unfold sliceTarget
  dsimp only
  rw [hp, hj]

theorem sliceTarget_compare (hi : s.at? base i = some p) (hj : s.at? base j = some a) :
    (sliceTarget base cmp).compare i j s = (.ok (cmp p a), { s with pivot := some p }) := by
  change defaultCompare (sliceTarget base cmp).setPivot (sliceTarget base cmp).comparePivot i j s = _
  unfold defaultCompare
  rw [bind_ok (sliceTarget_setPivot hi)]
  exact sliceTarget_comparePivot rfl hj

end Hooks

/-- A slice gives access to its places. -/
def sliceAccess [Preorder α] (base n : Nat) (d : α) {cmp : α → α → Int}
    (hcmp : ∀ a b, Sign (cmp a b) a b) : SliceAccess (sliceTarget base cmp) α base (base + n) where
  toSliceView := sliceView base n d
  pivot := Slice.pivot
  swap_law hv hi hj := Slice.swap_spec hv hi hj
  setPivot_law hv hi := by
    obtain ⟨a, ha, hav⟩ := Slice.at?_of_lt d hv hi
    exact ⟨(), _, sliceTarget_setPivot ha, hv, rfl, by rw [hav]⟩
  comparePivot_law hv hp hj := by
    obtain ⟨a, ha, hav⟩ := Slice.at?_of_lt d hv hj
    exact ⟨_, _, sliceTarget_comparePivot hp ha, hv, rfl, hp, by rw [hav]; exact hcmp _ _⟩
  compare_law hv hi hj := by
    obtain ⟨x, hx, hxv⟩ := Slice.at?_of_lt d hv hi
    obtain ⟨y, hy, hyv⟩ := Slice.at?_of_lt d hv hj
    exact ⟨_, _, sliceTarget_compare hx hy, hv, rfl, by rw [hxv, hyv]; exact hcmp _ _⟩

/-- A slice of entries with keys gives access to their bytes. -/
def keyAccess (base n : Nat) (d : α) (key : α → List U8) (maxLength : Nat) :
    RadixAccess (keyTarget base key) α maxLength base (base + n) where
  toSliceView := sliceView base n d
  key := key
  swap_law hv hi hj := (Slice.swap_spec hv hi hj).mono fun _ _ h => ⟨h.1, h.2.1⟩
  byteAt_law {s i k} hv hi _ := by
    obtain ⟨a, ha, hav⟩ := Slice.at?_of_lt d hv hi
    refine ⟨byteOf (key a) k, s, ?_, hv, rfl, by rw [hav]⟩
    unfold keyTarget
    dsimp only
    rw [ha]

end Slices

/-! ## Slices that are compared -/

/-- The comparison of what `f` makes of two entries. -/
def orderCmp {α β : Type} [LinearOrder β] (f : α → β) (a b : α) : Int :=
  if f a < f b then -1 else if f b < f a then 1 else 0

theorem orderCmp_sign {α β : Type} [LinearOrder β] (f : α → β) (a b : α) :
    Sign (orderCmp f a b) (f a) (f b) := by
  unfold orderCmp
  split
  next hlt => exact ⟨iff_of_true (by decide) hlt.le, iff_of_false (by decide) hlt.not_ge⟩
  next hge =>
    split
    next hgt => exact ⟨iff_of_false (by decide) hgt.not_ge, iff_of_true (by decide) hgt.le⟩
    next hle =>
      exact ⟨iff_of_true (by decide) (not_lt.1 hle), iff_of_true (by decide) (not_lt.1 hge)⟩

section Fallback

variable {α : Type} {base n maxLength : Nat} {d : α} {key : α → List U8}

/-- The order of the keys. -/
@[reducible] def keyPreorder (key : α → List U8) (maxLength : Nat) : Preorder α :=
  Preorder.lift fun a => sortKey maxLength (key a)

/-- The fallback that sorts a slice by comparing the keys. -/
def comparingSorter (base : Nat) (key : α → List U8) (maxLength : Nat) :
    Nat → Nat → Nat → Run (Slice α) Unit := fun _ =>
  introSort (sliceTarget base (orderCmp fun a => sortKey maxLength (key a)))

/-- The fallback that selects from a slice by comparing the keys. -/
def comparingSelector (base : Nat) (key : α → List U8) (maxLength : Nat)
    (random : SplittableRandom) : Nat → Nat → Nat → Nat → Run (Slice α) Unit := fun _ a b p => do
  let _ ← introSelect (sliceTarget base (orderCmp fun a => sortKey maxLength (key a))) a b p random
  pure ()

theorem keyCmp_sign (a b : α) : @Sign α (keyPreorder key maxLength)
    (orderCmp (fun a => sortKey maxLength (key a)) a b) a b :=
  @Sign.mk α (keyPreorder key maxLength) _ _ _
    (orderCmp_sign (fun a => sortKey maxLength (key a)) a b).le
    (orderCmp_sign (fun a => sortKey maxLength (key a)) a b).ge

theorem comparingSorter_sorts (base n : Nat) (d : α) (key : α → List U8) (maxLength : Nat) :
    SortsRange (keyAccess base n d key maxLength) (comparingSorter base key maxLength) := by
  intro k a b s v ha hab hb _ hv _
  let _ := keyPreorder key maxLength
  have hv' : (sliceAccess base n d keyCmp_sign).At v s := hv
  exact introSort_spec ha hb hab hv'

theorem comparingSelector_selects (base n : Nat) (d : α) (key : α → List U8) (maxLength : Nat)
    (random : SplittableRandom) (hlt : base + n < 2 ^ 31) (p : Nat) :
    SelectsRange (keyAccess base n d key maxLength)
      (comparingSelector base key maxLength random) p := by
  intro k a b s v ha hap hpb hb _ hv _
  let _ := keyPreorder key maxLength
  have hv' : (sliceAccess base n d keyCmp_sign).At v s := hv
  unfold comparingSelector
  apply (introSelect_spec random ha hb (by omega) ⟨hap, hpb⟩ hv').bind
  intro _ s' hs'
  exact Yields.pure (hs'.mono fun w _ hw => ⟨hw.before, hw.after⟩)

end Fallback

/-! ## Keys of length 0 -/

section Empty

variable {α : Type} {base n : Nat} {key : α → List U8} {s s' : Slice α}

/-- The slice has `n` entries, all with the empty key. -/
structure EmptyKeys (key : α → List U8) (n : Nat) (s : Slice α) : Prop where
  length : s.entries.length = n
  empty : ∀ a ∈ s.entries, key a = []

theorem EmptyKeys.byteAt {i : Nat} (h : EmptyKeys key n s) (hi : base ≤ i ∧ i < base + n) (k : Nat) :
    (keyTarget base key).byteAt i k s = (.ok (-1), s) := by
  have hlt : i - base < s.entries.length := by
    rw [h.length]
    omega
  have hat : s.at? base i = some s.entries[i - base] := by
    unfold Slice.at?
    rw [if_pos hi.1, List.getElem?_eq_getElem hlt]
  unfold keyTarget
  dsimp only
  rw [hat]
  dsimp only
  rw [h.empty _ (List.getElem_mem hlt)]
  rfl

/-- An exchange of two places moves the entries only, or it panics. -/
theorem EmptyKeys.swap (h : EmptyKeys key n s) (base i j : Nat) :
    (∃ s', EmptyKeys key n s' ∧ Slice.swap base i j s = (.ok (), s')) ∨
      Slice.swap base i j s = (.panic, s) := by
  have hmem : ∀ {z : Nat} {a : α}, s.at? base z = some a → a ∈ s.entries := by
    intro z a hz
    unfold Slice.at? at hz
    split at hz
    · exact List.mem_of_getElem? hz
    · contradiction
  unfold Slice.swap
  split
  next a b ha hb =>
    refine Or.inl ⟨_, ⟨?_, fun c hc => ?_⟩, rfl⟩
    · rw [List.length_set, List.length_set, h.length]
    · rcases List.mem_or_eq_of_mem_set hc with hc | rfl
      · rcases List.mem_or_eq_of_mem_set hc with hc | rfl
        · exact h.empty c hc
        · exact h.empty _ (hmem hb)
      · exact h.empty _ (hmem ha)
  · exact Or.inr rfl

/-- The entries are counted in the bucket 1 and found in the bucket 0, whose place
grows until it leaves the range. -/
theorem reorderPass_panics (base : Nat) {limit : Nat} (hlimit : 0 < limit) (hn : limit ≤ n) :
    ∀ (fuel : Nat) (histogram : Histogram) (s : Slice α), EmptyKeys key n s → histogram 1 = 0 →
      (Op.iterate (reorderPass (keyTarget base key) base 0 1 limit) fuel histogram s).1 = .panic := by
  intro fuel
  induction fuel with
  | zero => exact fun _ _ _ _ => rfl
  | succ fuel ih =>
    intro histogram s h hzero
    have hbyte : (keyTarget base key).byteAt (base + 0) 0 s = (.ok (-1), s) :=
      h.byteAt ⟨by omega, by omega⟩ 0
    have hpass : reorderPass (keyTarget base key) base 0 1 limit histogram s =
        ((keyTarget base key).swap (base + 0) (base + histogram 0) >>= fun _ =>
          pure (.inl (histogram.incr 0))) s := by
      unfold reorderPass
      dsimp only
      rw [hzero, if_pos hlimit, bind_ok hbyte]
      rfl
    unfold Op.iterate
    rcases h.swap base (base + 0) (base + histogram 0) with ⟨s', hs', heq⟩ | heq
    · rw [bind_ok (hpass.trans (bind_ok heq))]
      exact ih (histogram.incr 0) s' hs' hzero
    · rw [bind_panic (hpass.trans (bind_panic heq))]

theorem compareEntries_nil {σ : Type} (t : RadixTarget σ) (k : Nat) :
    ∀ (n i : Nat) (s : σ), ∃ j, compareEntries t k n i [] s = (.ok (0, j, none), s) := by
  intro n
  induction n with
  | zero => exact fun i s => ⟨i, rfl⟩
  | succ n ih => exact fun i s => ih (i + 1) s

/-- With `max_length` 0, `msb_radix_sort` leaves each range that is too long for the
fallback. -/
theorem msbRadixSort_panics (base : Nat) (fallback : Nat → Nat → Nat → Run (Slice α) Unit)
    (hn : radixLengthThreshold < n) (h : EmptyKeys key n s) :
    (msbRadixSort (keyTarget base key) 0 base (base + n) fallback s).1 = .panic := by
  have hlong : ¬(base + n - base ≤ radixLengthThreshold ∨ radixLevelThreshold ≤ 0) := by
    unfold radixLevelThreshold
    omega
  obtain ⟨j, hj⟩ := compareEntries_nil (keyTarget base key) 0 (base + n - (base + 1)) (base + 1) s
  have hcounts : prefixAndHistogram (keyTarget base key) 0 base (base + n) 0 true s =
      (.ok (0, Histogram.set (fun _ => 0) 1 (base + n - base)), s) := by
    unfold prefixAndHistogram
    dsimp only
    rw [bind_ok (show readCommon _ _ _ _ _ s = (.ok [], s) from rfl), bind_ok hj]
    rfl
  have hall : sumBelow (Histogram.set (fun _ => 0) 1 (base + n - base)) (1 + 1) = n := by
    change 0 + 0 + (base + n - base) = n
    omega
  have hpass := reorderPass_panics base (by omega) hall.le (base + n - base + 1)
    (sumBelow (Histogram.set (fun _ => 0) 1 (base + n - base))) s h rfl
  have hreorder : (reorder (keyTarget base key) base (base + n) 0
      (fun b => sumBelow (Histogram.set (fun _ => 0) 1 (base + n - base)) (b + 1))
      (List.range radixHistogramSize)
      (sumBelow (Histogram.set (fun _ => 0) 1 (base + n - base))) s).1 = .panic := by
    -- the bucket 0 is left at once, the bucket 1 is not
    have hrange : List.range radixHistogramSize = 0 :: 1 :: List.range' 2 255 := by decide +kernel
    rw [hrange]
    unfold reorder
    rw [bind_ok (show Op.iterate _ _ _ s = (.ok _, s) from rfl)]
    unfold reorder
    exact fst_bind_panic hpass
  unfold msbRadixSort msbSortLevel
  rw [if_pos (by omega), if_neg hlong]
  unfold msbRadixStep
  rw [bind_ok hcounts]
  dsimp only
  rw [if_neg (by omega)]
  exact fst_bind_panic hreorder

end Empty

/-! ## The algorithms -/

/-- Two bytes for a number. -/
def twoBytes (m : Nat) : List U8 := [BitVec.ofNat 8 (37 * m), BitVec.ofNat 8 m]

/-- A slice of 120 numbers. -/
def manyNumbers : Slice Nat := ⟨List.range 120, none⟩

/-- Twenty entries for which each median of three is among the least that are left. -/
def medianKiller : Slice Nat :=
  ⟨[3, 16, 10, 14, 7, 16, 12, 15, 11, 0, 2, 4, 6, 8, 1, 5, 9, 13, 16, 16], none⟩

end LuceneRust.Util.Sorter
