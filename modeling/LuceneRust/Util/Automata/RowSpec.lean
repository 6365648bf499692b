import LuceneRust.Util.Automata.Automaton

/-!
# The transitions of one state

What `finish_current_state` does to the transitions of a state, as a list.

* `rowEdge_finishRow`: the labels that lead to each state stay the same.
* `sorted_finishRow`: the result is in the order of `(min, max, dest)`.
* `mem_finishRow`: every end of a label interval that is left was an end of
  an interval that was added.
* `chain_finishRow`: intervals that send no label to two states come out
  apart from each other, so that the overlap check passes.
* `searchRow_spec`: the binary search finds the transition of a label in a
  row whose intervals are apart.
-/

namespace LuceneRust.Util.Automata

open Transition Automaton

variable {t u v w : Transition} {ts us : List Transition} {c : Int} {d d' : Nat}

/-- A transition of the list leads to `d` on the label `c`. -/
def RowEdge (ts : List Transition) (c : Int) (d : Nat) : Prop :=
  ∃ t ∈ ts, t.dest = d ∧ t.Covers c

/-- No label leads to two states. -/
def RowDet (ts : List Transition) : Prop :=
  ∀ c d d', RowEdge ts c d → RowEdge ts c d' → d = d'

/-- `t` ends before `u` starts. -/
def Before (t u : Transition) : Prop :=
  t.max < u.min

/-- The labels of `t` are an interval between `lo` and `hi`. -/
def LabelIn (lo hi : Int) (t : Transition) : Prop :=
  lo ≤ t.min ∧ t.min ≤ t.max ∧ t.max ≤ hi

instance (lo hi : Int) (t : Transition) : Decidable (LabelIn lo hi t) :=
  inferInstanceAs (Decidable (_ ∧ _))

@[simp] theorem rowEdge_nil : ¬ RowEdge [] c d := by
  simp [RowEdge]

theorem rowEdge_cons :
    RowEdge (t :: ts) c d ↔ (t.dest = d ∧ t.Covers c) ∨ RowEdge ts c d := by
  simp [RowEdge]

theorem rowEdge_append :
    RowEdge (ts ++ us) c d ↔ RowEdge ts c d ∨ RowEdge us c d := by
  simp [RowEdge, or_and_right, exists_or]

theorem rowEdge_perm (h : ts.Perm us) : RowEdge ts c d ↔ RowEdge us c d := by
  unfold RowEdge
  constructor
  · intro ⟨t, ht, hc⟩
    exact ⟨t, h.mem_iff.1 ht, hc⟩
  · intro ⟨t, ht, hc⟩
    exact ⟨t, h.mem_iff.2 ht, hc⟩

/-! ## The two orders -/

instance : Std.Total DestLe where
  total t u := by
    unfold DestLe
    omega

instance : IsTrans Transition DestLe where
  trans t u v := by
    unfold DestLe
    omega

instance : Std.Total LabelLe where
  total t u := by
    unfold LabelLe
    omega

instance : IsTrans Transition LabelLe where
  trans t u v := by
    unfold LabelLe
    omega

/-! ## The merge pass -/

attribute [local simp] mergeRun

/-- A run that has taken in the next transition is still in order. -/
theorem sorted_extend (h : (t :: u :: us).Pairwise DestLe) (hd : t.dest = u.dest) :
    ({ t with max := max t.max u.max } :: us).Pairwise DestLe := by
  simp only [List.pairwise_cons, List.mem_cons, forall_eq_or_imp] at h ⊢
  rcases h with ⟨⟨htu, ht⟩, hu, hus⟩
  apply And.intro _ hus
  intro w hw
  have hw' := ht w hw
  have huw := hu w hw
  unfold DestLe at htu hw' huw ⊢
  dsimp only
  omega

/-- The run takes in just the labels of the transition it is merged with. -/
theorem covers_extend (htu : DestLe t u) (hd : t.dest = u.dest) (hmin : u.min ≤ t.max + 1) :
    ({ t with max := max t.max u.max } : Transition).Covers c ↔ t.Covers c ∨ u.Covers c := by
  unfold DestLe at htu
  unfold Covers
  dsimp only
  omega

theorem rowEdge_mergeRun (h : (t :: us).Pairwise DestLe) :
    RowEdge (mergeRun t us) c d ↔ RowEdge (t :: us) c d := by
  induction us generalizing t with
  | nil => rfl
  | cons u us ih =>
    rw [mergeRun]
    by_cases hm : t.dest = u.dest ∧ u.min ≤ t.max + 1
    · have htu : DestLe t u := (List.pairwise_cons.1 h).1 u List.mem_cons_self
      rw [if_pos hm, ih (sorted_extend h hm.1), rowEdge_cons, rowEdge_cons, rowEdge_cons,
        covers_extend htu hm.1 hm.2, ← hm.1]
      tauto
    · rw [if_neg hm, rowEdge_cons, ih h.of_cons, ← rowEdge_cons]

/-- Where the ends of a merged interval come from. -/
theorem mem_mergeRun (h : w ∈ mergeRun t us) :
    ∃ u ∈ t :: us, ∃ v ∈ t :: us,
      w.dest = u.dest ∧ w.min = u.min ∧ w.max = v.max ∧ u.max ≤ v.max := by
  induction us generalizing t with
  | nil =>
    rw [mergeRun, List.mem_singleton] at h
    subst h
    exact ⟨w, List.mem_cons_self, w, List.mem_cons_self, rfl, rfl, rfl, le_refl _⟩
  | cons u us ih =>
    rw [mergeRun] at h
    split at h
    · rcases ih h with ⟨x, hx, y, hy, hdest, hmin, hmax, hle⟩
      have hy' : ∃ y' ∈ t :: u :: us, y'.max = y.max := by
        rcases List.mem_cons.1 hy with rfl | hy
        · rcases le_total t.max u.max with hmax | hmax
          · exact ⟨u, by simp, by simp [hmax]⟩
          · exact ⟨t, by simp, by simp [hmax]⟩
        · exact ⟨y, by simp [hy], rfl⟩
      rcases hy' with ⟨y', hy', hymax⟩
      rcases List.mem_cons.1 hx with rfl | hx
      · exact ⟨t, by simp, y', hy', hdest, hmin, by omega, by dsimp only at hle; omega⟩
      · exact ⟨x, by simp [hx], y', hy', hdest, hmin, by omega, by omega⟩
    · rcases List.mem_cons.1 h with rfl | h
      · exact ⟨w, by simp, w, by simp, rfl, rfl, rfl, le_refl _⟩
      · rcases ih h with ⟨x, hx, y, hy, hrest⟩
        exact ⟨x, List.mem_cons_of_mem _ hx, y, List.mem_cons_of_mem _ hy, hrest⟩

/-- Two runs to one state do not touch. -/
theorem apart_mergeRun (h : (t :: us).Pairwise DestLe) :
    (mergeRun t us).Pairwise fun x y => x.dest = y.dest → x.max + 1 < y.min := by
  induction us generalizing t with
  | nil => simp [mergeRun]
  | cons u us ih =>
    rw [mergeRun]
    by_cases hm : t.dest = u.dest ∧ u.min ≤ t.max + 1
    · rw [if_pos hm]
      exact ih (sorted_extend h hm.1)
    · rw [if_neg hm, List.pairwise_cons]
      apply And.intro _ (ih h.of_cons)
      intro w hw hdest
      rcases mem_mergeRun hw with ⟨x, hx, -, -, hxdest, hxmin, -, -⟩
      have htu : DestLe t u := (List.pairwise_cons.1 h).1 u List.mem_cons_self
      have hux : u = x ∨ DestLe u x := by
        rcases List.mem_cons.1 hx with rfl | hx
        · exact .inl rfl
        · exact .inr ((List.pairwise_cons.1 h.of_cons).1 x hx)
      have hmin : u.dest < x.dest ∨ u.dest = x.dest ∧ u.min ≤ x.min := by
        rcases hux with rfl | hux
        · exact .inr ⟨rfl, le_refl _⟩
        · unfold DestLe at hux
          omega
      unfold DestLe at htu
      omega

theorem rowEdge_mergeTouching (h : ts.Pairwise DestLe) :
    RowEdge (mergeTouching ts) c d ↔ RowEdge ts c d := by
  cases ts with
  | nil => rfl
  | cons t ts => exact rowEdge_mergeRun h

/-! ## The finished row -/

theorem finishRow_of_length (h : ts.length ≤ 1) : finishRow ts = ts :=
  if_pos h

theorem finishRow_of_lt (h : 1 < ts.length) :
    finishRow ts = (mergeTouching (ts.insertionSort DestLe)).insertionSort LabelLe :=
  if_neg (by omega)

@[simp] theorem finishRow_nil : finishRow [] = [] := rfl

theorem finishRow_eq_nil : finishRow ts = [] ↔ ts = [] := by
  by_cases h : ts.length ≤ 1
  · rw [finishRow_of_length h]
  · have hne : ts ≠ [] := by
      intro hts
      simp [hts] at h
    apply iff_of_false _ hne
    intro hnil
    rw [finishRow_of_lt (by omega), ← List.length_eq_zero_iff, List.length_insertionSort] at hnil
    cases hs : ts.insertionSort DestLe with
    | nil =>
      have hlen := List.length_insertionSort DestLe ts
      rw [hs, List.length_nil] at hlen
      omega
    | cons t us =>
      rw [hs, mergeTouching, List.length_eq_zero_iff] at hnil
      have hmem : ∀ us : List Transition, ∀ t, mergeRun t us ≠ [] := by
        intro us
        induction us with
        | nil => simp [mergeRun]
        | cons u us ih =>
          intro t
          rw [mergeRun]
          split
          · exact ih _
          · simp
      exact hmem us t hnil

theorem rowEdge_finishRow : RowEdge (finishRow ts) c d ↔ RowEdge ts c d := by
  by_cases h : ts.length ≤ 1
  · rw [finishRow_of_length h]
  · rw [finishRow_of_lt (by omega), rowEdge_perm (List.perm_insertionSort _ _),
      rowEdge_mergeTouching (List.pairwise_insertionSort _ _),
      rowEdge_perm (List.perm_insertionSort _ _)]

theorem sorted_finishRow : (finishRow ts).Pairwise LabelLe := by
  by_cases h : ts.length ≤ 1
  · rw [finishRow_of_length h]
    match ts, h with
    | [], _ => exact .nil
    | [t], _ => exact List.pairwise_singleton _ t
  · rw [finishRow_of_lt (by omega)]
    exact List.pairwise_insertionSort _ _

theorem mem_finishRow (h : w ∈ finishRow ts) :
    ∃ u ∈ ts, ∃ v ∈ ts, w.dest = u.dest ∧ w.min = u.min ∧ w.max = v.max ∧ u.max ≤ v.max := by
  by_cases hlen : ts.length ≤ 1
  · rw [finishRow_of_length hlen] at h
    exact ⟨w, h, w, h, rfl, rfl, rfl, le_refl _⟩
  · rw [finishRow_of_lt (by omega), List.mem_insertionSort] at h
    cases hs : ts.insertionSort DestLe with
    | nil =>
      rw [hs] at h
      cases h
    | cons t us =>
      rw [hs] at h
      rcases mem_mergeRun h with ⟨u, hu, v, hv, hrest⟩
      rw [← hs, List.mem_insertionSort] at hu hv
      exact ⟨u, hu, v, hv, hrest⟩

theorem dest_of_mem_finishRow (h : w ∈ finishRow ts) : ∃ u ∈ ts, w.dest = u.dest := by
  rcases mem_finishRow h with ⟨u, hu, -, -, hdest, -⟩
  exact ⟨u, hu, hdest⟩

theorem labelIn_finishRow {lo hi : Int} (h : ∀ t ∈ ts, LabelIn lo hi t) (hw : w ∈ finishRow ts) :
    LabelIn lo hi w := by
  rcases mem_finishRow hw with ⟨u, hu, v, hv, -, hmin, hmax, hle⟩
  have hu' := h u hu
  have hv' := h v hv
  unfold LabelIn at hu' hv' ⊢
  omega

/-- Two transitions of a finished row to one state do not touch. -/
theorem apart_finishRow (h : 1 < ts.length) :
    (finishRow ts).Pairwise fun x y => x.dest = y.dest → x.max + 1 < y.min ∨ y.max + 1 < x.min := by
  rw [finishRow_of_lt h, (List.perm_insertionSort LabelLe _).pairwise_iff]
  · cases hs : ts.insertionSort DestLe with
    | nil => exact .nil
    | cons t us =>
      have hsorted : (t :: us).Pairwise DestLe := by
        rw [← hs]
        exact List.pairwise_insertionSort _ _
      exact (apart_mergeRun hsorted).imp fun h hd => .inl (h hd)
  · intro x y hxy hd
    exact (hxy hd.symm).symm

/-- Intervals that send no label to two states come out apart. -/
theorem chain_finishRow (hvalid : ∀ t ∈ ts, t.min ≤ t.max) (hdet : RowDet ts) :
    (finishRow ts).Pairwise Before := by
  by_cases hlen : ts.length ≤ 1
  · rw [finishRow_of_length hlen]
    match ts, hlen with
    | [], _ => exact .nil
    | [t], _ => exact List.pairwise_singleton _ t
  · have hv : ∀ w ∈ finishRow ts, w.min ≤ w.max := by
      intro w hw
      rcases mem_finishRow hw with ⟨u, hu, v, hv, -, hmin, hmax, hle⟩
      have := hvalid u hu
      omega
    have hlong : 1 < ts.length := not_le.1 hlen
    have hsep := (apart_finishRow hlong).and (@sorted_finishRow ts)
    apply hsep.imp_of_mem
    intro x y hx hy hxy
    rcases hxy with ⟨hapart, hle⟩
    unfold LabelLe at hle
    unfold Before
    by_contra hmax
    have hvx := hv x hx
    have hvy := hv y hy
    -- the first label of `y` is a label of both
    have hd : x.dest = y.dest := hdet y.min x.dest y.dest
      (rowEdge_finishRow.1 ⟨x, hx, rfl, by omega, by omega⟩)
      (rowEdge_finishRow.1 ⟨y, hy, rfl, le_refl _, hvy⟩)
    rcases hapart hd with h | h
    · omega
    · omega

/-! ## The overlap check -/

theorem noOverlap_iff (m : Int) :
    noOverlap m ts = true ↔ (∀ t ∈ ts.head?, m < t.min) ∧ ts.IsChain Before := by
  induction ts generalizing m with
  | nil => simp [noOverlap]
  | cons t ts ih =>
    rw [noOverlap]
    by_cases h : t.min ≤ m
    · rw [if_pos h]
      simp [h]
    · rw [if_neg h, ih]
      cases ts with
      | nil => simp [not_le.1 h]
      | cons u us => simp [not_le.1 h, Before]

theorem rowDeterministic_iff : rowDeterministic ts = true ↔ ts.IsChain Before := by
  cases ts with
  | nil => simp [rowDeterministic]
  | cons t ts =>
    rw [rowDeterministic, noOverlap_iff]
    cases ts with
    | nil => simp
    | cons u us => simp [Before]

/-- In order, neighbours that are apart are all apart. -/
theorem pairwise_of_chain (hsorted : ts.Pairwise LabelLe) (h : ts.IsChain Before) :
    ts.Pairwise Before := by
  induction ts with
  | nil => exact .nil
  | cons t ts ih =>
    rw [List.pairwise_cons] at hsorted
    rw [List.pairwise_cons]
    apply And.intro _ (ih hsorted.2 h.of_cons)
    intro w hw
    cases ts with
    | nil => cases hw
    | cons u us =>
      have htu : t.max < u.min := (List.isChain_cons_cons.1 h).1
      rcases List.mem_cons.1 hw with rfl | hw
      · exact htu
      · have huw : u.LabelLe w := (List.pairwise_cons.1 hsorted.2).1 w hw
        unfold LabelLe at huw
        unfold Before
        omega

theorem rowDet_of_pairwise (h : ts.Pairwise Before) : RowDet ts := by
  intro c d d' ⟨t, ht, htd, htc⟩ ⟨u, hu, hud, huc⟩
  rcases List.mem_iff_getElem.1 ht with ⟨i, hi, rfl⟩
  rcases List.mem_iff_getElem.1 hu with ⟨j, hj, rfl⟩
  have hget := List.pairwise_iff_getElem.1 h
  rcases Nat.lt_trichotomy i j with hij | rfl | hij
  · have := hget i j hi hj hij
    unfold Covers at htc huc
    unfold Before at this
    omega
  · exact htd.symm.trans hud
  · have := hget j i hj hi hij
    unfold Covers at htc huc
    unfold Before at this
    omega

/-! ## The binary search of a row -/

/-- The search finds the transition that covers the label, if there is one
between `low` and `high`. -/
theorem searchRow_spec (h : ts.Pairwise Before) (hsorted : ts.Pairwise LabelLe) :
    ∀ fuel low high, high ≤ ts.length → high - low < fuel →
      (∀ i t, ts[i]? = some t → t.Covers c → low ≤ i ∧ i < high) →
      ∀ d, searchRow ts c fuel low high = some d ↔ RowEdge ts c d := by
  have hget := List.pairwise_iff_getElem.1 h
  have hle := List.pairwise_iff_getElem.1 hsorted
  intro fuel
  induction fuel with
  | zero =>
    intro low high _ hlt
    omega
  | succ fuel ih =>
    intro low high hhigh hlt hin d
    rw [searchRow]
    by_cases hlh : low < high
    · rw [if_pos hlh]
      have hmid : (low + (high - 1)) / 2 < high ∧ low ≤ (low + (high - 1)) / 2 := by omega
      generalize hm : (low + (high - 1)) / 2 = mid at hmid
      have hmlen : mid < ts.length := by omega
      dsimp only
      rw [List.getElem?_eq_getElem hmlen]
      dsimp only
      have hmem : ts[mid] ∈ ts := List.getElem_mem hmlen
      by_cases hmin : c < ts[mid].min
      · rw [if_pos hmin]
        apply ih low mid (by omega) (by omega)
        intro i t hi hc
        rcases hin i t hi hc with ⟨h1, h2⟩
        apply And.intro h1
        by_contra hge
        rcases List.getElem?_eq_some_iff.1 hi with ⟨hilt, rfl⟩
        unfold Covers at hc
        rcases Nat.lt_or_eq_of_le (not_lt.1 hge) with hlt' | heq
        · have hb := hle mid i hmlen hilt hlt'
          unfold LabelLe at hb
          omega
        · subst heq
          omega
      · rw [if_neg hmin]
        by_cases hmax : ts[mid].max < c
        · rw [if_pos hmax]
          apply ih (mid + 1) high hhigh (by omega)
          intro i t hi hc
          rcases hin i t hi hc with ⟨h1, h2⟩
          apply And.intro _ h2
          by_contra hge
          rcases List.getElem?_eq_some_iff.1 hi with ⟨hilt, rfl⟩
          unfold Covers at hc
          rcases Nat.lt_or_eq_of_le (Nat.lt_succ_iff.1 (not_le.1 hge)) with hlt' | heq
          · have hb : ts[i].max < ts[mid].min := hget i mid hilt hmlen hlt'
            omega
          · subst heq
            omega
        · rw [if_neg hmax]
          have hedge : RowEdge ts c ts[mid].dest := ⟨_, hmem, rfl, by omega, by omega⟩
          rw [Option.some.injEq]
          constructor
          · intro hd
            rw [← hd]
            exact hedge
          · intro hd
            exact rowDet_of_pairwise h c _ _ hedge hd
    · rw [if_neg hlh]
      apply iff_of_false (by simp)
      intro ⟨t, ht, _, hc⟩
      rcases List.mem_iff_getElem?.1 ht with ⟨i, hi⟩
      have := hin i t hi hc
      omega

end LuceneRust.Util.Automata
