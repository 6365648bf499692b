import LuceneRust.Index.Writer.View

/-!
# The places of documents in a merged segment

* `IsMerge` says what a merge of the snapshots is, in whatever order it places
  their documents.
* `isMerge_mergeOutcome`: the merges that the writer runs itself are of that
  kind.
-/

namespace LuceneRust.Index

open RustSem

variable {δ κ α : Type}

namespace IndexWriter

/-! ## What a merge is -/

/-- The document `i` of the source `k` has the id `d` in the merged segment. -/
def MergedSegment.PlacedAt (m : MergedSegment δ) (k i d : Nat) : Prop :=
  ∃ map, m.docIdMaps[k]? = some map ∧ map[i]? = some (d : Int)

/-- The merged segment has the live documents of the snapshots, in some order,
and `sourceLive` says which ones those were. -/
structure IsMerge (plan : MergePlan δ) (m : MergedSegment δ) (sourceLive : List (List Bool)) :
    Prop where
  sourceLive : sourceLive = plan.sources.map fun s => s.rows.map (·.live)
  live : ∀ {k i : Nat} {s : Segment δ} {row : Row δ}, plan.sources[k]? = some s →
    s.rows[i]? = some row → row.live = true → ∃ d, m.PlacedAt k i d
  placed : ∀ {k i d : Nat}, m.PlacedAt k i d → ∃ s row, plan.sources[k]? = some s ∧
    s.rows[i]? = some row ∧ row.live = true ∧ m.info.rows[d]? = some row
  inj : ∀ {k i k' i' d : Nat}, m.PlacedAt k i d → m.PlacedAt k' i' d → k = k' ∧ i = i'
  onto : ∀ {d : Nat}, d < m.info.rows.length → ∃ k i, m.PlacedAt k i d
  segmentName : m.info.segmentName = plan.mergedName
  wellFormed : m.info.WellFormed


/-! ## Permutations -/

theorem getElem?_permute {order : List Nat} {l : List α} (h : ∀ x ∈ order, x < l.length) (j : Nat) :
    (permute order l)[j]? = order[j]?.bind (l[·]?) := by
  induction order generalizing j with
  | nil => rfl
  | cons x order ih =>
    rw [List.forall_mem_cons] at h
    have hx : l[x]? = some l[x] := List.getElem?_eq_getElem h.1
    rw [permute, List.filterMap_cons_some hx]
    cases j with
    | zero => exact hx.symm
    | succ j => exact ih h.2 j

theorem length_permute {order : List Nat} {l : List α} (h : ∀ x ∈ order, x < l.length) :
    (permute order l).length = order.length := by
  induction order with
  | nil => rfl
  | cons x order ih =>
    rw [List.forall_mem_cons] at h
    have hx : l[x]? = some l[x] := List.getElem?_eq_getElem h.1
    have hrec := ih h.2
    rw [permute] at hrec ⊢
    rw [List.filterMap_cons_some hx, List.length_cons, List.length_cons, hrec]

/-- The element `x` goes to its place in the order. -/
theorem getElem?_permute_idxOf {order : List Nat} {l : List α}
    (h : order.Perm (List.range l.length)) {x : Nat} (hx : x < l.length) :
    (permute order l)[order.idxOf x]? = l[x]? := by
  have hlt : ∀ x ∈ order, x < l.length := fun x hx => List.mem_range.1 (h.mem_iff.1 hx)
  have hmem : x ∈ order := h.mem_iff.2 (List.mem_range.2 hx)
  rw [getElem?_permute hlt, List.getElem?_idxOf hmem]
  rfl

/-! ## The places of the live documents -/

/-- The live documents of the sources from the `k`-th on, each with its source
and its id. -/
def livePlaces : Nat → List (Segment δ) → List ((Nat × Nat) × Row δ)
  | _, [] => []
  | k, s :: sources =>
    ((s.rows.zipIdx.filter (·.1.live)).map fun e => ((k, e.2), e.1)) ++ livePlaces (k + 1) sources

theorem map_livePlaces (k : Nat) (sources : List (Segment δ)) :
    (livePlaces k sources).map (·.2) = liveRows sources := by
  induction sources generalizing k with
  | nil => rfl
  | cons s sources ih =>
    have hrows : ((s.rows.zipIdx.filter (·.1.live)).map fun e => ((k, e.2), e.1)).map (·.2) =
        s.rows.filter (·.live) := by
      rw [List.map_map]
      change (s.rows.zipIdx.filter ((fun row : Row δ => row.live) ∘ Prod.fst)).map Prod.fst = _
      rw [← List.filter_map, List.zipIdx_map_fst]
    rw [livePlaces, List.map_append, hrows, ih]
    rfl

theorem mem_livePlaces {k k' i : Nat} {row : Row δ} {sources : List (Segment δ)} :
    ((k', i), row) ∈ livePlaces k sources ↔ k ≤ k' ∧ ∃ s, sources[k' - k]? = some s ∧
      s.rows[i]? = some row ∧ row.live = true := by
  induction sources generalizing k with
  | nil => simp [livePlaces]
  | cons s sources ih =>
    rw [livePlaces, List.mem_append, List.mem_map, ih]
    constructor
    · rintro (⟨⟨row', i'⟩, hmem, heq⟩ | ⟨hle, s', hs', h⟩)
      · obtain ⟨⟨rfl, rfl⟩, rfl⟩ := Prod.mk.inj heq |>.imp_left Prod.mk.inj
        obtain ⟨hmem, hlive⟩ := List.mem_filter.1 hmem
        refine ⟨le_rfl, s, ?_, List.mem_zipIdx_iff_getElem?.1 hmem, hlive⟩
        rw [Nat.sub_self]
        rfl
      · refine ⟨by omega, s', ?_, h⟩
        rw [show k' - k = k' - (k + 1) + 1 from by omega]
        exact hs'
    · rintro ⟨hle, s', hs', hrow, hlive⟩
      rcases Nat.eq_or_lt_of_le hle with rfl | hlt
      · rw [Nat.sub_self] at hs'
        obtain rfl := Option.some_inj.1 hs'
        exact .inl ⟨(row, i), List.mem_filter.2 ⟨List.mem_zipIdx_iff_getElem?.2 hrow, hlive⟩, rfl⟩
      · rw [show k' - k = k' - (k + 1) + 1 from by omega] at hs'
        exact .inr ⟨hlt, s', hs', hrow, hlive⟩

/-- The map of one source, in terms of its live documents. -/
theorem getElem?_docIdMap {place : Nat → Nat} {g i n d : Nat} {rows : List (Row δ)} :
    (docIdMap place g rows)[i]? = some (d : Int) ↔
      ∃ j row, ((rows.zipIdx n).filter (·.1.live))[j]? = some (row, n + i) ∧ d = place (g + j) := by
  have hbelow : ∀ (rows : List (Row δ)) (n j : Nat) (row : Row δ) (i : Nat),
      ((rows.zipIdx n).filter (·.1.live))[j]? = some (row, i) → n ≤ i := by
    intro rows n j row i h
    have hmem := (List.mem_filter.1 (List.mem_of_getElem? h)).1
    exact (List.mem_zipIdx hmem).1
  induction rows generalizing g i n with
  | nil => simp [docIdMap]
  | cons row rows ih =>
    rw [docIdMap, List.zipIdx_cons]
    by_cases hlive : row.live = true
    · rw [if_pos hlive, List.filter_cons_of_pos (by exact hlive)]
      cases i with
      | zero =>
        constructor
        · intro h
          refine ⟨0, row, rfl, ?_⟩
          exact (Int.ofNat_inj.1 (Option.some_inj.1 h)).symm
        · rintro ⟨j, row', hj, rfl⟩
          cases j with
          | zero => rfl
          | succ j =>
            have hle := hbelow _ _ _ _ _ hj
            omega
      | succ i =>
        rw [List.getElem?_cons_succ]
        refine (ih (n := n + 1)).trans ?_
        constructor
        · rintro ⟨j, row', hj, rfl⟩
          refine ⟨j + 1, row', ?_, by rw [Nat.add_right_comm, Nat.add_assoc]⟩
          rw [List.getElem?_cons_succ, hj, Nat.add_right_comm, Nat.add_assoc]
        · rintro ⟨j, row', hj, rfl⟩
          cases j with
          | zero =>
            have heq : n = n + (i + 1) := (Prod.mk.inj (Option.some_inj.1 hj)).2
            omega
          | succ j =>
            refine ⟨j, row', ?_, by rw [Nat.add_right_comm, Nat.add_assoc]⟩
            rw [List.getElem?_cons_succ] at hj
            rw [hj, Nat.add_right_comm, Nat.add_assoc]
    · rw [if_neg hlive, List.filter_cons_of_neg (by exact hlive)]
      cases i with
      | zero =>
        constructor
        · intro h
          have hneg : (-1 : Int) = (d : Int) := Option.some_inj.1 h
          omega
        · rintro ⟨j, row', hj, rfl⟩
          have hle := hbelow _ _ _ _ _ hj
          omega
      | succ i =>
        rw [List.getElem?_cons_succ]
        refine (ih (n := n + 1)).trans ?_
        rw [show n + 1 + i = n + (i + 1) from by omega]

/-- The maps of all the sources. -/
theorem getElem?_docIdMaps (k₀ : Nat) {place : Nat → Nat} {g k i d : Nat}
    {sources : List (Segment δ)} :
    (∃ map, (docIdMaps place g sources)[k]? = some map ∧ map[i]? = some (d : Int)) ↔
      ∃ j row, (livePlaces k₀ sources)[j]? = some ((k₀ + k, i), row) ∧ d = place (g + j) := by
  induction sources generalizing g k₀ k with
  | nil => simp [docIdMaps, livePlaces]
  | cons s sources ih =>
    rw [docIdMaps, livePlaces]
    have hlen : ((s.rows.zipIdx.filter (·.1.live)).map fun e => ((k₀, e.2), e.1)).length =
        (s.rows.filter (·.live)).length := by
      rw [List.length_map, ← List.zipIdx_map_fst 0 s.rows, List.filter_map, List.length_map,
        List.zipIdx_map_fst]
      rfl
    have hfirst : ∀ {j : Nat} {p : Nat × Nat} {row : Row δ},
        ((s.rows.zipIdx.filter (·.1.live)).map fun e => ((k₀, e.2), e.1))[j]? = some (p, row) →
          p.1 = k₀ := by
      intro j p row h
      obtain ⟨e, -, heq⟩ := List.mem_map.1 (List.mem_of_getElem? h)
      exact (congrArg (·.1.1) heq).symm
    cases k with
    | zero =>
      constructor
      · rintro ⟨map, hmap, hi⟩
        obtain rfl := Option.some_inj.1 hmap
        obtain ⟨j, row, hj, rfl⟩ := (getElem?_docIdMap (n := 0)).1 hi
        refine ⟨j, row, ?_, rfl⟩
        have hj' : ((s.rows.zipIdx.filter (·.1.live)).map fun e => ((k₀, e.2), e.1))[j]? =
            some ((k₀, i), row) := by
          rw [List.getElem?_map, hj, Nat.zero_add]
          rfl
        rw [List.getElem?_append_left (List.getElem?_eq_some_iff.1 hj').1]
        exact hj'
      · rintro ⟨j, row, hj, rfl⟩
        refine ⟨_, rfl, ?_⟩
        rw [getElem?_docIdMap (n := 0)]
        refine ⟨j, row, ?_, rfl⟩
        rw [List.getElem?_append] at hj
        split at hj
        · rw [List.getElem?_map, Option.map_eq_some_iff] at hj
          obtain ⟨e, he, heq⟩ := hj
          obtain ⟨hp, rfl⟩ := Prod.mk.inj heq
          rw [he, Nat.zero_add, ← (Prod.mk.inj hp).2]
        · have hle := (mem_livePlaces.1 (List.mem_of_getElem? hj)).1
          omega
    | succ k =>
      rw [List.getElem?_cons_succ]
      refine (ih (k₀ + 1)).trans ?_
      constructor
      · rintro ⟨j, row, hj, rfl⟩
        refine ⟨(s.rows.filter (·.live)).length + j, row, ?_, by rw [Nat.add_assoc]⟩
        rw [List.getElem?_append_right (by omega), hlen, Nat.add_sub_cancel_left, hj,
          Nat.add_right_comm, Nat.add_assoc]
      · rintro ⟨j, row, hj, rfl⟩
        rw [List.getElem?_append, hlen] at hj
        split at hj
        · have hk := hfirst hj
          omega
        · refine ⟨j - (s.rows.filter (·.live)).length, row, ?_, ?_⟩
          · rw [hj, Nat.add_right_comm, Nat.add_assoc]
          · congr 1
            omega

/-- A merge that the writer runs has the live documents of its sources. -/
theorem isMerge_mergeOutcome {cfg : WriterConfig δ κ} {plan : MergePlan δ} {m : MergedSegment δ}
    {sourceLive : List (List Bool)} (h : mergeOutcome cfg plan = .merged m sourceLive) :
    IsMerge plan m sourceLive := by
  rw [mergeOutcome] at h
  split at h
  · cases h
  obtain ⟨rfl, rfl⟩ := MergeOutcome.merged.inj h
  have hperm := cfg.mergePermutation_perm (liveRows plan.sources)
  generalize cfg.mergePermutation (liveRows plan.sources) = order at hperm ⊢
  have hlt : ∀ x ∈ order, x < (liveRows plan.sources).length := fun x hx =>
    List.mem_range.1 (hperm.mem_iff.1 hx)
  -- the places, in terms of the list of live documents
  have hat : ∀ {k i d : Nat},
      (∃ map, (docIdMaps order.idxOf 0 plan.sources)[k]? = some map ∧ map[i]? = some (d : Int)) ↔
        ∃ j row, (livePlaces 0 plan.sources)[j]? = some ((k, i), row) ∧ d = order.idxOf j := by
    intro k i d
    rw [getElem?_docIdMaps 0, Nat.zero_add]
    refine exists_congr fun j => exists_congr fun row => ?_
    rw [Nat.zero_add]
  have hrows : ∀ {j : Nat} {p : Nat × Nat} {row : Row δ},
      (livePlaces 0 plan.sources)[j]? = some (p, row) → (liveRows plan.sources)[j]? = some row := by
    intro j p row hj
    rw [← map_livePlaces 0, List.getElem?_map, hj]
    rfl
  have hmem : ∀ {j : Nat} {p : Nat × Nat} {row : Row δ},
      (livePlaces 0 plan.sources)[j]? = some (p, row) → j ∈ order := fun hj =>
    hperm.mem_iff.2 (List.mem_range.2 (List.getElem?_eq_some_iff.1 (hrows hj)).1)
  refine ⟨rfl, fun hs hrow hlive => ?_, fun hplaced => ?_, fun hplaced hplaced' => ?_,
    fun {d} hd => ?_, rfl, ?_⟩
  · obtain ⟨j, hj⟩ := List.mem_iff_getElem?.1
      (mem_livePlaces.2 ⟨Nat.zero_le _, _, hs, hrow, hlive⟩)
    exact ⟨order.idxOf j, hat.2 ⟨j, _, hj, rfl⟩⟩
  · obtain ⟨j, row, hj, rfl⟩ := hat.1 hplaced
    obtain ⟨-, s, hs, hrow, hlive⟩ := mem_livePlaces.1 (List.mem_of_getElem? hj)
    refine ⟨s, row, hs, hrow, hlive, ?_⟩
    rw [getElem?_permute_idxOf hperm (List.mem_range.1 (hperm.mem_iff.1 (hmem hj))), hrows hj]
  · obtain ⟨j, row, hj, hd⟩ := hat.1 hplaced
    obtain ⟨j', row', hj', hd'⟩ := hat.1 hplaced'
    obtain rfl := (List.idxOf_inj (hmem hj)).1 (hd.symm.trans hd')
    exact Prod.mk.inj (congrArg Prod.fst (Option.some_inj.1 (hj.symm.trans hj')))
  · have hd' : d < order.length := by
      rw [← length_permute hlt]
      exact hd
    have hlen : (livePlaces 0 plan.sources).length = (liveRows plan.sources).length := by
      rw [← map_livePlaces 0, List.length_map]
    have hx : order[d] < (livePlaces 0 plan.sources).length :=
      hlen.symm ▸ hlt _ (List.getElem_mem hd')
    have hnodup : order.Nodup := hperm.nodup_iff.2 List.nodup_range
    refine ⟨_, _, hat.2 ⟨order[d], _, List.getElem?_eq_getElem hx, ?_⟩⟩
    exact (hnodup.idxOf_getElem d hd').symm
  · refine wellFormed_written _ _ fun row hrow => ?_
    obtain ⟨i, -, hi⟩ := List.mem_filterMap.1 hrow
    obtain ⟨s, -, hs⟩ := List.mem_flatMap.1 (List.mem_of_getElem? hi)
    exact (List.mem_filter.1 hs).2

end IndexWriter

end LuceneRust.Index
