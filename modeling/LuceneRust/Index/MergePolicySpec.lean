import LuceneRust.Index.MergePolicy
import Mathlib.Data.List.Perm.Subperm

/-!
# Merging comes to an end

Every group that the policy proposes is worth its merge (`Worthwhile`): it has
two segments, or one with deletes.  So each round of merges leaves less to do
(`mergeWork`), whatever the sizes of the merged segments are.

* `findMerges_proposes`, `findForcedDeleteMerges_proposes` and
  `findForcedMerges_proposes`: the three decisions return, and what they
  propose is worthwhile.
* `runMerges_ends`: the loop over a decision ends where it proposes nothing.
* `findForcedMerges_nil`: what is left then after forced merges.
-/

namespace LuceneRust.Index.MergePolicy

open RustSem
open Store (Result)

/-- The segments of a group are among those of the list, and merging them is
worth it. -/
def Worthwhile (stats : List SegmentStat) (group : List String) : Prop :=
  ∃ c : List SegmentStat, c.Subperm stats ∧ group = c.map (·.name) ∧
    (2 ≤ c.length ∨ ∃ s, c = [s] ∧ s.delCount ≠ 0)

/-- The decision returns, and what it proposes is worthwhile. -/
def Proposes (find : List SegmentStat → Result (List (List String))) : Prop :=
  ∀ stats, ∃ groups, find stats = .ok groups ∧ ∀ g ∈ groups, Worthwhile stats g

/-! ## `do_find_merges` -/

section

variable (config : MergePolicyConfig) (budget : MergeBudget)

/-- `Worthwhile`, for the sized segments of the search. -/
def GoodCandidate (sorted c : List SegmentSizeAndDocs) : Prop :=
  c.Sublist sorted ∧ (2 ≤ c.length ∨ ∃ e, c = [e] ∧ e.delCount ≠ 0)

theorem packCandidate_segments (l : List SegmentSizeAndDocs) : ∀ c : Candidate,
    ∃ l', l'.Sublist l ∧ (packCandidate config budget l c).segments = c.segments ++ l' := by
  induction l with
  | nil =>
    intro c
    exact ⟨[], List.Sublist.slnil, (List.append_nil _).symm⟩
  | cons entry rest ih =>
    intro c
    rw [packCandidate]
    split
    · dsimp only
      split <;> split
      all_goals try
        -- the segment is left out
        obtain ⟨l', hsub, heq⟩ := ih _
        exact ⟨l', hsub.cons entry, heq⟩
      all_goals
        -- the segment is put in
        obtain ⟨l', hsub, heq⟩ := ih _
        refine ⟨entry :: l', hsub.cons_cons entry, heq.trans ?_⟩
        rw [List.append_assoc]
        rfl
    · exact ⟨[], List.nil_sublist _, (List.append_nil _).symm⟩

theorem bestCandidate_good {remaining : List SegmentSizeAndDocs} (starts : List Nat) :
    ∀ best : Best, (∀ c, best.segments = some c → GoodCandidate remaining c) →
      ∀ c, (bestCandidate config budget remaining starts best).segments = some c →
        GoodCandidate remaining c := by
  induction starts with
  | nil =>
    intro best hbest c hc
    exact hbest c hc
  | cons start starts ih =>
    intro best hbest c hc
    obtain ⟨l, hsub, heq⟩ := packCandidate_segments config budget
      (remaining.drop start) {}
    rw [List.nil_append] at heq
    rw [bestCandidate] at hc
    simp only [heq] at hc
    cases l with
    | nil => exact ih best hbest c hc
    | cons biggest others =>
      simp only at hc
      split at hc
      · exact ih best hbest c hc
      split at hc
      · exact ih best hbest c hc
      next hworth =>
      split at hc
      · exact hbest c hc
      split at hc
      · refine ih _ ?_ c hc
        rintro _ ⟨⟩
        refine ⟨hsub.trans (List.drop_sublist _ _), ?_⟩
        cases others with
        | nil => exact .inr ⟨biggest, rfl, fun h => hworth ⟨rfl, h⟩⟩
        | cons e others => exact .inl (by simp)
      · exact ih best hbest c hc

theorem GoodCandidate.mono {l l' c : List SegmentSizeAndDocs} (h : GoodCandidate l c)
    (hsub : l.Sublist l') : GoodCandidate l' c := ⟨h.1.trans hsub, h.2⟩

theorem GoodCandidate.exists_mem {l c : List SegmentSizeAndDocs} (h : GoodCandidate l c) :
    ∃ e, e ∈ c := by
  rcases h.2 with h2 | ⟨e, rfl, _⟩
  · exact List.exists_mem_of_length_pos (by omega)
  · exact ⟨e, List.mem_cons_self ..⟩

/-- The segments that the next turn looks at. -/
def Search.unmerged (s : Search) : List SegmentSizeAndDocs :=
  s.remaining.filter fun e => e.name ∉ s.toBeMerged

/-- What a turn can do: it ends the search, or it takes a good candidate out
and may propose it. -/
theorem searchPass_cases (s : Search) :
    searchPass config budget s = .ok (.inr s.spec) ∨
      ∃ c s', searchPass config budget s = .ok (.inl s') ∧ GoodCandidate s.unmerged c ∧
        (s'.spec = s.spec ∨ s'.spec = s.spec ++ [c.map (·.name)]) ∧
        s'.toBeMerged = s.toBeMerged ++ c.map (·.name) ∧ s'.remaining = s.unmerged := by
  generalize hx : searchPass config budget s = x
  rw [searchPass] at hx
  dsimp only at hx
  rw [← Search.unmerged] at hx
  split at hx
  · exact .inl hx.symm
  split at hx
  · exact .inl hx.symm
  generalize hbest : bestCandidate config budget _ _ _ = best at hx
  have hgood : ∀ c, best.segments = some c → GoodCandidate s.unmerged c := by
    rw [← hbest]
    exact bestCandidate_good config budget _ _ nofun
  cases hc : best.segments with
  | none =>
    simp only [hc] at hx
    exact .inl hx.symm
  | some c =>
    simp only [hc] at hx
    refine .inr ⟨c, _, hx.symm, hgood c hc, ?_, rfl, rfl⟩
    dsimp only
    split
    · exact .inr rfl
    · exact .inl rfl

/-- The search ends, and proposes good candidates only. -/
theorem doFindMerges_good (sorted : List SegmentSizeAndDocs) :
    ∃ spec, doFindMerges config budget sorted = .ok spec ∧
      ∀ g ∈ spec, ∃ c, GoodCandidate sorted c ∧ g = c.map (·.name) := by
  refine iterate_ok _
    (fun s => s.remaining.Sublist sorted ∧
      ∀ g ∈ s.spec, ∃ c, GoodCandidate sorted c ∧ g = c.map (·.name))
    (fun s => s.unmerged.length) _ ?_ _ _ ⟨List.Sublist.refl _, by simp⟩
    (Nat.lt_succ_of_le (List.length_filter_le _ _))
  rintro s ⟨hsub, hspec⟩
  have hunmerged : s.unmerged.Sublist sorted := List.filter_sublist.trans hsub
  rcases searchPass_cases config budget s with
    hend | ⟨c, s', hs', hgood, hspec', hmerged, hremaining⟩
  · exact .inr ⟨_, hend, hspec⟩
  refine .inl ⟨s', hs', ⟨hremaining ▸ hunmerged, ?_⟩, ?_⟩
  · rcases hspec' with heq | heq
    · exact heq ▸ hspec
    · intro g hg
      rw [heq, List.mem_append, List.mem_singleton] at hg
      rcases hg with hg | rfl
      · exact hspec g hg
      · exact ⟨c, hgood.mono hunmerged, rfl⟩
  · -- the candidate is not looked at again
    obtain ⟨e, he⟩ := hgood.exists_mem
    have hlt := List.length_filter_lt_length_iff_exists
      (l := s.unmerged) (p := fun e => decide (e.name ∉ s'.toBeMerged))
    rw [Search.unmerged, hremaining]
    refine hlt.2 ⟨e, hgood.1.subset he, ?_⟩
    simp [hmerged, List.mem_map_of_mem he]

end

/-! ## `find_merges` and `find_forced_delete_merges` -/

theorem map_stat_sortedBySegmentSize (stats : List SegmentStat) :
    ((sortedBySegmentSize stats).map (·.stat)).Perm stats := by
  have h := (List.perm_insertionSort (fun a b : SegmentSizeAndDocs => a.le b)
    (stats.map SegmentSizeAndDocs.of)).map (·.stat)
  rwa [List.map_map, show (·.stat) ∘ SegmentSizeAndDocs.of = id from rfl, List.map_id] at h

/-- A group of the sorted segments is worth its merge. -/
theorem worthwhile_of_subperm {stats : List SegmentStat} {c : List SegmentSizeAndDocs}
    (hsub : c.Subperm (sortedBySegmentSize stats))
    (hc : 2 ≤ c.length ∨ ∃ e, c = [e] ∧ e.delCount ≠ 0) :
    Worthwhile stats (c.map (·.name)) := by
  refine ⟨c.map (·.stat), ?_, ?_, ?_⟩
  · obtain ⟨l, hperm, hl⟩ := hsub
    exact (hperm.symm.map _).subperm.trans
      ((hl.map _).subperm.trans (map_stat_sortedBySegmentSize stats).subperm)
  · rw [List.map_map]
    rfl
  · rcases hc with h2 | ⟨e, rfl, hdel⟩
    · exact .inl (by rwa [List.length_map])
    · exact .inr ⟨e.stat, rfl, hdel⟩

theorem GoodCandidate.worthwhile {stats : List SegmentStat} {c : List SegmentSizeAndDocs}
    (h : GoodCandidate (sortedBySegmentSize stats) c) : Worthwhile stats (c.map (·.name)) :=
  worthwhile_of_subperm h.1.subperm h.2

/-- A search over some of the sorted segments proposes what is worthwhile. -/
theorem doFindMerges_proposes {config : MergePolicyConfig} {budget : MergeBudget}
    {stats : List SegmentStat} {sorted : List SegmentSizeAndDocs}
    (hsub : sorted.Sublist (sortedBySegmentSize stats)) :
    ∃ groups, doFindMerges config budget sorted = .ok groups ∧ ∀ g ∈ groups, Worthwhile stats g := by
  obtain ⟨spec, hspec, hgood⟩ := doFindMerges_good config budget sorted
  refine ⟨spec, hspec, fun g hg => ?_⟩
  obtain ⟨c, hc, rfl⟩ := hgood g hg
  exact (hc.mono hsub).worthwhile

theorem findForcedDeleteMerges_proposes (config : MergePolicyConfig) :
    Proposes (findForcedDeleteMerges config) := by
  intro stats
  rw [findForcedDeleteMerges, findForcedDeleteMergesExcluding]
  split
  · exact doFindMerges_proposes List.filter_sublist
  · exact ⟨[], rfl, nofun⟩

theorem totals_kept (merging : List String) (l : List SegmentSizeAndDocs) : ∀ t : Totals,
    (l.foldl (Totals.add merging) t).kept = t.kept ++ l.filter fun e => e.name ∉ merging := by
  induction l with
  | nil =>
    intro t
    exact (List.append_nil _).symm
  | cons e l ih =>
    intro t
    rw [List.foldl_cons, ih, Totals.add, List.filter_cons]
    by_cases he : e.name ∈ merging
    · simp [he]
    · simp [he]

theorem totals_minSegmentBytes (merging : List String) (l : List SegmentSizeAndDocs) :
    ∀ t : Totals, (l.foldl (Totals.add merging) t).minSegmentBytes ≤ t.minSegmentBytes := by
  induction l with
  | nil =>
    intro t
    exact Nat.le_refl _
  | cons e l ih =>
    intro t
    refine (ih _).trans ?_
    rw [Totals.add]
    split
    · exact Nat.min_le_left _ _
    · exact Nat.min_le_left _ _

theorem eligible_sublist (config : MergePolicyConfig) (pct : Float) (target : Int)
    (l : List SegmentSizeAndDocs) : ∀ s : Eligible, ∃ l', l'.Sublist l ∧
      (l.foldl (Eligible.add config pct target) s).eligible = s.eligible ++ l' := by
  induction l with
  | nil =>
    intro s
    exact ⟨[], List.Sublist.slnil, (List.append_nil _).symm⟩
  | cons e l ih =>
    intro s
    obtain ⟨l', hsub, heq⟩ := ih (Eligible.add config pct target s e)
    have hadd : (Eligible.add config pct target s e).eligible = s.eligible ∨
        (Eligible.add config pct target s e).eligible = s.eligible ++ [e] := by
      unfold Eligible.add
      dsimp only
      generalize (if 0 < e.maxDoc then _ else _ : Float) = segDelPct
      split
      · exact .inl rfl
      · split
        · exact .inr rfl
        · exact .inr rfl
    rw [List.foldl_cons]
    rcases hadd with h | h
    · exact ⟨l', hsub.cons e, by rw [heq, h]⟩
    · exact ⟨e :: l', hsub.cons_cons e, by rw [heq, h, List.append_assoc]; rfl⟩

theorem mergeFactor_pos (config : MergePolicyConfig) : 0 < config.mergeFactor :=
  Nat.lt_of_lt_of_le Nat.zero_lt_one (Nat.le_max_right _ _)

theorem saturatingSub_lt {a b : Int} (ha : 0 < a) (hb : 1 ≤ b) :
    (saturatingSub a b).toNat < a.toNat := by
  rw [saturatingSub, clampI64, i64Min, i64Max]
  omega

/-- The levels of the index come to an end: each takes a byte at least. -/
theorem levelPass_ends (config : MergePolicyConfig) (allowed : Float) (bytesLeft : Int)
    {levelSize : Nat} (hpos : 0 < levelSize) (hlt : levelSize < 2 ^ 64) :
    ∃ r, iterate (levelPass config) (bytesLeft.toNat + 1) (allowed, bytesLeft, levelSize)
      = .ok r := by
  suffices h : ∃ r, iterate (levelPass config) (bytesLeft.toNat + 1)
      (allowed, bytesLeft, levelSize) = .ok r ∧ True from ⟨h.choose, h.choose_spec.1⟩
  refine iterate_ok (levelPass config)
    (fun s => (0 < s.2.2 ∨ s.2.2 = config.maxMergedSegmentSize.toNat) ∧ s.2.2 < 2 ^ 64)
    (fun s => s.2.1.toNat) _ ?_ _ _ ⟨.inl hpos, hlt⟩ (Nat.lt_succ_self _)
  rintro ⟨allowed, bytesLeft, levelSize⟩ ⟨hlevel, hlt⟩
  rw [levelPass]
  dsimp only
  split
  · exact .inr ⟨_, rfl, trivial⟩
  next hgo =>
  rw [not_or] at hgo
  have hpos : 0 < levelSize := hlevel.resolve_right hgo.2
  have hbytes : 0 < bytesLeft := by
    by_contra hle
    exact hgo.1 (div_lt_of_nonpos (Int.not_lt.1 hle) hpos hlt config.segmentsPerTier)
  refine .inl ⟨_, rfl, ⟨?_, ?_⟩, saturatingSub_lt hbytes (one_le_toI64_mul hpos hlt _)⟩
  · have hmul : 0 < levelSize * config.mergeFactor := Nat.mul_pos hpos (mergeFactor_pos config)
    dsimp only
    omega
  · exact Nat.lt_of_le_of_lt (Nat.min_le_left _ _) config.maxMergedSegmentSize.isLt

/-- The accumulators of the first step of `find_merges_excluding` behind its
loop. -/
def totals (segments : List SegmentStat) (merging : List String) : Totals :=
  (sortedBySegmentSize segments).foldl (Totals.add merging) ⟨0, 2 ^ 64 - 1, 0, 0, 0, []⟩

/-- What a candidate of `find_merges_excluding` is packed by. -/
structure NaturalBudget (config : MergePolicyConfig) (t : Totals) (budget : MergeBudget) :
    Prop where
  mergeFactor : budget.mergeFactor = config.mergeFactor
  allowedDocCount : budget.allowedDocCount =
    maxAllowedDocs t.maxDoc t.delDocs config.targetSearchConcurrency
  mergeType : budget.mergeType = .natural
  maxMergeIsRunning :
    budget.maxMergeIsRunning = decide (config.maxMergedSegmentSize.toNat ≤ t.mergingBytes)

/-- `find_merges_excluding` proposes nothing, or it searches some of the segments
that are not merging. -/
theorem findMergesExcluding_cases (segments : List SegmentStat) (merging : List String)
    (config : MergePolicyConfig) :
    findMergesExcluding segments merging config = .ok [] ∨
      ∃ budget eligible,
        findMergesExcluding segments merging config = doFindMerges config budget eligible ∧
        eligible.Sublist ((sortedBySegmentSize segments).filter fun e => e.name ∉ merging) ∧
        NaturalBudget config (totals segments merging) budget := by
  rw [findMergesExcluding]
  unfold totals
  generalize ht : (sortedBySegmentSize segments).foldl (Totals.add merging) _ = t
  have hkept : t.kept = (sortedBySegmentSize segments).filter fun e => e.name ∉ merging := by
    rw [← ht, totals_kept]
    rfl
  have hmin : t.minSegmentBytes < 2 ^ 64 := by
    rw [← ht]
    exact Nat.lt_of_le_of_lt (totals_minSegmentBytes _ _ _) (by decide)
  dsimp only
  split
  · exact .inl rfl
  generalize he : t.kept.foldl (Eligible.add config _ _) _ = e
  have heligible : e.eligible.Sublist t.kept := by
    obtain ⟨l', hsub, heq⟩ := eligible_sublist config _ _ t.kept _
    rw [← he, heq]
    exact hsub
  have hfloor := config.floorSegmentSize.isLt
  have hpos : 0 < max (max t.minSegmentBytes config.floorSegmentSize.toNat) 1 := by omega
  have hlt : max (max t.minSegmentBytes config.floorSegmentSize.toNat) 1 < 2 ^ 64 := by omega
  obtain ⟨allowed, hallowed⟩ := levelPass_ends config e.allowedSegCount e.indexBytes hpos hlt
  rw [hallowed, ok_bind]
  exact .inr ⟨_, _, rfl, hkept ▸ heligible, ⟨rfl, rfl, rfl, rfl⟩⟩

theorem findMerges_proposes (config : MergePolicyConfig) : Proposes (findMerges config) := by
  intro stats
  unfold findMerges
  rcases findMergesExcluding_cases stats [] config with h | ⟨budget, eligible, h, hsub, -⟩
  · rw [h]
    exact ⟨[], rfl, nofun⟩
  · rw [h]
    exact doFindMerges_proposes (hsub.trans List.filter_sublist)

/-! ## `find_forced_merges` -/

/-- A bin takes the first segments. -/
theorem fillBin_spec (m : Nat) (maxBytes : Int) (l : List SegmentSizeAndDocs) :
    ∀ (candidate : List String) (bytes : Int) (resulting : Nat), ∃ taken rest, l = taken ++ rest ∧
      (fillBin m maxBytes l candidate bytes resulting).1 = candidate ++ taken.map (·.name) ∧
      (fillBin m maxBytes l candidate bytes resulting).2.1 = rest := by
  induction l with
  | nil =>
    intro candidate bytes resulting
    exact ⟨[], [], rfl, (List.append_nil _).symm, rfl⟩
  | cons e l ih =>
    intro candidate bytes resulting
    rw [fillBin]
    split
    · split
      · obtain ⟨taken, rest, hl, hbin, hrest⟩ := ih (candidate ++ [e.name])
          (saturatingAdd bytes e.rawSizeI64)
          (if 0 < candidate.length then resulting - 1 else resulting)
        refine ⟨e :: taken, rest, by rw [hl]; rfl, ?_, hrest⟩
        rw [hbin, List.append_assoc]
        rfl
      · exact ⟨[], e :: l, rfl, (List.append_nil _).symm, rfl⟩
    · exact ⟨[], e :: l, rfl, (List.append_nil _).symm, rfl⟩

/-- While too many segments would be left, a bin takes two. -/
theorem fillBin_two {m : Nat} {maxBytes : Int} {l : List SegmentSizeAndDocs} {resulting : Nat}
    (hm : m < resulting) (hl : 2 ≤ l.length) :
    2 ≤ (fillBin m maxBytes l [] 0 resulting).1.length := by
  obtain ⟨a, b, rest, rfl⟩ : ∃ a b rest, l = a :: b :: rest := by
    match l, hl with
    | a :: b :: rest, _ => exact ⟨a, b, rest, rfl⟩
  rw [fillBin, if_pos hm, if_pos (.inr (by decide)), if_neg (by decide), fillBin, if_pos hm,
    if_pos (.inr (by decide : 1 < 2))]
  obtain ⟨taken, rest', -, hbin, -⟩ := fillBin_spec m maxBytes rest ([] ++ [a.name] ++ [b.name])
    (saturatingAdd (saturatingAdd 0 a.rawSizeI64) b.rawSizeI64)
    (if 0 < ([] ++ [a.name]).length then resulting - 1 else resulting)
  rw [hbin, List.length_append]
  exact Nat.le_add_right 2 _

/-- The bins come to an end, each is worth its merge, and there are none only
if there are few segments. -/
theorem bins_good {stats : List SegmentStat} {m : Nat} (hm : 1 ≤ m) (maxBytes : Int)
    {segments : List SegmentSizeAndDocs} (hsub : segments.Subperm (sortedBySegmentSize stats)) :
    ∃ spec, iterate (binPass m maxBytes) (segments.length + 1) (segments, segments.length, [])
        = .ok spec ∧
      (∀ g ∈ spec, Worthwhile stats g) ∧ (spec = [] → segments.length ≤ m) := by
  refine iterate_ok _
    (fun s => s.1.Sublist segments ∧ (∀ g ∈ s.2.2, Worthwhile stats g) ∧
      (s.2.2 = [] → s.1 = segments ∧ s.2.1 = segments.length))
    (fun s => s.1.length) _ ?_ _ _ ⟨List.Sublist.refl _, nofun, fun _ => ⟨rfl, rfl⟩⟩
    (Nat.lt_succ_self _)
  rintro ⟨l, resulting, spec⟩ ⟨hl, hspec, hnil⟩
  obtain ⟨taken, rest, htaken, hbin, hrest⟩ := fillBin_spec m maxBytes l [] 0 resulting
  have htwo : m < resulting → 2 ≤ l.length → 2 ≤ (fillBin m maxBytes l [] 0 resulting).1.length :=
    fillBin_two
  rw [binPass]
  generalize fillBin m maxBytes l [] 0 resulting = bin at *
  obtain ⟨candidate, rest', resulting'⟩ := bin
  subst hrest
  rw [List.nil_append] at hbin
  dsimp only at hl hspec hnil htaken hbin htwo ⊢
  split
  next hlen =>
    rw [hbin, List.length_map] at hlen
    refine .inl ⟨_, rfl, ⟨?_, ?_, ?_⟩, ?_⟩
    · exact (htaken ▸ List.sublist_append_right _ _ : rest'.Sublist l).trans hl
    · intro g hg
      rw [List.mem_append, List.mem_singleton] at hg
      rcases hg with hg | rfl
      · exact hspec g hg
      · rw [hbin]
        have htl : taken.Sublist l := htaken ▸ List.sublist_append_left _ _
        exact worthwhile_of_subperm ((htl.trans hl).subperm.trans hsub) (.inl hlen)
    · intro h
      exact absurd h (by simp)
    · dsimp only
      rw [htaken, List.length_append]
      omega
  next hlen =>
    refine .inr ⟨spec, rfl, hspec, fun h => ?_⟩
    obtain ⟨heq, hresulting⟩ := hnil h
    by_contra hgt
    exact hlen (htwo (by omega) (by rw [heq]; omega))

/-- The segments that a forced merge to `maxSegmentCount` segments may merge:
those with deletes and those smaller than `max_merge_bytes`. -/
def mergeable (maxSegmentCount : Nat) (config : MergePolicyConfig) (stats : List SegmentStat) :
    List SegmentStat :=
  let maxBytes := maxMergeBytes (sortedBySegmentSize stats) (max maxSegmentCount 1) config
  stats.filter fun s =>
    decide (s.delCount ≠ 0) || decide ((SegmentSizeAndDocs.of s).sizeI64 < maxBytes)

theorem mem_sortedBySegmentSize {stats : List SegmentStat} {e : SegmentSizeAndDocs} :
    e ∈ sortedBySegmentSize stats ↔ ∃ s ∈ stats, SegmentSizeAndDocs.of s = e := by
  rw [sortedBySegmentSize, List.mem_insertionSort, List.mem_map]

section

variable {n : Nat} {config : MergePolicyConfig} {stats : List SegmentStat}

/-- `segments_to_merge`, as `find_forced_merges` gives it. -/
theorem segmentsToMerge_of_mem {e : SegmentSizeAndDocs} (he : e ∈ sortedBySegmentSize stats) :
    (if stats.any (·.name = e.name) then some true else none : Option Bool) = some true := by
  obtain ⟨s, hs, rfl⟩ := mem_sortedBySegmentSize.1 he
  exact if_pos (List.any_eq_true.2 ⟨s, hs, by simp [SegmentSizeAndDocs.of,
    SegmentSizeAndDocs.name]⟩)

/-- What is left of `forced_merges_full` when there is something to merge. -/
theorem forced_groups (n : Nat) (config : MergePolicyConfig) (stats : List SegmentStat)
    (first : SegmentSizeAndDocs) (others : List SegmentSizeAndDocs)
    (hsub : (first :: others).Sublist (sortedBySegmentSize stats))
    (hone : max n 1 = 1 → others = [] → first.delCount ≠ 0) :
    ∃ groups,
      (if max n 1 = 1 ∧ totalMergeBytes (sortedBySegmentSize stats) <
            maxMergeBytes (sortedBySegmentSize stats) (max n 1) config then
          (.ok [(first :: others).map (·.name)] : Result (List (List String)))
        else
          iterate (binPass (max n 1) (maxMergeBytes (sortedBySegmentSize stats) (max n 1) config))
            (others.length + 2) ((first :: others).reverse, others.length + 1, [])) = .ok groups ∧
      (∀ g ∈ groups, Worthwhile stats g) ∧
      (groups = [] → others.length + 1 ≤ max n 1 ∧
        (n ≤ 1 → ¬ totalMergeBytes (sortedBySegmentSize stats) < i64Max)) := by
  split
  next hbelow =>
    refine ⟨_, rfl, ?_, nofun⟩
    intro g hg
    rw [List.mem_singleton] at hg
    subst hg
    refine worthwhile_of_subperm hsub.subperm ?_
    cases others with
    | nil => exact .inr ⟨first, rfl, hone hbelow.1 rfl⟩
    | cons e others => exact .inl (by simp)
  next hbelow =>
    have hperm := (List.reverse_perm (first :: others)).subperm.trans hsub.subperm
    obtain ⟨spec, hspec, hworth, hnil⟩ := bins_good (m := max n 1) (Nat.le_max_right _ _)
      (maxMergeBytes (sortedBySegmentSize stats) (max n 1) config) hperm
    rw [List.length_reverse] at hspec hnil
    refine ⟨spec, hspec, hworth, fun h => ⟨hnil h, fun hn hlt => hbelow ⟨by omega, ?_⟩⟩⟩
    rwa [maxMergeBytes, if_pos (by omega)]

variable {segmentsToMerge : String → Option Bool}
  (hmerge : ∀ e ∈ sortedBySegmentSize stats, segmentsToMerge e.name = some true)
include hmerge

/-- Every mergeable segment is a candidate. -/
theorem mergeable_le (n : Nat) (config : MergePolicyConfig) :
    (mergeable n config stats).length ≤
      (forcedCandidates (sortedBySegmentSize stats) segmentsToMerge (max n 1)
        (maxMergeBytes (sortedBySegmentSize stats) (max n 1) config)).length := by
  rw [mergeable, forcedCandidates, ← List.countP_eq_length_filter,
    ← List.countP_eq_length_filter, ← (map_stat_sortedBySegmentSize stats).countP_eq,
    List.countP_map]
  refine List.countP_mono_left fun e he h => ?_
  have hname := hmerge e he
  obtain ⟨s, -, rfl⟩ := mem_sortedBySegmentSize.1 he
  simp only [Function.comp_apply, Bool.or_eq_true, decide_eq_true_eq] at h
  split
  · rfl
  next hdel =>
  rw [if_neg (by simp [hname])]
  rcases h with h | h
  · exact absurd h hdel
  · simp only [Bool.not_eq_true', Bool.and_eq_false_iff, decide_eq_false_iff_not]
    exact .inr (Int.not_le.2 h)

/-- A forced merge proposes what is worth its merge.  It proposes nothing only
if few enough segments are mergeable, and, towards one segment that is not too
large, only if there are no deletes. -/
theorem forcedMergesFull_spec (isMerged : String → Result Bool) :
    ∃ groups, forcedMergesFull stats n segmentsToMerge [] isMerged config = .ok groups ∧
      (∀ g ∈ groups, Worthwhile stats g) ∧
      (groups = [] → (mergeable n config stats).length ≤ max n 1 ∧
        (n ≤ 1 → totalMergeBytes (sortedBySegmentSize stats) < i64Max →
          ∀ s ∈ stats, s.delCount = 0)) := by
  have hle := mergeable_le hmerge n config
  have hwanted : (sortedBySegmentSize stats).filter (fun e => (segmentsToMerge e.name).isSome) =
      sortedBySegmentSize stats :=
    List.filter_eq_self.2 fun e he => by rw [hmerge e he]; rfl
  have hmerging : (sortedBySegmentSize stats).filter (fun e => decide (e.name ∉ [])) =
      sortedBySegmentSize stats :=
    List.filter_eq_self.2 fun e he => by simp
  have hnone (hdel : ∀ e ∈ sortedBySegmentSize stats, e.delCount = 0) :
      ∀ s ∈ stats, s.delCount = 0 :=
    fun s hs => hdel _ (mem_sortedBySegmentSize.2 ⟨s, hs, rfl⟩)
  have hgroups := forced_groups n config stats
  unfold forcedMergesFull
  dsimp only
  rw [hwanted, hmerging]
  generalize hsorted : sortedBySegmentSize stats = sorted at *
  generalize maxMergeBytes sorted (max n 1) config = maxBytes at *
  have hsub : (forcedCandidates sorted segmentsToMerge (max n 1) maxBytes).Sublist sorted :=
    List.filter_sublist
  have hcandidate (e) (he : e ∈ sorted) (hdel : e.delCount ≠ 0) :
      e ∈ forcedCandidates sorted segmentsToMerge (max n 1) maxBytes :=
    List.mem_filter.2 ⟨he, if_pos hdel⟩
  generalize forcedCandidates sorted segmentsToMerge (max n 1) maxBytes = candidates at *
  split
  next hnil =>
    subst hnil
    refine ⟨[], rfl, nofun, fun _ => ⟨?_, fun _ _ => hnone nofun⟩⟩
    rw [List.sublist_nil.1 hsub] at hle
    exact hle.trans (Nat.zero_le _)
  cases candidates with
  | nil =>
    refine ⟨[], rfl, nofun, fun _ => ⟨hle.trans (Nat.zero_le _), fun _ _ => hnone ?_⟩⟩
    intro e he
    by_contra hdel
    exact List.not_mem_nil (hcandidate e he hdel)
  | cons first others =>
    have hrunning : sorted.any (fun e => decide (e.name ∈ [])) = false := by simp
    have hfirst : (segmentsToMerge first.name).isSome = true := by
      rw [hmerge first (hsub.subset (List.mem_cons_self ..))]
      rfl
    dsimp only
    rw [hrunning, if_pos hfirst]
    have hsplit (hone : max n 1 = 1 → others = [] → first.delCount ≠ 0) :=
      hgroups first others hsub hone
    split
    next hdel =>
      -- there are deletes to expunge
      obtain ⟨e, he, hdel⟩ := List.any_eq_true.1 hdel
      simp only [hmerge e he, decide_true, Bool.and_true, decide_eq_true_eq] at hdel
      obtain ⟨groups, heq, hworth, hnil⟩ := hsplit fun _ hothers => by
        subst hothers
        rw [← List.mem_singleton.1 (hcandidate e he hdel)]
        exact hdel
      exact ⟨groups, heq, hworth, fun h =>
        ⟨hle.trans (hnil h).1, fun hn hlt => absurd hlt ((hnil h).2 hn)⟩⟩
    next hdel =>
    have hnodel : ∀ s ∈ stats, s.delCount = 0 := hnone fun e he => by
      by_contra h
      exact hdel (List.any_eq_true.2 ⟨e, he, by simp [h, hmerge e he]⟩)
    split
    next hfew => exact ⟨[], rfl, nofun, fun _ => ⟨hle.trans hfew.2.2, fun _ _ => hnodel⟩⟩
    split
    next hsingle =>
      refine ⟨[], rfl, nofun, fun _ => ⟨hle.trans ?_, fun _ _ => hnodel⟩⟩
      rw [hsingle.2]
      exact Nat.le_max_right _ _
    next hsingle =>
      obtain ⟨groups, heq, hworth, hnil⟩ := hsplit fun h1 hothers => absurd ⟨h1, hothers⟩ hsingle
      exact ⟨groups, heq, hworth, fun h => ⟨hle.trans (hnil h).1, fun _ _ => hnodel⟩⟩

end

/-- What forced merges leave where they propose nothing more. -/
theorem findForcedMerges_spec (n : Nat) (config : MergePolicyConfig) (stats : List SegmentStat) :
    ∃ groups, findForcedMerges n config stats = .ok groups ∧
      (∀ g ∈ groups, Worthwhile stats g) ∧
      (groups = [] → (mergeable n config stats).length ≤ max n 1 ∧
        (n ≤ 1 → totalMergeBytes (sortedBySegmentSize stats) < i64Max →
          ∀ s ∈ stats, s.delCount = 0)) :=
  forcedMergesFull_spec (fun _ => segmentsToMerge_of_mem) _

theorem findForcedMerges_proposes (n : Nat) (config : MergePolicyConfig) :
    Proposes (findForcedMerges n config) := by
  intro stats
  obtain ⟨groups, heq, hworth, -⟩ := findForcedMerges_spec n config stats
  exact ⟨groups, heq, hworth⟩

/-! ## The rounds of merges -/

theorem Worthwhile.mono {stats stats' : List SegmentStat} {g : List String}
    (h : Worthwhile stats g) (hsub : stats.Subperm stats') : Worthwhile stats' g := by
  obtain ⟨c, hc, hg⟩ := h
  exact ⟨c, hc.trans hsub, hg⟩

theorem addToPart_perm (key : Option String) (item : SegmentStat)
    (parts : List (Option String × List SegmentStat)) :
    (((addToPart key item parts).map (·.2)).flatten).Perm
      (item :: (parts.map (·.2)).flatten) := by
  induction parts with
  | nil => exact List.Perm.refl _
  | cons p parts ih =>
    obtain ⟨k, part⟩ := p
    rw [addToPart]
    split
    · simp only [List.map_cons, List.flatten_cons, List.append_assoc]
      exact List.perm_middle
    split
    · exact List.Perm.refl _
    · simp only [List.map_cons, List.flatten_cons]
      exact (ih.append_left part).trans List.perm_middle

/-- The parts are made of the items. -/
theorem splitBy_perm (items : List SegmentStat) (key : SegmentStat → Option String) :
    (splitBy items key).flatten.Perm items := by
  have hfold (l : List SegmentStat) : ∀ parts : List (Option String × List SegmentStat),
      (((l.foldl (fun parts item => addToPart (key item) item parts) parts).map (·.2)).flatten).Perm
        ((parts.map (·.2)).flatten ++ l) := by
    induction l with
    | nil =>
      intro parts
      rw [List.append_nil, List.foldl_nil]
    | cons item l ih =>
      intro parts
      refine (ih _).trans (((addToPart_perm _ _ _).append_right l).trans ?_)
      exact List.perm_middle.symm
  exact hfold items []

/-- A part is made of some of the segments. -/
theorem subperm_of_partition {partition : Option (String → Option String)}
    {stats part : List SegmentStat} (h : part ∈ partitionsOf partition stats) :
    part.Subperm stats := by
  cases partition with
  | none =>
    exact List.mem_singleton.1 h ▸ List.Subperm.refl _
  | some partitions =>
    exact (List.sublist_flatten_of_mem h).subperm.trans (splitBy_perm _ _).subperm

/-- What a round asks for is worthwhile, and it asks for nothing only where
`find` proposes nothing for any part. -/
theorem perPartitionStats_spec {find : List SegmentStat → Result (List (List String))}
    (hfind : Proposes find) (partition : Option (String → Option String))
    (stats : List SegmentStat) :
    ∃ groups, perPartitionStats partition find stats = .ok groups ∧
      (∀ g ∈ groups, Worthwhile stats g) ∧
      (groups = [] → ∀ part ∈ partitionsOf partition stats, find part = .ok []) := by
  refine foldlM_visited (fun seen out => (∀ g ∈ out, Worthwhile stats g) ∧
    (out = [] → ∀ part ∈ seen, find part = .ok [])) _ ?_ [] ⟨nofun, fun _ => nofun⟩
  rintro seen part out ⟨rest, hrest⟩ ⟨hworth, hnil⟩
  have hmem : part ∈ partitionsOf partition stats := by simp [hrest]
  have hpart : part.Subperm stats := subperm_of_partition hmem
  obtain ⟨groups, hgroups, hg⟩ := hfind part
  rw [hgroups, ok_bind]
  refine ⟨_, rfl, ?_, ?_⟩
  · intro g hmem
    rcases List.mem_append.1 hmem with hmem | hmem
    · exact hworth g hmem
    · exact (hg g hmem).mono hpart
  · intro hempty p hp
    obtain ⟨hout, rfl⟩ := List.append_eq_nil_iff.1 hempty
    rcases List.mem_append.1 hp with hp | hp
    · exact hnil hout p hp
    · rw [List.mem_singleton.1 hp]
      exact hgroups

/-- How much merging can be left: a segment counts once, and once more for its
deletes. -/
def mergeWork (segments : List SegmentStat) : Nat :=
  (segments.map fun s => if s.delCount = 0 then 1 else 2).sum

theorem mergeWork_append (a b : List SegmentStat) :
    mergeWork (a ++ b) = mergeWork a + mergeWork b := by
  rw [mergeWork, List.map_append, List.sum_append]
  rfl

theorem mergeWork_perm {a b : List SegmentStat} (h : a.Perm b) : mergeWork a = mergeWork b :=
  (h.map _).sum_eq

theorem length_le_mergeWork (l : List SegmentStat) : l.length ≤ mergeWork l := by
  induction l with
  | nil => exact Nat.le_refl _
  | cons s l ih =>
    rw [mergeWork, List.map_cons, List.sum_cons, ← mergeWork, List.length_cons]
    split
    · omega
    · omega

theorem mergeWork_subperm {a b : List SegmentStat} (h : a.Subperm b) :
    mergeWork a ≤ mergeWork b := by
  obtain ⟨c, hperm, hsub⟩ := h
  rw [← mergeWork_perm hperm]
  exact (hsub.map _).sum_le_sum fun _ _ => Nat.zero_le _

/-- The members of a worthwhile group are work. -/
theorem Worthwhile.two_le {stats : List SegmentStat} {group : List String}
    (h : Worthwhile stats group) : 2 ≤ mergeWork (stats.filter (·.name ∈ group)) := by
  obtain ⟨c, hsub, rfl, hc⟩ := h
  have hmem : c.filter (fun s => s.name ∈ c.map (·.name)) = c :=
    List.filter_eq_self.2 fun s hs => decide_eq_true (List.mem_map_of_mem hs)
  have hle : mergeWork c ≤ mergeWork (stats.filter fun s => s.name ∈ c.map (·.name)) := by
    refine mergeWork_subperm ?_
    have hfilter := hsub.filter fun s => decide (s.name ∈ c.map (·.name))
    rwa [hmem] at hfilter
  refine le_trans ?_ hle
  rcases hc with h2 | ⟨s, rfl, hdel⟩
  · exact h2.trans (length_le_mergeWork c)
  · rw [mergeWork, List.map_singleton, if_neg hdel, List.sum_singleton]

section

variable (merged : Nat → String × U64) (s : Nat × List SegmentStat) (group : List String)

/-- A merge puts at most one segment, without deletes, in the place of its
group. -/
theorem executeMerge_work :
    mergeWork (executeMerge merged s group).2 ≤
      mergeWork (s.2.filter (·.name ∉ group)) + min 1 (mergeWork (s.2.filter (·.name ∈ group))) := by
  rw [executeMerge]
  dsimp only
  split
  next hlive =>
    have hpos : 1 ≤ (s.2.filter (·.name ∈ group)).length := by
      by_contra hlen
      rw [List.length_eq_zero_iff.1 (by omega : (s.2.filter (·.name ∈ group)).length = 0)] at hlive
      exact absurd hlive (by decide)
    have hle := length_le_mergeWork (s.2.filter (·.name ∈ group))
    rw [mergeWork_append]
    refine Nat.add_le_add_left ?_ _
    rw [Nat.min_eq_left (hpos.trans hle)]
    exact Nat.le_refl 1
  next => exact Nat.le_add_right _ _

theorem mergeWork_split :
    mergeWork (s.2.filter (·.name ∈ group)) + mergeWork (s.2.filter (·.name ∉ group)) =
      mergeWork s.2 := by
  have hperm := List.filter_append_perm (fun s : SegmentStat => decide (s.name ∈ group)) s.2
  rw [← mergeWork_perm hperm, mergeWork_append]
  simp only [decide_not]

theorem executeMerge_le : mergeWork (executeMerge merged s group).2 ≤ mergeWork s.2 := by
  have hwork := executeMerge_work merged s group
  have hsplit := mergeWork_split s group
  omega

theorem executeMerge_lt (h : Worthwhile s.2 group) :
    mergeWork (executeMerge merged s group).2 < mergeWork s.2 := by
  have hwork := executeMerge_work merged s group
  have hsplit := mergeWork_split s group
  have htwo := h.two_le
  omega

theorem foldl_executeMerge_le (groups : List (List String)) : ∀ s : Nat × List SegmentStat,
    mergeWork (groups.foldl (executeMerge merged) s).2 ≤ mergeWork s.2 := by
  induction groups with
  | nil =>
    intro s
    exact Nat.le_refl _
  | cons g groups ih =>
    intro s
    exact (ih _).trans (executeMerge_le merged s g)

end

/-- The loop over a decision ends, in a round that asks for nothing. -/
theorem runMerges_ends {find : List SegmentStat → Result (List (List String))}
    (hfind : Proposes find) (partition : Option (String → Option String))
    (merged : Nat → String × U64) (segments : List SegmentStat) :
    ∃ r, runMerges partition find merged (mergeWork segments + 1) segments = .ok r ∧
      perPartitionStats partition find r.2 = .ok [] ∧
      ∀ part ∈ partitionsOf partition r.2, find part = .ok [] := by
  refine iterate_ok _ (fun _ => True) (fun s => mergeWork s.2) _ ?_ _ (0, segments) trivial
    (Nat.lt_succ_self _)
  intro s _
  obtain ⟨groups, hgroups, hworth, hnil⟩ := perPartitionStats_spec hfind partition s.2
  rw [mergeRound, hgroups, ok_bind]
  cases groups with
  | nil => exact .inr ⟨s, rfl, hgroups, hnil rfl⟩
  | cons g groups =>
    -- the first merge of the round leaves less work, the others no more
    refine .inl ⟨_, rfl, trivial, ?_⟩
    refine Nat.lt_of_le_of_lt (foldl_executeMerge_le merged groups _) ?_
    exact executeMerge_lt merged s g (hworth g (List.mem_cons_self ..))

/-! ## What is left -/

theorem mergeable_eq_self {config : MergePolicyConfig} {part : List SegmentStat}
    (hsmall : ∀ s ∈ part, (SegmentSizeAndDocs.of s).sizeI64 < i64Max) :
    mergeable 1 config part = part :=
  List.filter_eq_self.2 fun s hs => by
    rw [maxMergeBytes]
    simp [hsmall s hs]

/-- Towards one segment, and without segments that are too large, there is at
most one left, and without deletes. -/
theorem findForcedMerges_one {config : MergePolicyConfig} {part : List SegmentStat}
    (hnil : findForcedMerges 1 config part = .ok [])
    (hsmall : ∀ s ∈ part, (SegmentSizeAndDocs.of s).sizeI64 < i64Max) :
    part.length ≤ 1 ∧ ∀ s ∈ part, s.delCount = 0 := by
  obtain ⟨groups, heq, -, hleft⟩ := findForcedMerges_spec 1 config part
  rw [hnil] at heq
  cases heq
  obtain ⟨hfew, hclean⟩ := hleft rfl
  rw [mergeable_eq_self hsmall] at hfew
  refine ⟨hfew, ?_⟩
  match part, hfew with
  | [], _ => exact nofun
  | [s], _ =>
    refine hclean (Nat.le_refl 1) ?_
    have hs := hsmall s (List.mem_singleton_self s)
    change saturatingAdd 0 (SegmentSizeAndDocs.of s).sizeI64 < i64Max
    rw [saturatingAdd, clampI64]
    rw [i64Max] at hs ⊢
    rw [i64Min]
    omega

/-- Merging ends, whatever the sizes of the merged segments: automatic
merging, the merging of deletes, and forced merging towards any number of
segments.  At the end of a forced merge few enough segments are mergeable, and
towards one segment there is at most one left, if none is too large. -/
theorem merging_ends (config : MergePolicyConfig) (partition : Option (String → Option String))
    (merged : Nat → String × U64) (segments : List SegmentStat) :
    (∃ r, runMerges partition (findMerges config) merged (mergeWork segments + 1) segments = .ok r ∧
      perPartitionStats partition (findMerges config) r.2 = .ok []) ∧
    (∃ r, runMerges partition (findForcedDeleteMerges config) merged (mergeWork segments + 1)
        segments = .ok r ∧
      perPartitionStats partition (findForcedDeleteMerges config) r.2 = .ok []) ∧
    ∀ n, ∃ r, runMerges partition (findForcedMerges n config) merged (mergeWork segments + 1)
        segments = .ok r ∧
      perPartitionStats partition (findForcedMerges n config) r.2 = .ok [] ∧
      ∀ part ∈ partitionsOf partition r.2,
        (mergeable n config part).length ≤ max n 1 ∧
        (n = 1 → (∀ s ∈ part, (SegmentSizeAndDocs.of s).sizeI64 < i64Max) →
          part.length ≤ 1 ∧ ∀ s ∈ part, s.delCount = 0) := by
  refine ⟨?_, ?_, fun n => ?_⟩
  · obtain ⟨r, hr, hnil, -⟩ :=
      runMerges_ends (findMerges_proposes config) partition merged segments
    exact ⟨r, hr, hnil⟩
  · obtain ⟨r, hr, hnil, -⟩ :=
      runMerges_ends (findForcedDeleteMerges_proposes config) partition merged segments
    exact ⟨r, hr, hnil⟩
  · obtain ⟨r, hr, hnil, hparts⟩ :=
      runMerges_ends (findForcedMerges_proposes n config) partition merged segments
    refine ⟨r, hr, hnil, fun part hpart => ⟨?_, ?_⟩⟩
    · obtain ⟨groups, heq, -, hleft⟩ := findForcedMerges_spec n config part
      rw [hparts part hpart] at heq
      cases heq
      exact (hleft rfl).1
    · rintro rfl hsmall
      exact findForcedMerges_one (hparts part hpart) hsmall

/-- Two segments of `2 ^ 63` bytes are never merged into one. -/
theorem merging_ends_counterexample :
    let segments : List SegmentStat :=
      [⟨"_0", 1, 0, BitVec.ofNat 64 (2 ^ 63)⟩, ⟨"_1", 1, 0, BitVec.ofNat 64 (2 ^ 63)⟩]
    ∃ r, runMerges none (findForcedMerges 1 .default) (fun _ => ("_2", 0)) 10 segments = .ok r ∧
      r.2.length = 2 := by
  exact ⟨(0, [⟨"_0", 1, 0, BitVec.ofNat 64 (2 ^ 63)⟩, ⟨"_1", 1, 0, BitVec.ofNat 64 (2 ^ 63)⟩]),
    by decide +kernel, rfl⟩

end LuceneRust.Index.MergePolicy
