import LuceneRust.Index.MergePolicySpec
import Mathlib.Algebra.BigOperators.Group.List.Basic

/-!
# The groups of a tiered selection

What `find_merges_excluding` and `find_forced_delete_merges_excluding` propose
is well formed (`WellFormed`), whatever the sizes, percentages and scores are.

* `Fits`: what the packing loop keeps of a candidate.  A candidate of two
  segments or more has exact sums, because its first segment is the largest.
* `Selection`: a run of `do_find_merges`.  Each turn takes a packed candidate
  out of the segments that are left, whether it is proposed or not.
* `Emitted`: the proposed candidates of a run.  Of a natural selection at most
  one has met the size bound.
-/

namespace LuceneRust.Index.MergePolicy

open RustSem
open Store (Result)

/-! ## Sizes in order -/

/-- The largest segments come first. -/
def BySize (l : List SegmentSizeAndDocs) : Prop :=
  l.Pairwise fun a b => b.sizeInBytes ≤ a.sizeInBytes

theorem SegmentSizeAndDocs.le_iff {a b : SegmentSizeAndDocs} : a.le b = true ↔
    b.sizeInBytes < a.sizeInBytes ∨ a.sizeInBytes = b.sizeInBytes ∧ a.name ≤ b.name := by
  unfold SegmentSizeAndDocs.le
  rw [Bool.or_eq_true, Bool.and_eq_true, decide_eq_true_eq, decide_eq_true_eq, decide_eq_true_eq]

theorem sortedBySegmentSize_bySize (segments : List SegmentStat) :
    BySize (sortedBySegmentSize segments) := by
  have htotal : Std.Total fun a b : SegmentSizeAndDocs => a.le b = true := ⟨by
    intro a b
    rw [SegmentSizeAndDocs.le_iff, SegmentSizeAndDocs.le_iff]
    rcases Nat.lt_trichotomy a.sizeInBytes b.sizeInBytes with h | h | h
    · exact Or.inr (Or.inl h)
    · rcases String.le_total a.name b.name with hn | hn
      · exact Or.inl (Or.inr ⟨h, hn⟩)
      · exact Or.inr (Or.inr ⟨h.symm, hn⟩)
    · exact Or.inl (Or.inl h)⟩
  have htrans : IsTrans SegmentSizeAndDocs fun a b => a.le b = true := ⟨by
    intro a b c hab hbc
    rw [SegmentSizeAndDocs.le_iff] at hab hbc ⊢
    rcases hab with hab | ⟨hab, hn⟩
    · exact Or.inl (by omega)
    · rcases hbc with hbc | ⟨hbc, hn'⟩
      · exact Or.inl (by omega)
      · exact Or.inr ⟨hab.trans hbc, String.le_trans hn hn'⟩⟩
  have h := List.pairwise_insertionSort (fun a b : SegmentSizeAndDocs => a.le b = true)
    (segments.map SegmentSizeAndDocs.of)
  exact h.imp fun hab => by
    rw [SegmentSizeAndDocs.le_iff] at hab
    omega

/-- The bytes of the segments together. -/
def totalSize (l : List SegmentSizeAndDocs) : Nat := (l.map (·.sizeInBytes)).sum

theorem totalSize_append (l l' : List SegmentSizeAndDocs) :
    totalSize (l ++ l') = totalSize l + totalSize l' := by
  unfold totalSize
  rw [List.map_append, List.sum_append]

theorem totalSize_singleton (e : SegmentSizeAndDocs) : totalSize [e] = e.sizeInBytes := by
  simp [totalSize]

/-! ## One candidate -/

section

variable (config : MergePolicyConfig) (budget : MergeBudget)

/-- What the packing loop keeps.  `first` is the largest segment that it has
looked at. -/
inductive Fits : Candidate → Prop
  | empty {c : Candidate} (h : c.segments = []) (hbytes : c.bytes = 0) : Fits c
  | single {c : Candidate} {first : SegmentSizeAndDocs} (h : c.segments = [first])
      (hbytes : c.bytes = first.sizeI64) : Fits c
  | many {c : Candidate} (h : 2 ≤ c.segments.length) (hbytes : c.bytes = totalSize c.segments)
      (hle : totalSize c.segments ≤ config.maxMergedSegmentSize.toNat) : Fits c

theorem toI64_of_lt {n : Nat} (h : (n : Int) < i64Max) : toI64 n = n := by
  unfold toI64
  omega

theorem toI64_nonneg (n : Nat) : 0 ≤ toI64 n := by
  unfold toI64 i64Max
  omega

theorem saturatingAdd_of_le {a b bound : Int} (h : exceeds a b bound = false) :
    saturatingAdd a b = a + b ∧ a + b ≤ bound := by
  unfold exceeds at h
  rw [Bool.or_eq_false_iff, Bool.or_eq_false_iff, decide_eq_false_iff_not,
    decide_eq_false_iff_not, decide_eq_false_iff_not] at h
  unfold saturatingAdd clampI64 i64Min
  unfold i64Min at h
  omega

/-- The candidate with one more segment. -/
def Candidate.push (c : Candidate) (entry : SegmentSizeAndDocs) (hitTooLarge : Bool) :
    Candidate where
  segments := c.segments ++ [entry]
  bytes := saturatingAdd c.bytes entry.sizeI64
  docs := saturatingAdd c.docs entry.liveDocCount
  hitTooLarge := hitTooLarge

/-- What a turn of the packing loop does: it stops, it skips a segment that is
too large beside the others, or it takes the segment. -/
theorem packCandidate_cons (entry : SegmentSizeAndDocs) (rest : List SegmentSizeAndDocs)
    (c : Candidate) :
    packCandidate config budget (entry :: rest) c = c ∨
      ((c.segments.length < config.maxMergeAtOnce ∧
          c.bytes < toI64 config.maxMergedSegmentSize.toNat) ∧ ∃ hit,
        (c.segments ≠ [] ∧ packCandidate config budget (entry :: rest) c =
            packCandidate config budget rest { c with hitTooLarge := hit }) ∨
        ((c.segments = [] ∨ exceeds c.bytes entry.sizeI64
              (toI64 config.maxMergedSegmentSize.toNat) = false) ∧
          packCandidate config budget (entry :: rest) c =
            packCandidate config budget rest (c.push entry hit))) := by
  rw [packCandidate]
  split
  next hgo =>
    refine Or.inr ⟨⟨hgo.1, hgo.2.2.1⟩, ?_⟩
    dsimp only
    cases hbytes : exceeds c.bytes entry.sizeI64 (toI64 config.maxMergedSegmentSize.toNat) with
    | true =>
      simp only [Bool.true_or, Bool.or_true, if_true, true_and]
      split
      next hne => exact ⟨true, Or.inl ⟨hne, rfl⟩⟩
      next hnil => exact ⟨true, Or.inr ⟨Or.inl (not_not.1 hnil), rfl⟩⟩
    | false =>
      simp only [Bool.false_or, Bool.or_false]
      cases (decide (toI64 config.floorSegmentSize.toNat < c.bytes) &&
          exceeds c.docs entry.liveDocCount budget.allowedDocCount) with
      | true =>
        simp only [if_true, true_and]
        split
        next hne => exact ⟨c.hitTooLarge, Or.inl ⟨hne, rfl⟩⟩
        next hnil => exact ⟨c.hitTooLarge, Or.inr ⟨Or.inl (not_not.1 hnil), rfl⟩⟩
      | false =>
        simp only [Bool.false_eq_true, if_false, false_and]
        exact ⟨c.hitTooLarge, Or.inr ⟨Or.inr trivial, rfl⟩⟩
  · exact Or.inl rfl

/-- A segment that is taken keeps the sums. -/
theorem Fits.push {c : Candidate} {entry : SegmentSizeAndDocs} (h : Fits config c)
    (hlt : c.bytes < toI64 config.maxMergedSegmentSize.toNat)
    (hsize : ∀ e ∈ c.segments, entry.sizeInBytes ≤ e.sizeInBytes)
    (hfits : c.segments = [] ∨ exceeds c.bytes entry.sizeI64
      (toI64 config.maxMergedSegmentSize.toNat) = false) (hit : Bool) :
    Fits config (c.push entry hit) := by
  have hentry : 0 ≤ entry.sizeI64 := toI64_nonneg _
  have hmax : toI64 config.maxMergedSegmentSize.toNat ≤ i64Max := by
    unfold toI64
    omega
  have hmax' : toI64 config.maxMergedSegmentSize.toNat ≤ config.maxMergedSegmentSize.toNat := by
    unfold toI64
    omega
  cases h with
  | empty hnil hbytes =>
    apply @Fits.single config _ entry
    · unfold Candidate.push
      rw [hnil]
      rfl
    · unfold Candidate.push saturatingAdd clampI64
      rw [hbytes]
      unfold SegmentSizeAndDocs.sizeI64 toI64 i64Min i64Max
      dsimp only
      omega
  | @single first hone hbytes =>
    have hlt' : first.sizeI64 < i64Max := by omega
    have hfirst : first.sizeI64 = first.sizeInBytes := by
      unfold SegmentSizeAndDocs.sizeI64 toI64 at hlt' ⊢
      omega
    have hle := hsize first (by rw [hone]; exact List.mem_singleton_self _)
    have hexact : entry.sizeI64 = entry.sizeInBytes := toI64_of_lt (by omega)
    obtain ⟨hadd, hbound⟩ := saturatingAdd_of_le (hfits.resolve_left (by rw [hone]; simp))
    have htotal : totalSize (c.push entry hit).segments = first.sizeInBytes + entry.sizeInBytes := by
      unfold Candidate.push
      rw [hone, totalSize_append, totalSize_singleton, totalSize_singleton]
    apply Fits.many
    · unfold Candidate.push
      rw [hone]
      exact Nat.le_refl 2
    · rw [htotal]
      unfold Candidate.push
      dsimp only
      omega
    · omega
  | many htwo hbytes hle =>
    obtain ⟨first, hmem⟩ := List.exists_mem_of_length_pos (l := c.segments) (by omega)
    have hone : first.sizeInBytes ≤ totalSize c.segments :=
      List.single_le_sum (by simp) _ (List.mem_map_of_mem hmem)
    have hle' := hsize first hmem
    have hexact : entry.sizeI64 = entry.sizeInBytes := toI64_of_lt (by omega)
    have hne : c.segments ≠ [] := List.ne_nil_of_mem hmem
    obtain ⟨hadd, hbound⟩ := saturatingAdd_of_le (hfits.resolve_left hne)
    have htotal : totalSize (c.push entry hit).segments =
        totalSize c.segments + entry.sizeInBytes := by
      unfold Candidate.push
      rw [totalSize_append, totalSize_singleton]
    apply Fits.many
    · unfold Candidate.push
      rw [List.length_append]
      omega
    · rw [htotal]
      unfold Candidate.push
      dsimp only
      omega
    · omega

/-- The packing loop keeps the sums and the number of segments. -/
theorem packCandidate_fits (l : List SegmentSizeAndDocs) : ∀ c : Candidate, Fits config c →
    c.segments.length ≤ config.maxMergeAtOnce → BySize (c.segments ++ l) →
      Fits config (packCandidate config budget l c) ∧
        (packCandidate config budget l c).segments.length ≤ config.maxMergeAtOnce := by
  induction l with
  | nil => exact fun c hfits hlen _ => ⟨hfits, hlen⟩
  | cons entry rest ih =>
    intro c hfits hlen hsize
    rcases packCandidate_cons config budget entry rest c with heq | ⟨⟨hroom, hlt⟩, hit, h⟩
    · rw [heq]
      exact ⟨hfits, hlen⟩
    · rcases h with ⟨-, heq⟩ | ⟨hfit, heq⟩
      · rw [heq]
        apply ih { c with hitTooLarge := hit }
        · cases hfits with
          | empty h hb => exact .empty h hb
          | single h hb => exact .single h hb
          | many h hb hle => exact .many h hb hle
        · exact hlen
        · exact hsize.sublist (List.Sublist.append_left (List.sublist_cons_self entry rest) _)
      · rw [heq]
        have hbefore : ∀ e ∈ c.segments, entry.sizeInBytes ≤ e.sizeInBytes := fun e he =>
          (List.pairwise_append.1 hsize).2.2 e he entry List.mem_cons_self
        apply ih (c.push entry hit) (hfits.push config hlt hbefore hfit hit)
        · unfold Candidate.push
          rw [List.length_append]
          exact hroom
        · unfold Candidate.push
          rw [List.append_assoc]
          exact hsize

/-! ## The best candidate of a turn -/

/-- The candidate that is packed from some start on, if it may be taken: it is
worth its merge, and one that met the size bound is not taken beside a merge of
the largest size. -/
structure IsPacked (remaining : List SegmentSizeAndDocs) (c : Candidate) : Prop where
  packed : ∃ start, c = packCandidate config budget (remaining.drop start) {}
  nonempty : c.segments ≠ []
  single : ∀ e, c.segments = [e] → e.delCount ≠ 0
  notRunning : c.hitTooLarge = true → budget.maxMergeIsRunning = false

/-- The candidate that a turn takes: the best one. -/
structure IsPick (remaining : List SegmentSizeAndDocs) (c : Candidate) : Prop extends
    IsPacked config budget remaining c where
  best : ∃ score, bestCandidate config budget remaining (List.range remaining.length)
    ⟨none, 1.0 / 0.0, false⟩ = ⟨some c.segments, score, c.hitTooLarge⟩

theorem bestCandidate_packed {remaining : List SegmentSizeAndDocs} (starts : List Nat) :
    ∀ best : Best, (∀ l, best.segments = some l → ∃ c, IsPacked config budget remaining c ∧
        c.segments = l ∧ c.hitTooLarge = best.tooLarge) →
      ∀ l, (bestCandidate config budget remaining starts best).segments = some l →
        ∃ c, IsPacked config budget remaining c ∧ c.segments = l ∧
          c.hitTooLarge = (bestCandidate config budget remaining starts best).tooLarge := by
  induction starts with
  | nil => exact fun best hbest l hl => hbest l hl
  | cons start starts ih =>
    intro best hbest l hl
    rw [bestCandidate] at hl ⊢
    dsimp only at hl ⊢
    generalize hc : packCandidate config budget (remaining.drop start) {} = c at hl ⊢
    cases hsegs : c.segments with
    | nil =>
      rw [hsegs] at hl
      exact ih best hbest l hl
    | cons biggest others =>
      rw [hsegs] at hl
      dsimp only at hl ⊢
      split at hl
      next h =>
        rw [if_pos h]
        exact ih best hbest l hl
      next h =>
      rw [if_neg h]
      split at hl
      next h =>
        rw [if_pos h]
        exact ih best hbest l hl
      next hworth =>
      rw [if_neg hworth]
      split at hl
      next h =>
        rw [if_pos h]
        exact hbest l hl
      next h =>
      rw [if_neg h]
      split at hl
      next hbetter =>
        rw [if_pos hbetter]
        apply ih _ _ l hl
        intro l' hl'
        cases hl'
        refine ⟨c, ⟨⟨start, hc.symm⟩, by rw [hsegs]; simp, ?_, ?_⟩, hsegs, rfl⟩
        · intro e he hdel
          rw [hsegs] at he
          cases he
          exact hworth ⟨rfl, hdel⟩
        · intro hhit
          rcases hbetter.2 with h | h
          · rw [hhit] at h
            cases h
          · simpa using h
      next h =>
        rw [if_neg h]
        exact ih best hbest l hl

/-! ## A run of the search -/

/-- The names of the segments of a candidate. -/
def Candidate.names (c : Candidate) : List String := c.segments.map (·.name)

/-- The candidates that the turns take, in order, and the segments that they
leave. -/
inductive Selection (sorted : List SegmentSizeAndDocs) :
    List Candidate → List SegmentSizeAndDocs → Prop
  | start : Selection sorted [] sorted
  | take {taken : List Candidate} {remaining : List SegmentSizeAndDocs} {c : Candidate}
      (h : Selection sorted taken remaining) (hc : IsPick config budget remaining c) :
      Selection sorted (taken ++ [c]) (remaining.filter fun e => e.name ∉ c.names)

/-- The candidates of a run that are proposed.  Of a natural selection one at
most has met the size bound. -/
structure Emitted (sorted : List SegmentSizeAndDocs) (spec : List (List String))
    (emitted : List Candidate) : Prop where
  selection : ∃ taken remaining, Selection config budget sorted taken remaining ∧
    emitted.Sublist taken
  spec_eq : spec = emitted.map Candidate.names
  oneLarge : budget.mergeType = .natural → emitted.countP (·.hitTooLarge) ≤ 1

/-- What a turn does: it ends the search, or it takes the pick out of the
segments that are left and may propose it. -/
theorem searchPass_pick (s : Search) :
    searchPass config budget s = .ok (.inr s.spec) ∨
      ∃ c s', searchPass config budget s = .ok (.inl s') ∧ IsPick config budget s.unmerged c ∧
        s'.unmerged = s.unmerged.filter (fun e => e.name ∉ c.names) ∧
        ((s'.spec = s.spec ∧ s'.haveOneLargeMerge = s.haveOneLargeMerge) ∨
          (s'.spec = s.spec ++ [c.names] ∧
            s'.haveOneLargeMerge = (s.haveOneLargeMerge || c.hitTooLarge) ∧
            (budget.mergeType = .natural → s.haveOneLargeMerge = true →
              c.hitTooLarge = false))) := by
  generalize hx : searchPass config budget s = x
  rw [searchPass] at hx
  dsimp only at hx
  rw [← Search.unmerged] at hx
  split at hx
  · exact .inl hx.symm
  split at hx
  · exact .inl hx.symm
  have hpacked : ∀ l, _ → ∃ c, IsPacked config budget s.unmerged c ∧ _ :=
    bestCandidate_packed config budget (List.range s.unmerged.length)
      ⟨none, 1.0 / 0.0, false⟩ (by intro l hl; simp at hl)
  generalize hbest : bestCandidate config budget _ _ _ = best at hx hpacked
  cases hsome : best.segments with
  | none =>
    simp only [hsome] at hx
    exact .inl hx.symm
  | some l =>
    simp only [hsome] at hx
    obtain ⟨c, hc, rfl, htooLarge⟩ := hpacked l hsome
    have hpick : bestCandidate config budget s.unmerged (List.range s.unmerged.length)
        ⟨none, 1.0 / 0.0, false⟩ = ⟨some c.segments, best.score, c.hitTooLarge⟩ := by
      rw [hbest, htooLarge, ← hsome]
    refine .inr ⟨c, _, hx.symm, ⟨hc, best.score, hpick⟩, ?_, ?_⟩
    · unfold Search.unmerged
      dsimp only
      rw [List.filter_filter, List.filter_filter]
      apply List.filter_congr
      intro e _
      simp only [List.mem_append, not_or, Bool.decide_and]
      unfold Candidate.names
      cases decide (e.name ∉ s.toBeMerged) <;> simp
    · dsimp only
      rw [← htooLarge]
      cases hlarge : s.haveOneLargeMerge <;> cases hhit : c.hitTooLarge <;>
        cases hnat : budget.mergeType <;> simp [Candidate.names]

/-- The search ends with the proposed candidates of a run. -/
theorem doFindMerges_emitted (sorted : List SegmentSizeAndDocs) :
    ∃ spec, doFindMerges config budget sorted = .ok spec ∧
      ∃ emitted, Emitted config budget sorted spec emitted := by
  refine iterate_ok _
    (fun s => ∃ taken emitted : List Candidate, Selection config budget sorted taken s.unmerged ∧
      emitted.Sublist taken ∧ s.spec = emitted.map Candidate.names ∧
      (budget.mergeType = .natural → emitted.countP (·.hitTooLarge) ≤
        if s.haveOneLargeMerge then 1 else 0))
    (fun s => s.unmerged.length) _ ?_ _ _ ?_ (Nat.lt_succ_of_le (List.length_filter_le _ _))
  · intro s ⟨taken, emitted, hsel, hsub, hspec, hlarge⟩
    rcases searchPass_pick config budget s with hend | ⟨c, s', hs', hc, hleft, hpropose⟩
    · refine .inr ⟨_, hend, emitted, ⟨taken, _, hsel, hsub⟩, hspec, ?_⟩
      intro hnat
      have := hlarge hnat
      split at this <;> omega
    · refine .inl ⟨s', hs', ?_, ?_⟩
      · rw [hleft]
        rcases hpropose with ⟨heq, hflag⟩ | ⟨heq, hflag, hone⟩
        · refine ⟨taken ++ [c], emitted, hsel.take hc, ?_, heq.trans hspec, ?_⟩
          · exact hsub.trans (List.sublist_append_left _ _)
          · rw [hflag]
            exact hlarge
        · refine ⟨taken ++ [c], emitted ++ [c], hsel.take hc, hsub.append_right _, ?_, ?_⟩
          · rw [heq, hspec, List.map_append]
            rfl
          · intro hnat
            have hbefore := hlarge hnat
            rw [List.countP_append, hflag]
            cases hl : s.haveOneLargeMerge <;> cases hh : c.hitTooLarge
            all_goals simp [hl, hh] at hbefore ⊢
            · omega
            · omega
            · omega
            · exact absurd (hone hnat hl) (by simp [hh])
      · -- the pick has a segment, and that is not looked at again
        obtain ⟨start, hpacked⟩ := hc.packed
        obtain ⟨l, hl, hsegs⟩ := packCandidate_segments config budget (s.unmerged.drop start) {}
        rw [← hpacked, List.nil_append] at hsegs
        obtain ⟨e, he⟩ := List.exists_mem_of_ne_nil _ hc.nonempty
        rw [hleft]
        apply List.length_filter_lt_length_iff_exists.2
        refine ⟨e, List.drop_subset _ _ (hl.subset (hsegs ▸ he)), ?_⟩
        rw [decide_eq_true_eq, not_not]
        exact List.mem_map_of_mem he
  · have hnil : Search.unmerged ⟨[], [], false, sorted⟩ = sorted := by
      unfold Search.unmerged
      exact List.filter_eq_self.2 fun e _ => by simp
    have hstart : Selection config budget sorted [] (Search.unmerged ⟨[], [], false, sorted⟩) := by
      rw [hnil]
      exact .start
    exact ⟨[], [], hstart, .slnil, rfl, fun _ => Nat.le_refl _⟩

/-- What every candidate of a run is, whatever it is taken from. -/
structure IsGroup (sorted : List SegmentSizeAndDocs) (c : Candidate) : Prop where
  sublist : c.segments.Sublist sorted
  nonempty : c.segments ≠ []
  length : c.segments.length ≤ config.maxMergeAtOnce
  single : ∀ e, c.segments = [e] → e.delCount ≠ 0
  size : c.segments.length = 1 ∨ totalSize c.segments ≤ config.maxMergedSegmentSize.toNat
  notRunning : c.hitTooLarge = true → budget.maxMergeIsRunning = false

theorem IsPick.isGroup {sorted remaining : List SegmentSizeAndDocs} {c : Candidate}
    (hsize : BySize sorted) (hsub : remaining.Sublist sorted)
    (h : IsPick config budget remaining c) : IsGroup config budget sorted c := by
  obtain ⟨start, hpacked⟩ := h.packed
  have hdrop : (remaining.drop start).Sublist sorted := (List.drop_sublist _ _).trans hsub
  obtain ⟨l, hl, hsegs⟩ := packCandidate_segments config budget (remaining.drop start) {}
  obtain ⟨hfits, hlen⟩ := packCandidate_fits config budget (remaining.drop start) {}
    (.empty rfl rfl) (Nat.zero_le _) (hsize.sublist hdrop)
  rw [← hpacked] at hsegs hfits hlen
  rw [List.nil_append] at hsegs
  refine ⟨hsegs ▸ hl.trans hdrop, h.nonempty, hlen, h.single, ?_, h.notRunning⟩
  cases hfits with
  | empty hnil _ => exact absurd hnil h.nonempty
  | single hone _ => exact Or.inl (by rw [hone]; rfl)
  | many _ _ hle => exact Or.inr hle

/-- The candidates of a run are groups, and no two of them share a name. -/
theorem Selection.groups {sorted : List SegmentSizeAndDocs} (hsize : BySize sorted)
    {taken : List Candidate} {remaining : List SegmentSizeAndDocs}
    (h : Selection config budget sorted taken remaining) :
    remaining.Sublist sorted ∧ (∀ c ∈ taken, IsGroup config budget sorted c) ∧
      taken.Pairwise (fun c d => c.names.Disjoint d.names) ∧
      ∀ c ∈ taken, ∀ e ∈ remaining, e.name ∉ c.names := by
  induction h with
  | start => exact ⟨.refl _, by simp, .nil, by simp⟩
  | @take taken remaining c _ hc ih =>
    obtain ⟨hsub, hgroups, hdisjoint, hleft⟩ := ih
    have hgroup : IsGroup config budget remaining c :=
      hc.isGroup config budget (hsize.sublist hsub) (.refl _)
    refine ⟨List.filter_sublist.trans hsub, ?_, ?_, ?_⟩
    · intro d hd
      rcases List.mem_append.1 hd with hd | hd
      · exact hgroups d hd
      · rw [List.mem_singleton.1 hd]
        exact hc.isGroup config budget hsize hsub
    · rw [List.pairwise_append]
      refine ⟨hdisjoint, List.pairwise_singleton _ _, ?_⟩
      intro d hd c' hc' n hn hn'
      rw [List.mem_singleton.1 hc'] at hn'
      obtain ⟨e, he, rfl⟩ := List.mem_map.1 hn'
      exact hleft d hd e (hgroup.sublist.subset he) hn
    · intro d hd e he
      obtain ⟨he, hnot⟩ := List.mem_filter.1 he
      rcases List.mem_append.1 hd with hd | hd
      · exact hleft d hd e he
      · rw [List.mem_singleton.1 hd]
        exact of_decide_eq_true hnot

end

/-! ## The groups -/

/-- A well-formed group of segments: it has some and no more than may be merged
at once, none of them is merging, a single one has deletes, and several are
within the size bound together. -/
def WellFormedGroup (segments : List SegmentStat) (merging : List String)
    (config : MergePolicyConfig) (group : List String) : Prop :=
  ∃ members : List SegmentStat, members.Subperm segments ∧ group = members.map (·.name) ∧
    members ≠ [] ∧ members.length ≤ config.maxMergeAtOnce ∧
    (∀ s ∈ members, s.name ∉ merging) ∧ (∀ s, members = [s] → 0 < s.delCount) ∧
    (members.length = 1 ∨
      (members.map proratedSize).sum ≤ config.maxMergedSegmentSize.toNat)

/-- Well-formed groups, no two of which share a segment. -/
structure WellFormed (segments : List SegmentStat) (merging : List String)
    (config : MergePolicyConfig) (groups : List (List String)) : Prop where
  group : ∀ g ∈ groups, WellFormedGroup segments merging config g
  disjoint : groups.Pairwise List.Disjoint

/-- The pro-rated bytes of the segments that are merging. -/
def mergingSize (segments : List SegmentStat) (merging : List String) : Nat :=
  ((segments.filter fun s => s.name ∈ merging).map proratedSize).sum

/-- The groups are those of a run of the search over segments that may be
merged, with the budget of the call.  Of the candidates that they come from one
at most has met the size bound, and none while segments of that size are
merging. -/
def OneLargeMerge (segments : List SegmentStat) (merging : List String)
    (config : MergePolicyConfig) (groups : List (List String)) : Prop :=
  ∃ budget sorted emitted,
    findMergesExcluding segments merging config = doFindMerges config budget sorted ∧
    sorted.Sublist ((sortedBySegmentSize segments).filter fun e => e.name ∉ merging) ∧
    NaturalBudget config (totals segments merging) budget ∧
    (budget.maxMergeIsRunning = true ↔
      config.maxMergedSegmentSize.toNat ≤ mergingSize segments merging) ∧
    Emitted config budget sorted groups emitted ∧ emitted.countP (·.hitTooLarge) ≤ 1 ∧
    (config.maxMergedSegmentSize.toNat ≤ mergingSize segments merging →
      ∀ c ∈ emitted, c.hitTooLarge = false)

theorem sizeInBytes_eq {segments : List SegmentStat} {e : SegmentSizeAndDocs}
    (h : e ∈ sortedBySegmentSize segments) : e.sizeInBytes = proratedSize e.stat := by
  have hmem := (List.perm_insertionSort (fun a b : SegmentSizeAndDocs => a.le b)
    (segments.map SegmentSizeAndDocs.of)).subset h
  obtain ⟨s, _, rfl⟩ := List.mem_map.1 hmem
  rfl

theorem Emitted.wellFormed {segments : List SegmentStat} {merging : List String}
    {config : MergePolicyConfig} {budget : MergeBudget} {sorted : List SegmentSizeAndDocs}
    {spec : List (List String)} {emitted : List Candidate}
    (hdel : ∀ s ∈ segments, 0 ≤ s.delCount)
    (hsorted : sorted.Sublist ((sortedBySegmentSize segments).filter fun e => e.name ∉ merging))
    (h : Emitted config budget sorted spec emitted) :
    WellFormed segments merging config spec ∧
      ∀ c ∈ emitted, c.hitTooLarge = true → budget.maxMergeIsRunning = false := by
  have hsub : sorted.Sublist (sortedBySegmentSize segments) := hsorted.trans List.filter_sublist
  have hsize : BySize sorted := (sortedBySegmentSize_bySize segments).sublist hsub
  obtain ⟨taken, remaining, hsel, hemitted⟩ := h.selection
  obtain ⟨-, hgroups, hdisjoint, -⟩ := hsel.groups config budget hsize
  refine ⟨⟨?_, ?_⟩, fun c hc => (hgroups c (hemitted.subset hc)).notRunning⟩
  · intro g hg
    rw [h.spec_eq] at hg
    obtain ⟨c, hc, rfl⟩ := List.mem_map.1 hg
    have hgroup := hgroups c (hemitted.subset hc)
    have hmembers : (c.segments.map (·.stat)).Subperm segments :=
      ((hgroup.sublist.trans hsub).map _).subperm.trans
        (map_stat_sortedBySegmentSize segments).subperm
    refine ⟨c.segments.map (·.stat), hmembers, ?_, ?_, ?_, ?_, ?_, ?_⟩
    · rw [List.map_map]
      rfl
    · simpa using hgroup.nonempty
    · rw [List.length_map]
      exact hgroup.length
    · intro s hs
      obtain ⟨e, he, rfl⟩ := List.mem_map.1 hs
      have := (List.mem_filter.1 ((hgroup.sublist.trans hsorted).subset he)).2
      exact of_decide_eq_true this
    · intro s hs
      obtain ⟨e, he, rfl⟩ := List.map_eq_singleton_iff.1 hs
      have hpos := hdel e.stat (hmembers.subset (by rw [hs]; exact List.mem_singleton_self _))
      have hne : e.stat.delCount ≠ 0 := hgroup.single e he
      omega
    · have hsum : (c.segments.map (·.stat)).map proratedSize =
          c.segments.map (·.sizeInBytes) := by
        rw [List.map_map]
        apply List.map_congr_left
        intro e he
        exact (sizeInBytes_eq ((hgroup.sublist.trans hsub).subset he)).symm
      rw [hsum, List.length_map]
      exact hgroup.size
  · rw [h.spec_eq, List.pairwise_map]
    exact hdisjoint.sublist hemitted

theorem totals_mergingBytes (merging : List String) (l : List SegmentSizeAndDocs) :
    ∀ t : Totals, t.mergingBytes ≤ 2 ^ 64 - 1 →
      (l.foldl (Totals.add merging) t).mergingBytes = min (t.mergingBytes +
        totalSize (l.filter fun e => e.name ∈ merging)) (2 ^ 64 - 1) := by
  induction l with
  | nil =>
    intro t ht
    exact (Nat.min_eq_left ht).symm
  | cons e l ih =>
    intro t ht
    have hadd : (Totals.add merging t e).mergingBytes =
        if e.name ∈ merging then min (t.mergingBytes + e.sizeInBytes) (2 ^ 64 - 1)
        else t.mergingBytes := by
      unfold Totals.add
      split <;> rfl
    rw [List.foldl_cons, ih _ (by rw [hadd]; split <;> omega), hadd, List.filter_cons]
    by_cases he : e.name ∈ merging
    · rw [if_pos he, if_pos (decide_eq_true he)]
      have htotal : totalSize (e :: l.filter fun e => e.name ∈ merging) =
          e.sizeInBytes + totalSize (l.filter fun e => e.name ∈ merging) := by
        simp [totalSize]
      rw [htotal]
      omega
    · rw [if_neg he, if_neg (by simpa using he)]

theorem mergingSize_eq (segments : List SegmentStat) (merging : List String) :
    totalSize ((sortedBySegmentSize segments).filter fun e => e.name ∈ merging) =
      mergingSize segments merging := by
  have hperm := (List.perm_insertionSort (fun a b : SegmentSizeAndDocs => a.le b)
    (segments.map SegmentSizeAndDocs.of)).filter fun e => decide (e.name ∈ merging)
  unfold totalSize mergingSize sortedBySegmentSize
  rw [(hperm.map (·.sizeInBytes)).sum_eq, List.filter_map, List.map_map]
  rfl

theorem findMergesExcluding_wellFormed (config : MergePolicyConfig) (segments : List SegmentStat)
    (merging : List String) (hdel : ∀ s ∈ segments, 0 ≤ s.delCount) :
    ∃ groups, findMergesExcluding segments merging config = .ok groups ∧
      WellFormed segments merging config groups ∧
      OneLargeMerge segments merging config groups := by
  have hsearch : ∃ budget eligible,
      findMergesExcluding segments merging config = doFindMerges config budget eligible ∧
      eligible.Sublist ((sortedBySegmentSize segments).filter fun e => e.name ∉ merging) ∧
      NaturalBudget config (totals segments merging) budget := by
    rcases findMergesExcluding_cases segments merging config with h | h
    · -- without a segment to merge there is nothing to search
      exact ⟨⟨_, 0, 0, _, .natural, _⟩, [], h, List.nil_sublist _, ⟨rfl, rfl, rfl, rfl⟩⟩
    · exact h
  obtain ⟨budget, eligible, h, hsub, hbudget⟩ := hsearch
  have hrunning : budget.maxMergeIsRunning = true ↔
      config.maxMergedSegmentSize.toNat ≤ mergingSize segments merging := by
    have hmax := config.maxMergedSegmentSize.isLt
    rw [hbudget.maxMergeIsRunning, decide_eq_true_eq, totals,
      totals_mergingBytes merging _ _ (Nat.zero_le _), mergingSize_eq]
    dsimp only
    omega
  obtain ⟨spec, hspec, emitted, hemitted⟩ := doFindMerges_emitted config budget eligible
  obtain ⟨hwell, hlarge⟩ := hemitted.wellFormed hdel hsub
  refine ⟨spec, h.trans hspec, hwell, budget, eligible, emitted, h, hsub, hbudget, hrunning,
    hemitted, hemitted.oneLarge hbudget.mergeType, ?_⟩
  intro hle c hc
  cases hhit : c.hitTooLarge with
  | false => rfl
  | true => exact absurd ((hlarge c hc hhit).symm.trans (hrunning.2 hle)) Bool.false_ne_true

theorem findForcedDeleteMergesExcluding_wellFormed (config : MergePolicyConfig)
    (segments : List SegmentStat) (merging : List String)
    (hdel : ∀ s ∈ segments, 0 ≤ s.delCount) :
    ∃ groups, findForcedDeleteMergesExcluding segments merging config = .ok groups ∧
      WellFormed segments merging config groups := by
  unfold findForcedDeleteMergesExcluding
  split
  · obtain ⟨spec, hspec, emitted, hemitted⟩ := doFindMerges_emitted config _ _
    refine ⟨spec, hspec, (hemitted.wellFormed hdel ?_).1⟩
    apply List.monotone_filter_right
    intro e he
    exact (Bool.and_eq_true_iff.1 he).1
  · exact ⟨[], rfl, by simp, .nil⟩

/-- Three segments, one of them with deletes. -/
def sampleStats : List SegmentStat :=
  [⟨"_0", 100, 40, 5000#64⟩, ⟨"_1", 10, 0, 700#64⟩, ⟨"_2", 10, 0, 600#64⟩]

end LuceneRust.Index.MergePolicy
