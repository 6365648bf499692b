import LuceneRust.Util.Automata.RunAutomaton
import LuceneRust.Util.Automata.AutomatonSpec

/-!
# The run table and its classes

* `IsClass points c i` says that `c` is in the class `i`.  The class map and
  `get_char_class` both find it.
* `fillRow_getElem` is the pass over the points of one state.
* `edge_class_iff` is the reason why classes work: no transition starts or
  ends inside of one.
* `InBounds` is what keeps a run in bounds, for any labels, and `Tabulates`
  is what makes it right, for code points.
-/

namespace LuceneRust.Util.Automata

open RustSem

variable {a : Automaton} {points : List Int} {c p : Int} {q d i j n : Nat} {ts : List Transition}
  {t : Transition}

/-! ## Start points -/

attribute [local simp] dedup advance fillFrom fillClassmap

theorem mem_dedup {x : Int} : ∀ {ps : List Int}, x ∈ dedup ps ↔ x ∈ ps
  | [] => Iff.rfl
  | [p] => Iff.rfl
  | p :: p' :: ps => by
    rw [dedup]
    by_cases h : p = p'
    · rw [if_pos h, mem_dedup, h]
      simp
    · rw [if_neg h, List.mem_cons, mem_dedup]
      simp

/-- The points that remain are strictly increasing. -/
theorem dedup_pairwise : ∀ {ps : List Int}, ps.Pairwise (· ≤ ·) → (dedup ps).Pairwise (· < ·)
  | [], _ => List.Pairwise.nil
  | [p], _ => List.pairwise_singleton _ p
  | p :: p' :: ps, h => by
    rw [List.pairwise_cons] at h
    rw [dedup]
    by_cases heq : p = p'
    · rw [if_pos heq]
      exact dedup_pairwise h.2
    · rw [if_neg heq, List.pairwise_cons]
      refine ⟨?_, dedup_pairwise h.2⟩
      intro x hx
      rw [mem_dedup] at hx
      have hp' := h.1 p' List.mem_cons_self
      rcases List.mem_cons.1 hx with rfl | hx
      · omega
      · have := (List.pairwise_cons.1 h.2).1 x hx
        omega

theorem getStartPoints_pairwise (a : Automaton) : a.getStartPoints.Pairwise (· < ·) :=
  dedup_pairwise (List.pairwise_insertionSort _ _)

theorem mem_getStartPoints :
    p ∈ a.getStartPoints ↔ p = MIN_CODE_POINT ∨ ∃ ts ∈ a.transitions, ∃ t ∈ ts, p ∈ startPoints t := by
  unfold Automaton.getStartPoints
  rw [mem_dedup, List.mem_insertionSort, List.mem_cons]
  simp only [List.mem_flatMap]

theorem Automaton.mem_row (ht : t ∈ a.row q) : a.row q ∈ a.transitions := by
  unfold Automaton.row at ht ⊢
  rcases Nat.lt_or_ge q a.transitions.length with hq | hq
  · rw [List.getD_eq_getElem _ _ hq]
    exact List.getElem_mem hq
  · rw [List.getD_eq_default _ _ hq] at ht
    cases ht

theorem min_mem_getStartPoints (ht : t ∈ a.row q) : t.min ∈ a.getStartPoints := by
  rw [mem_getStartPoints]
  refine .inr ⟨_, a.mem_row ht, t, ht, ?_⟩
  unfold startPoints
  split <;> simp

theorem end_mem_getStartPoints (ht : t ∈ a.row q) (hmax : t.max < MAX_CODE_POINT) :
    t.max + 1 ∈ a.getStartPoints := by
  rw [mem_getStartPoints]
  refine .inr ⟨_, a.mem_row ht, t, ht, ?_⟩
  unfold startPoints
  rw [if_pos hmax]
  simp

theorem getStartPoints_length : 0 < a.getStartPoints.length :=
  List.length_pos_of_mem (mem_getStartPoints.2 (.inl rfl))

/-- No transition has a negative label.  An interval may be empty, as the
one on `256..=255` is. -/
def NoNegativeLabel (a : Automaton) : Prop :=
  ∀ q, ∀ t ∈ a.row q, 0 ≤ t.min ∧ -1 ≤ t.max

/-- The first point is `0`, as long as labels are not negative. -/
theorem getStartPoints_nonneg (hlabels : NoNegativeLabel a) (hp : p ∈ a.getStartPoints) :
    0 ≤ p := by
  rcases mem_getStartPoints.1 hp with rfl | ⟨ts, hts, t, ht, hp⟩
  · exact le_refl _
  · rcases List.mem_iff_getElem.1 hts with ⟨q, hq, rfl⟩
    have hrow : a.row q = a.transitions[q] := List.getD_eq_getElem _ _ hq
    rcases hlabels q t (by rw [hrow]; exact ht) with ⟨hmin, hmax⟩
    unfold startPoints at hp
    split at hp
    · rcases List.mem_cons.1 hp with rfl | hp
      · exact hmin
      · rw [List.mem_singleton] at hp
        omega
    · rw [List.mem_singleton] at hp
      omega

/-! ## Classes -/

/-- The point `i` is the last one that is not behind `c`. -/
structure IsClass (points : List Int) (c : Int) (i : Nat) : Prop where
  le : ∃ p, points[i]? = some p ∧ p ≤ c
  lt : ∀ j p, i < j → points[j]? = some p → c < p

theorem IsClass.lt_length (h : IsClass points c i) : i < points.length := by
  rcases h.le with ⟨p, hp, -⟩
  exact (List.getElem?_eq_some_iff.1 hp).1

/-- A class is found between two neighbouring points. -/
theorem isClass_of_next (hsorted : points.Pairwise (· < ·)) (hp : points[i]? = some p) (hle : p ≤ c)
    (hnext : ∀ p', points[i + 1]? = some p' → c < p') : IsClass points c i := by
  refine ⟨⟨p, hp, hle⟩, ?_⟩
  intro j p' hij hp'
  rcases List.getElem?_eq_some_iff.1 hp' with ⟨hj, rfl⟩
  have hi1 : i + 1 < points.length := by omega
  have hlt := hnext _ (List.getElem?_eq_getElem hi1)
  rcases Nat.eq_or_lt_of_le (Nat.succ_le_of_lt hij) with heq | hlt'
  · simpa [← heq] using hlt
  · have := List.pairwise_iff_getElem.1 hsorted (i + 1) j hi1 hj hlt'
    omega

/-- The binary search stays among the points, and finds the class of a label
that is not in front of all of them. -/
theorem charClassLoop_spec (run : RunAutomaton) (hsorted : run.points.Pairwise (· < ·)) :
    ∀ fuel lo hi, lo < hi → hi ≤ run.points.length → hi - lo ≤ fuel →
      run.charClassLoop c fuel lo hi < run.points.length ∧
      ((∃ p, run.points[lo]? = some p ∧ p ≤ c) → (∀ p, run.points[hi]? = some p → c < p) →
        IsClass run.points c (run.charClassLoop c fuel lo hi)) := by
  intro fuel
  induction fuel with
  | zero =>
    intro lo hi hlt hlen hfuel
    omega
  | succ fuel ih =>
    intro lo hi hlt hlen hfuel
    rw [RunAutomaton.charClassLoop]
    by_cases hgap : hi - lo > 1
    · rw [if_pos hgap]
      have hd : lo < (lo + hi) / 2 ∧ (lo + hi) / 2 < hi := by omega
      generalize (lo + hi) / 2 = d at hd
      have hget : run.points[d]? = some (run.points.getD d 0) := by
        rw [List.getElem?_eq_getElem (by omega), List.getD_eq_getElem _ _ (by omega)]
      dsimp only
      generalize run.points.getD d 0 = p at hget
      by_cases hgt : p > c
      · rw [if_pos hgt]
        rcases ih lo d hd.1 (by omega) (by omega) with ⟨hin, hclass⟩
        refine ⟨hin, ?_⟩
        intro hlo _
        apply hclass hlo
        intro p' hp'
        rw [hget, Option.some.injEq] at hp'
        omega
      · rw [if_neg hgt]
        by_cases hlt' : p < c
        · rw [if_pos hlt']
          rcases ih d hi hd.2 hlen (by omega) with ⟨hin, hclass⟩
          exact ⟨hin, fun _ hhi => hclass ⟨p, hget, by omega⟩ hhi⟩
        · rw [if_neg hlt']
          refine ⟨by omega, ?_⟩
          intro _ _
          apply isClass_of_next hsorted hget (by omega)
          intro p' hp'
          rcases List.getElem?_eq_some_iff.1 hget with ⟨hdl, hp⟩
          rcases List.getElem?_eq_some_iff.1 hp' with ⟨hdl', hp'⟩
          have := List.pairwise_iff_getElem.1 hsorted d (d + 1) hdl hdl' (by omega)
          omega
    · rw [if_neg hgap]
      refine ⟨by omega, ?_⟩
      intro ⟨p, hp, hle⟩ hhi
      apply isClass_of_next hsorted hp hle
      intro p' hp'
      exact hhi p' (by rw [show hi = lo + 1 by omega]; exact hp')

/-- Points that increase from `0` are at least as large as their number. -/
theorem le_getElem (hsorted : points.Pairwise (· < ·)) (hnonneg : ∀ p ∈ points, 0 ≤ p) :
    ∀ (i : Nat) (p : Int), points[i]? = some p → (i : Int) ≤ p := by
  intro i
  induction i with
  | zero =>
    intro p hp
    exact hnonneg p (List.mem_of_getElem? hp)
  | succ i ih =>
    intro p hp
    rcases List.getElem?_eq_some_iff.1 hp with ⟨hlt, rfl⟩
    have hprev := ih points[i] (List.getElem?_eq_getElem (by omega))
    have := List.pairwise_iff_getElem.1 hsorted i (i + 1) (by omega) hlt (by omega)
    omega

/-- The class map from the label `j` on, when the class of the label in front
of it is known. -/
theorem fillClassmap_spec (hsorted : points.Pairwise (· < ·)) (hnonneg : ∀ p ∈ points, 0 ≤ p) :
    ∀ (m i j : Nat), j + m ≤ 256 → (∃ p, points[i]? = some p ∧ p ≤ j) →
      (∀ k p, i < k → points[k]? = some p → (j : Int) ≤ p) →
      ∃ classes, fillClassmap points i (List.range' j m) = .ok classes ∧ classes.length = m ∧
        ∀ (k cls : Nat), classes[k]? = some cls → IsClass points ((j + k : Nat) : Int) cls := by
  intro m
  induction m with
  | zero =>
    intro i j _ _ _
    exact ⟨[], rfl, rfl, by simp⟩
  | succ m ih =>
    intro i j hm hle hlater
    rw [List.range'_succ, fillClassmap]
    -- the class of `j` is the one so far, or the next one, which starts at `j`
    have hclass : ∃ i', (if i + 1 < points.length ∧ points[i + 1]? = some (j : Int) then i + 1
        else i) = i' ∧ IsClass points j i' := by
      by_cases hnext : i + 1 < points.length ∧ points[i + 1]? = some (j : Int)
      · rw [if_pos hnext]
        refine ⟨_, rfl, isClass_of_next hsorted hnext.2 (le_refl _) ?_⟩
        intro p hp
        rcases List.getElem?_eq_some_iff.1 hnext.2 with ⟨h1, hget1⟩
        rcases List.getElem?_eq_some_iff.1 hp with ⟨h2, hget2⟩
        have := List.pairwise_iff_getElem.1 hsorted (i + 1) (i + 1 + 1) h1 h2 (by omega)
        omega
      · rw [if_neg hnext]
        rcases hle with ⟨p, hp, hpj⟩
        refine ⟨_, rfl, isClass_of_next hsorted hp hpj ?_⟩
        intro p' hp'
        have hge := hlater (i + 1) p' (by omega) hp'
        have hne : p' ≠ j := by
          intro heq
          rw [heq] at hp'
          exact hnext ⟨(List.getElem?_eq_some_iff.1 hp').1, hp'⟩
        omega
    rcases hclass with ⟨i', hi', hclass⟩
    rw [hi']
    have hbound : i' < 256 := by
      rcases hclass.le with ⟨p, hp, hpj⟩
      have := le_getElem hsorted hnonneg i' p hp
      omega
    rw [guardOk_pos hbound, ok_bind]
    have hle' : ∃ p, points[i']? = some p ∧ p ≤ ((j + 1 : Nat) : Int) := by
      rcases hclass.le with ⟨p, hp, hpj⟩
      exact ⟨p, hp, by omega⟩
    have hlater' : ∀ k p, i' < k → points[k]? = some p → ((j + 1 : Nat) : Int) ≤ p := by
      intro k p hk hp
      have := hclass.lt k p hk hp
      omega
    rcases ih i' (j + 1) (by omega) hle' hlater' with ⟨classes, hrun, hlen, hall⟩
    rw [hrun, ok_bind]
    refine ⟨i' :: classes, rfl, by rw [List.length_cons, hlen], ?_⟩
    intro k cls hk
    cases k with
    | zero =>
      rw [List.getElem?_cons_zero, Option.some.injEq] at hk
      rw [← hk]
      exact hclass
    | succ k =>
      rw [List.getElem?_cons_succ] at hk
      have := hall k cls hk
      rwa [show j + 1 + k = j + (k + 1) by omega] at this

/-- Whatever the points are, the class map holds numbers of points. -/
theorem fillClassmap_lt : ∀ (js : List Nat) (i : Nat) {classes : List Nat}, i < points.length →
    fillClassmap points i js = .ok classes →
    classes.length = js.length ∧ ∀ cls ∈ classes, cls < points.length := by
  intro js
  induction js with
  | nil =>
    intro i classes _ h
    cases h
    exact ⟨rfl, by simp⟩
  | cons j js ih =>
    intro i classes hi h
    rw [fillClassmap] at h
    have hi' : (if i + 1 < points.length ∧ points[i + 1]? = some (j : Int) then i + 1 else i) <
        points.length := by
      split
      · rename_i hnext
        exact hnext.1
      · exact hi
    rcases Outcome.bind_eq_ok.1 h with ⟨_, _, h⟩
    rcases Outcome.bind_eq_ok.1 h with ⟨rest, hrest, h⟩
    cases h
    rcases ih _ hi' hrest with ⟨hlen, hall⟩
    refine ⟨by rw [List.length_cons, List.length_cons, hlen], ?_⟩
    intro cls hcls
    rcases List.mem_cons.1 hcls with rfl | hcls
    · exact hi'
    · exact hall cls hcls

/-! ## The row of a state -/

/-- What `advance` passes by ends in front of `p`. -/
theorem advance_spec : ∀ (left : List Transition) (t : Transition), (t :: left).Pairwise Before →
    ((advance p t left).1 :: (advance p t left).2).Pairwise Before ∧
    (∀ c ≥ p, ∀ d, RowEdge (t :: left) c d ↔
      RowEdge ((advance p t left).1 :: (advance p t left).2) c d) ∧
    ((advance p t left).2 = [] ∨ p ≤ (advance p t left).1.max) := by
  intro left
  induction left with
  | nil =>
    intro t h
    exact ⟨h, fun _ _ _ => Iff.rfl, .inl rfl⟩
  | cons u us ih =>
    intro t h
    rw [advance]
    by_cases hlt : t.max < p
    · rw [if_pos hlt]
      rcases ih u (List.pairwise_cons.1 h).2 with ⟨hsorted, hedge, hend⟩
      refine ⟨hsorted, ?_, hend⟩
      intro c hc d
      rw [← hedge c hc d, rowEdge_cons]
      constructor
      · intro hor
        rcases hor with ⟨_, hcov⟩ | hmem
        · unfold Transition.Covers at hcov
          omega
        · exact hmem
      · exact .inr
    · rw [if_neg hlt]
      exact ⟨h, fun _ _ _ => Iff.rfl, .inr (not_lt.1 hlt)⟩

theorem fillFrom_spec : ∀ (points : List Int) (t : Transition) (left : List Transition),
    (t :: left).Pairwise Before → points.Pairwise (· < ·) →
    ∀ (i : Nat) (p : Int), points[i]? = some p →
      ∃ x, (fillFrom t left points)[i]? = some x ∧
        ∀ d, x = some d ↔ RowEdge (t :: left) p d := by
  intro points
  induction points with
  | nil =>
    intro t left _ _ i p hp
    cases hp
  | cons p₀ points ih =>
    intro t left hsorted hpoints i p hp
    rw [List.pairwise_cons] at hpoints
    rcases advance_spec (p := p₀) left t hsorted with ⟨hsorted', hedge, hend⟩
    rw [fillFrom]
    generalize advance p₀ t left = r at hsorted' hedge hend
    rcases r with ⟨t', left'⟩
    dsimp only at hsorted' hedge hend ⊢
    cases i with
    | zero =>
      rw [List.getElem?_cons_zero, Option.some.injEq] at hp
      subst hp
      rw [List.getElem?_cons_zero]
      refine ⟨_, rfl, ?_⟩
      intro d
      rw [hedge _ (le_refl _) d, rowEdge_cons]
      -- what comes behind `t'` starts behind the point
      have hnone : ¬ RowEdge left' p₀ d := by
        intro ⟨u, hu, _, hcov⟩
        rcases hend with hnil | hmax
        · rw [hnil] at hu
          cases hu
        · have := (List.pairwise_cons.1 hsorted').1 u hu
          unfold Before at this
          unfold Transition.Covers at hcov
          omega
      unfold Transition.Covers
      by_cases hcov : t'.min ≤ p₀ ∧ p₀ ≤ t'.max
      · simp [hcov, hnone]
      · simp [hcov, hnone]
    | succ i =>
      rw [List.getElem?_cons_succ] at hp ⊢
      rcases ih t' left' hsorted' hpoints.2 i p hp with ⟨x, hx, hiff⟩
      refine ⟨x, hx, ?_⟩
      intro d
      rw [hiff]
      have hlt := hpoints.1 p (List.mem_of_getElem? hp)
      exact (hedge p (by omega) d).symm

/-- The entry of a point is the destination on it. -/
theorem fillRow_getElem (hsorted : ts.Pairwise Before) (hpoints : points.Pairwise (· < ·))
    (hp : points[i]? = some p) :
    ∃ x, (fillRow points ts)[i]? = some x ∧ ∀ d, x = some d ↔ RowEdge ts p d := by
  cases ts with
  | nil =>
    refine ⟨none, ?_, ?_⟩
    · unfold fillRow
      rw [List.getElem?_map, hp]
      rfl
    · intro d
      simp [RowEdge]
  | cons t left => exact fillFrom_spec points t left hsorted hpoints i p hp

theorem fillFrom_length : ∀ (points : List Int) (t : Transition) (left : List Transition),
    (fillFrom t left points).length = points.length := by
  intro points
  induction points with
  | nil =>
    intro t left
    rfl
  | cons p points ih =>
    intro t left
    rw [fillFrom, List.length_cons, List.length_cons, ih]

theorem fillRow_length : (fillRow points ts).length = points.length := by
  cases ts with
  | nil => exact List.length_map _
  | cons t left => exact fillFrom_length points t left

/-- The entries are destinations of the row. -/
theorem dest_of_mem_fillRow (h : some d ∈ fillRow points ts) : ∃ t ∈ ts, t.dest = d := by
  have hadvance : ∀ (p : Int) (left : List Transition) (t : Transition),
      ∀ u ∈ (advance p t left).1 :: (advance p t left).2, u ∈ t :: left := by
    intro p left
    induction left with
    | nil =>
      intro t u hu
      exact hu
    | cons u us ih =>
      intro t v hv
      rw [advance] at hv
      split at hv
      · exact List.mem_cons_of_mem t (ih u v hv)
      · exact hv
  have hfill : ∀ (points : List Int) (t : Transition) (left : List Transition),
      some d ∈ fillFrom t left points → ∃ u ∈ t :: left, u.dest = d := by
    intro points
    induction points with
    | nil =>
      intro t left hd
      cases hd
    | cons p points ih =>
      intro t left hd
      rw [fillFrom] at hd
      dsimp only at hd
      rcases List.mem_cons.1 hd with hd | hd
      · split at hd
        · rw [Option.some.injEq] at hd
          exact ⟨_, hadvance p left t _ List.mem_cons_self, hd.symm⟩
        · cases hd
      · rcases ih _ _ hd with ⟨u, hu, hud⟩
        exact ⟨u, hadvance p left t u hu, hud⟩
  cases ts with
  | nil =>
    unfold fillRow at h
    simp at h
  | cons t left => exact hfill points t left h

/-! ## The table -/

theorem flatMap_length {α : Type} {f : Nat → List α} {m : Nat} (hf : ∀ q, (f q).length = m) :
    ((List.range n).flatMap f).length = n * m := by
  induction n with
  | zero => simp
  | succ n ih =>
    rw [List.range_succ, List.flatMap_append, List.length_append, ih, List.flatMap_singleton, hf,
      Nat.succ_mul]

/-- The entry of a table with rows of one length. -/
theorem flatMap_getElem? {α : Type} {f : Nat → List α} {m : Nat} (hf : ∀ q, (f q).length = m)
    (hq : q < n) (hi : i < m) : ((List.range n).flatMap f)[q * m + i]? = (f q)[i]? := by
  induction n with
  | zero => omega
  | succ n ih =>
    rw [List.range_succ, List.flatMap_append, List.flatMap_singleton]
    have hlen : ((List.range n).flatMap f).length = n * m := flatMap_length hf
    rcases Nat.lt_succ_iff_lt_or_eq.1 hq with hq | rfl
    · rw [List.getElem?_append_left]
      · exact ih hq
      · rw [hlen]
        have : (q + 1) * m ≤ n * m := Nat.mul_le_mul_right m hq
        rw [Nat.succ_mul] at this
        omega
    · rw [List.getElem?_append_right (by rw [hlen]; omega), hlen]
      congr 1
      omega

/-- No transition starts or ends inside of a class, so that a label has the
edges of the start of its class. -/
theorem edge_class_iff
    (hclass : IsClass a.getStartPoints c i) (hp : a.getStartPoints[i]? = some p)
    (hc : c ≤ MAX_CODE_POINT) : a.Edge q p d ↔ a.Edge q c d := by
  have hpc : p ≤ c := by
    rcases hclass.le with ⟨p', hp', hle⟩
    rw [hp, Option.some.injEq] at hp'
    omega
  -- a point that is not behind `c` is not behind `p`
  have hlast : ∀ p' ∈ a.getStartPoints, p' ≤ c → p' ≤ p := by
    intro p' hp' hle
    rcases List.mem_iff_getElem?.1 hp' with ⟨j, hj⟩
    rcases List.getElem?_eq_some_iff.1 hj with ⟨hjl, hjg⟩
    rcases List.getElem?_eq_some_iff.1 hp with ⟨hil, hig⟩
    rcases Nat.lt_trichotomy j i with hji | rfl | hij
    · have := List.pairwise_iff_getElem.1 (getStartPoints_pairwise a) j i hjl hil hji
      omega
    · omega
    · have := hclass.lt j p' hij hj
      omega
  constructor
  · intro ⟨t, ht, htd, hlo, hhi⟩
    refine ⟨t, ht, htd, by omega, ?_⟩
    by_contra hgt
    have := hlast _ (end_mem_getStartPoints ht (by omega)) (by omega)
    omega
  · intro ⟨t, ht, htd, hlo, hhi⟩
    have := hlast _ (min_mem_getStartPoints ht) hlo
    exact ⟨t, ht, htd, this, by omega⟩

/-- What the reads of the table rely on. -/
structure InBounds (run : RunAutomaton) : Prop where
  size_pos : 0 < run.size
  accept : run.accept.length = run.size
  transitions : run.transitions.length = run.size * run.stride
  dest_lt : ∀ d, some d ∈ run.transitions → d < run.size
  stride : run.stride = run.points.length
  stride_pos : 0 < run.stride
  sorted : run.points.Pairwise (· < ·)
  classmap : run.classmap.length = 256
  class_lt : ∀ cls ∈ run.classmap, cls < run.stride

theorem new_inBounds (h : Finished a) {k : Int} {run : RunAutomaton}
    (hnew : RunAutomaton.new a k = .ok run) : InBounds run := by
  unfold RunAutomaton.new at hnew
  split at hnew
  · cases hnew
  · dsimp only at hnew
    rcases Outcome.bind_eq_ok.1 hnew with ⟨classmap, hclasses, heq⟩
    cases heq
    rcases fillClassmap_lt _ _ getStartPoints_length hclasses with ⟨hlen, hlt⟩
    exact {
      size_pos := by dsimp only; omega
      accept := by dsimp only; rw [List.length_map, List.length_range]
      transitions := flatMap_length fun q => fillRow_length
      dest_lt := by
        intro d hd
        rcases List.mem_flatMap.1 hd with ⟨q, _, hd⟩
        rcases dest_of_mem_fillRow hd with ⟨t, ht, rfl⟩
        have := h.dest_lt q t ht
        dsimp only
        omega
      stride := rfl
      stride_pos := getStartPoints_length
      sorted := getStartPoints_pairwise a
      classmap := by rw [hlen, List.length_range]
      class_lt := hlt }

/-- The table has the destinations of the automaton. -/
structure Tabulates (a : Automaton) (run : RunAutomaton) : Prop where
  size : run.size = max a.numStates 1
  points : run.points = a.getStartPoints
  nonneg : ∀ p ∈ run.points, 0 ≤ p
  accept : ∀ q < run.size, run.accept[q]? = some (a.isAccept q)
  entry : ∀ q < run.size, ∀ i p, run.points[i]? = some p →
    ∃ x, run.transitions[q * run.stride + i]? = some x ∧ ∀ d, x = some d ↔ a.Edge q p d
  classmap : ∀ b : Nat, b < 256 → ∃ cls, run.classmap[b]? = some cls ∧ IsClass run.points (b : Int) cls

theorem new_tabulates (h : Finished a) (hdet : a.deterministic = true)
    (hlabels : NoNegativeLabel a) (k : Int) :
    ∃ run, RunAutomaton.new a k = .ok run ∧ Tabulates a run := by
  have hsorted := getStartPoints_pairwise a
  have hnonneg : ∀ p ∈ a.getStartPoints, 0 ≤ p := fun p hp => getStartPoints_nonneg hlabels hp
  -- the first point is `0`
  have hfirst : ∃ p, a.getStartPoints[0]? = some p ∧ p ≤ ((0 : Nat) : Int) := by
    have hpos := getStartPoints_length (a := a)
    refine ⟨_, List.getElem?_eq_getElem hpos, ?_⟩
    have hmem : MIN_CODE_POINT ∈ a.getStartPoints := mem_getStartPoints.2 (.inl rfl)
    rcases List.mem_iff_getElem.1 hmem with ⟨j, hj, hget⟩
    rcases Nat.eq_zero_or_pos j with rfl | hjpos
    · rw [hget]
      exact le_refl _
    · have := List.pairwise_iff_getElem.1 hsorted 0 j hpos hj hjpos
      rw [hget] at this
      unfold MIN_CODE_POINT at this
      omega
  have hlater : ∀ k p, 0 < k → a.getStartPoints[k]? = some p → ((0 : Nat) : Int) ≤ p := by
    intro k p _ hp
    exact hnonneg p (List.mem_of_getElem? hp)
  rcases fillClassmap_spec hsorted hnonneg 256 0 0 (by omega) hfirst hlater with
    ⟨classmap, hclasses, hlen, hclass⟩
  rw [← List.range_eq_range'] at hclasses
  have hnew : RunAutomaton.new a k = .ok
      { automaton := a
        alphabetSize := k
        size := max a.numStates 1
        accept := (List.range (max a.numStates 1)).map a.isAccept
        transitions := (List.range (max a.numStates 1)).flatMap fun n =>
          fillRow a.getStartPoints (a.row n)
        points := a.getStartPoints
        stride := a.getStartPoints.length
        classmap := classmap } := by
    unfold RunAutomaton.new
    rw [hdet, if_neg (by simp)]
    dsimp only
    rw [hclasses]
    rfl
  refine ⟨_, hnew, ?_⟩
  refine ⟨rfl, rfl, hnonneg, ?_, ?_, ?_⟩
  · intro q hq
    dsimp only at hq ⊢
    rw [List.getElem?_map, List.getElem?_range hq]
    rfl
  · intro q hq i p hp
    dsimp only at hq hp ⊢
    rw [flatMap_getElem? (fun _ => fillRow_length) hq (List.getElem?_eq_some_iff.1 hp).1]
    exact fillRow_getElem (h.pairwise hdet q) hsorted hp
  · intro b hb
    dsimp only
    have hget := List.getElem?_eq_getElem (show b < classmap.length by omega)
    have hb := hclass b _ hget
    rw [Nat.zero_add] at hb
    exact ⟨_, hget, hb⟩

/-! ## Steps and runs -/

section Calls

variable {run : RunAutomaton}

theorem InBounds.labelClass (h : InBounds run) (c : Int) :
    ∃ cls, run.labelClass c = .ok cls ∧ cls < run.stride := by
  unfold RunAutomaton.labelClass
  by_cases hc : 0 ≤ c ∧ c < 256
  · rw [if_pos hc]
    have hlt : c.toNat < run.classmap.length := by
      rw [h.classmap]
      omega
    rw [List.getElem?_eq_getElem hlt]
    exact ⟨_, rfl, h.class_lt _ (List.getElem_mem hlt)⟩
  · rw [if_neg hc]
    have hpos := h.stride_pos
    rw [h.stride] at hpos ⊢
    exact ⟨_, rfl, (charClassLoop_spec run h.sorted _ 0 _ hpos (le_refl _) (le_refl _)).1⟩

theorem InBounds.entry (h : InBounds run) {cls : Nat} (hq : q < run.size) (hcls : cls < run.stride) :
    ∃ x, run.transitions[q * run.stride + cls]? = some x ∧ ∀ d, x = some d → d < run.size := by
  have hlt : q * run.stride + cls < run.transitions.length := by
    rw [h.transitions]
    have : (q + 1) * run.stride ≤ run.size * run.stride := Nat.mul_le_mul_right _ hq
    rw [Nat.succ_mul] at this
    omega
  refine ⟨_, List.getElem?_eq_getElem hlt, ?_⟩
  intro d hd
  apply h.dest_lt
  rw [← hd]
  exact List.getElem_mem hlt

/-- A run stays in bounds, whatever the labels are. -/
theorem InBounds.runLabels (h : InBounds run) (labels : List Int) :
    ∃ r, run.runLabels labels = .ok r := by
  have hloop : ∀ (labels : List Int) (p : Nat), p < run.size →
      ∃ r, run.runLabelsFrom p labels = .ok r := by
    intro labels
    induction labels with
    | nil =>
      intro p hp
      unfold RunAutomaton.runLabelsFrom RunAutomaton.isAccept
      rw [List.getElem?_eq_getElem (by rw [h.accept]; exact hp)]
      exact ⟨_, rfl⟩
    | cons c labels ih =>
      intro p hp
      rcases h.labelClass c with ⟨cls, hclass, hcls⟩
      rcases h.entry hp hcls with ⟨x, hx, hd⟩
      unfold RunAutomaton.runLabelsFrom
      rw [hclass, ok_bind, hx, expect_some, ok_bind]
      cases x with
      | none => exact ⟨false, rfl⟩
      | some d => exact ih d (hd d rfl)
  exact hloop labels 0 h.size_pos

theorem Tabulates.isClass (h : Tabulates a run) (hb : InBounds run) (hc : 0 ≤ c) :
    ∃ cls, run.labelClass c = .ok cls ∧ IsClass run.points c cls := by
  unfold RunAutomaton.labelClass
  by_cases hsmall : 0 ≤ c ∧ c < 256
  · rw [if_pos hsmall]
    rcases h.classmap c.toNat (by omega) with ⟨cls, hget, hclass⟩
    rw [hget]
    refine ⟨cls, rfl, ?_⟩
    rwa [Int.toNat_of_nonneg hc] at hclass
  · rw [if_neg hsmall]
    have hpos := hb.stride_pos
    rw [hb.stride] at hpos
    refine ⟨_, rfl, ?_⟩
    apply (charClassLoop_spec run hb.sorted _ 0 _ hpos (le_refl _) (le_refl _)).2
    · rcases h.classmap 0 (by omega) with ⟨cls, -, hclass⟩
      rcases hclass.le with ⟨p, hp, hle⟩
      have hget := List.getElem?_eq_getElem hpos
      refine ⟨_, hget, ?_⟩
      rcases List.getElem?_eq_some_iff.1 hp with ⟨hcl, rfl⟩
      rcases Nat.eq_zero_or_pos cls with rfl | hcpos
      · omega
      · have := List.pairwise_iff_getElem.1 hb.sorted 0 cls hpos hcl hcpos
        omega
    · intro p hp
      rw [List.getElem?_eq_none (le_refl _)] at hp
      cases hp

/-- The entry of the class of a label is the destination on the label. -/
theorem Tabulates.entry_class (h : Tabulates a run) (hfin : Finished a)
    (hdet : a.deterministic = true) {cls : Nat} (hq : q < run.size)
    (hclass : IsClass run.points c cls) (hc : c ≤ MAX_CODE_POINT) :
    run.transitions[q * run.stride + cls]? = some (a.step q c) := by
  rcases hclass.le with ⟨p, hp, -⟩
  rcases h.entry q hq cls p hp with ⟨x, hx, hiff⟩
  rw [hx]
  congr 1
  apply Option.ext
  intro d
  rw [h.points] at hclass hp
  rw [hfin.step_eq_some hdet, ← edge_class_iff hclass hp hc]
  exact hiff d

/-- `step`. -/
theorem Tabulates.step (h : Tabulates a run) (hb : InBounds run) (hfin : Finished a)
    (hdet : a.deterministic = true) (hq : q < run.size) (hlo : 0 ≤ c) (hhi : c ≤ MAX_CODE_POINT) :
    run.step q c = .ok (a.step q c) := by
  rcases h.isClass hb hlo with ⟨cls, hrun, hclass⟩
  unfold RunAutomaton.step
  rw [hrun, ok_bind, h.entry_class hfin hdet hq hclass hhi]
  rfl

theorem byte_le_max {b : Nat} (hb : b < 256) : (b : Int) ≤ MAX_CODE_POINT := by
  unfold MAX_CODE_POINT
  omega

/-- `step_byte`. -/
theorem Tabulates.stepByte (h : Tabulates a run) (hfin : Finished a)
    (hdet : a.deterministic = true) (hq : q < run.size) (b : U8) :
    run.stepByte q b = .ok (a.step q (b.toNat : Int)) := by
  rcases h.classmap b.toNat b.isLt with ⟨cls, hget, hclass⟩
  unfold RunAutomaton.stepByte
  rw [hget, expect_some, ok_bind,
    h.entry_class hfin hdet hq hclass (byte_le_max b.isLt)]
  rfl

theorem step_lt (hfin : Finished a) (hdet : a.deterministic = true) (h : Tabulates a run)
    (hd : a.step q c = some d) : d < run.size := by
  have := (hfin.edge_lt ((hfin.step_eq_some hdet).1 hd)).2
  rw [h.size]
  omega

theorem accepts_step (hfin : Finished a) (hdet : a.deterministic = true) {s : List Int} :
    NfaPaths.Accepts a.nfa q (c :: s) ↔ ∃ d, a.step q c = some d ∧ NfaPaths.Accepts a.nfa d s := by
  rw [NfaPaths.accepts_cons]
  simp only [hfin.step_eq_some hdet]
  rfl

/-- `run_labels` on code points. -/
theorem Tabulates.runLabels (h : Tabulates a run) (hb : InBounds run) (hfin : Finished a)
    (hdet : a.deterministic = true) {s : List Int} (hs : ∀ c ∈ s, 0 ≤ c ∧ c ≤ MAX_CODE_POINT) :
    ∃ r, run.runLabels s = .ok r ∧ (r = true ↔ a.Accepts s) := by
  have hloop : ∀ (s : List Int) (p : Nat), p < run.size →
      (∀ c ∈ s, 0 ≤ c ∧ c ≤ MAX_CODE_POINT) →
      ∃ r, run.runLabelsFrom p s = .ok r ∧ (r = true ↔ NfaPaths.Accepts a.nfa p s) := by
    intro s
    induction s with
    | nil =>
      intro p hp _
      unfold RunAutomaton.runLabelsFrom RunAutomaton.isAccept
      rw [h.accept p hp]
      exact ⟨_, rfl, by rw [NfaPaths.accepts_nil, mem_nfa_accept]⟩
    | cons c s ih =>
      intro p hp hs
      have hc := hs c List.mem_cons_self
      rcases h.isClass hb hc.1 with ⟨cls, hrun, hclass⟩
      unfold RunAutomaton.runLabelsFrom
      rw [hrun, ok_bind, h.entry_class hfin hdet hp hclass hc.2, expect_some,
        ok_bind, accepts_step hfin hdet]
      cases hd : a.step p c with
      | none => exact ⟨false, rfl, by simp⟩
      | some d =>
        rcases ih d (step_lt hfin hdet h hd) (fun c hc => hs c (List.mem_cons_of_mem _ hc)) with
          ⟨r, hr, hiff⟩
        exact ⟨r, hr, by simpa using hiff⟩
  rw [accepts_iff]
  exact hloop s 0 hb.size_pos hs

/-- `run_bytes` is `run_labels` on bytes. -/
theorem runBytes_eq (s : List U8) :
    run.runBytes s = run.runLabels (s.map fun b => (b.toNat : Int)) := by
  have hloop : ∀ (s : List U8) (p : Nat),
      run.runBytesFrom p s = run.runLabelsFrom p (s.map fun b => (b.toNat : Int)) := by
    intro s
    induction s with
    | nil =>
      intro p
      rfl
    | cons b s ih =>
      intro p
      have hbyte : 0 ≤ (b.toNat : Int) ∧ (b.toNat : Int) < 256 := by
        have := b.isLt
        omega
      rw [List.map_cons, RunAutomaton.runBytesFrom, RunAutomaton.runLabelsFrom,
        RunAutomaton.labelClass, if_pos hbyte, Int.toNat_natCast]
      congr 1
      funext cls
      congr 1
      funext x
      cases x with
      | none => rfl
      | some d => exact ih d
  exact hloop s 0

end Calls

end LuceneRust.Util.Automata
