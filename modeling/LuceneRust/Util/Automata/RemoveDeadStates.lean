import LuceneRust.Util.Automata.LiveStates

/-!
# What `remove_dead_states` keeps

The live states are copied in order, so that a live state becomes the one
whose number is its rank among them (`rank`), and the transitions between
them are copied with them (`liveLog`).

`removeDeadStates_spec` says that the language stays, and with it
determinism and the range of the labels.
-/

namespace LuceneRust.Util.Automata

open RustSem DepthFirst

variable {a : Automaton} {live : List Bool} {q d : Nat}

/-- The number of live states below `q`. -/
def rank (live : List Bool) (q : Nat) : Nat :=
  ((List.range q).filter (live.getD · false)).length

theorem rank_succ : rank live (q + 1) = rank live q + if live.getD q false then 1 else 0 := by
  unfold rank
  rw [List.range_succ, List.filter_append, List.length_append, List.filter_singleton]
  cases live.getD q false <;> rfl

theorem rank_mono (h : q ≤ d) : rank live q ≤ rank live d := by
  induction h with
  | refl => exact le_refl _
  | step _ ih =>
    rw [rank_succ]
    omega

theorem rank_lt (h : q < d) (hq : live.getD q false = true) : rank live q < rank live d := by
  have hmono : rank live (q + 1) ≤ rank live d := rank_mono h
  rw [rank_succ, if_pos hq] at hmono
  omega

theorem rank_inj (hq : live.getD q false = true) (hd : live.getD d false = true)
    (h : rank live q = rank live d) : q = d := by
  rcases Nat.lt_trichotomy q d with hlt | heq | hlt
  · have := rank_lt hlt hq
    omega
  · exact heq
  · have := rank_lt hlt hd
    omega

/-! ## The copies of the states -/

/-- The loop has copied the live states below `n`. -/
theorem foldlM_copyLiveStates (a : Automaton) (live : List Bool) :
    ∀ n ≤ a.numStates, ∃ result map, (List.range n).foldlM
    (fun (s : Automaton × List Nat) i =>
      if live.getD i false then do
        let (result, ns) := s.1.createState
        let result ← result.setAccept ns (a.isAccept i)
        pure (result, s.2.set i ns)
      else pure (s.1, s.2))
    (Automaton.empty, List.replicate a.numStates 0) =
      (.ok (result, map) : Result (Automaton × List Nat)) ∧
    Built result [] ∧ result.curState = none ∧ result.numStates = rank live n ∧
    map.length = a.numStates ∧
    ∀ q < n, live.getD q false = true →
      map.getD q 0 = rank live q ∧ result.isAccept (rank live q) = a.isAccept q := by
  intro n
  induction n with
  | zero =>
    intro _
    refine ⟨_, _, rfl, .empty, rfl, rfl, List.length_replicate, ?_⟩
    intro q hq
    exact absurd hq (Nat.not_lt_zero q)
  | succ n ih =>
    intro hn
    rcases ih (by omega) with ⟨result, map, hrun, hbuilt, hcur, hlen, hmap, hstates⟩
    simp only [List.range_succ, List.foldlM_append, hrun, ok_bind, List.foldlM_cons,
      List.foldlM_nil]
    by_cases hlive : live.getD n false = true
    · rw [if_pos hlive]
      have hlt : result.numStates < result.createState.1.numStates := by
        rw [Automaton.numStates_createState]
        omega
      rcases hbuilt.createState.setAccept hlt (a.isAccept n) with
        ⟨result', hset, hbuilt', hlen', hcur', hacc⟩
      rw [Automaton.createState_snd, hset]
      refine ⟨result', map.set n result.numStates, rfl, hbuilt', ?_, ?_, ?_, ?_⟩
      · rw [hcur', Automaton.curState_createState, hcur]
      · rw [hlen', Automaton.numStates_createState, hlen, rank_succ, if_pos hlive]
      · rw [List.length_set, hmap]
      · intro q hq hqlive
        rw [hacc, Automaton.isAccept_createState, hlen, List.getD_eq_getElem?_getD,
          List.getElem?_set]
        by_cases hqn : n = q
        · subst hqn
          simp [hmap, show n < a.numStates by omega]
        · have hqlt : q < n := by omega
          rcases hstates q hqlt hqlive with ⟨hget, haccept⟩
          have hrank := rank_lt hqlt hqlive
          rw [if_neg hqn, if_neg (by omega), ← List.getD_eq_getElem?_getD]
          exact ⟨hget, haccept⟩
    · rw [if_neg hlive]
      refine ⟨result, map, rfl, hbuilt, hcur, ?_, hmap, ?_⟩
      · rw [hlen, rank_succ, if_neg hlive, Nat.add_zero]
      · intro q hq hqlive
        have hqn : q ≠ n := by
          intro heq
          rw [heq] at hqlive
          exact hlive hqlive
        exact hstates q (by omega) hqlive

/-- The first loop: a state for each live state, with its accept flag. -/
theorem copyLiveStates_spec (a : Automaton) (live : List Bool) :
    ∃ result map, copyLiveStates a live = .ok (result, map) ∧ Built result [] ∧
      result.curState = none ∧ result.numStates = rank live a.numStates ∧
      ∀ q < a.numStates, live.getD q false = true →
        map.getD q 0 = rank live q ∧ result.isAccept (rank live q) = a.isAccept q := by
  unfold copyLiveStates
  rcases foldlM_copyLiveStates a live a.numStates (le_refl _) with ⟨result, map, hrun, hbuilt, hcur, hlen, -, hstates⟩
  exact ⟨result, map, hrun, hbuilt, hcur, hlen, hstates⟩

/-! ## The copies of the transitions -/

/-- A transition between live states, with the new numbers. -/
def liveTransition (live : List Bool) (q : Nat) (t : Transition) : Nat × Transition :=
  (rank live q, { t with dest := rank live t.dest })

/-- The transitions between live states, with the new numbers. -/
def liveLog (a : Automaton) (live : List Bool) : List (Nat × Transition) :=
  ((List.range a.numStates).filter (live.getD · false)).flatMap fun q =>
    ((a.row q).filter fun t => live.getD t.dest false).map (liveTransition live q)

theorem mem_liveLog {e : Nat × Transition} :
    e ∈ liveLog a live ↔ ∃ q < a.numStates, live.getD q false = true ∧
      ∃ t ∈ a.row q, live.getD t.dest false = true ∧ e = liveTransition live q t := by
  unfold liveLog
  simp only [List.mem_flatMap, List.mem_filter, List.mem_range, List.mem_map]
  constructor
  · intro ⟨q, ⟨hq, hlive⟩, t, ⟨ht, hd⟩, he⟩
    exact ⟨q, hq, hlive, t, ht, hd, he.symm⟩
  · intro ⟨q, hq, hlive, t, ht, hd, he⟩
    exact ⟨q, ⟨hq, hlive⟩, t, ⟨ht, hd⟩, he.symm⟩

/-- A loop in a loop is one loop. -/
theorem foldlM_flatMap {ε σ α β : Type} {f : σ → β → Outcome ε σ} {g : α → List β} {l : List α} :
    ∀ {s : σ}, (l.flatMap g).foldlM f s = l.foldlM (fun s x => (g x).foldlM f s) s := by
  induction l with
  | nil =>
    intro s
    rfl
  | cons x l ih =>
    intro s
    rw [List.flatMap_cons, List.foldlM_append, List.foldlM_cons]
    simp only [ih]

theorem foldlM_congr {ε σ α : Type} {f g : σ → α → Outcome ε σ} {l : List α}
    (h : ∀ x ∈ l, ∀ s, f s x = g s x) : ∀ {s : σ}, l.foldlM f s = l.foldlM g s := by
  induction l with
  | nil =>
    intro s
    rfl
  | cons x l ih =>
    intro s
    rw [List.foldlM_cons, List.foldlM_cons, h x List.mem_cons_self]
    congr 1
    funext s'
    exact ih fun y hy => h y (List.mem_cons_of_mem _ hy)

theorem liveLog_sorted : (liveLog a live).Pairwise fun e f => e.1 ≤ f.1 := by
  unfold liveLog
  rw [List.pairwise_flatMap]
  constructor
  · intro q _
    rw [List.pairwise_map]
    exact List.pairwise_of_forall fun _ _ => le_refl _
  · apply List.Pairwise.filter
    apply List.Pairwise.imp _ List.pairwise_lt_range
    intro q d hqd e he f hf
    rcases List.mem_map.1 he with ⟨t, -, rfl⟩
    rcases List.mem_map.1 hf with ⟨u, -, rfl⟩
    exact rank_mono hqd.le

/-- `remove_dead_states` when there is a dead state. -/
theorem copyLive_spec (h : Finished a)
    (hlive : ∀ q, live.getD q false = true ↔ a.Live q) (hdead : live.all id = false)
    (hrun : getLiveStates a = .ok live) :
    ∃ b, removeDeadStates a = .ok b ∧ Built b (liveLog a live) ∧ b.curState = none ∧
      b.numStates = rank live a.numStates ∧
      ∀ q, a.Live q → b.isAccept (rank live q) = a.isAccept q := by
  rcases copyLiveStates_spec a live with ⟨result, map, hcopy, hbuilt, hcur, hstates, hmap⟩
  have hmap' : ∀ q, a.Live q → map.getD q 0 = rank live q := by
    intro q hq
    exact (hmap q (h.lt_of_live hq) ((hlive q).2 hq)).1
  have hloop : (List.range a.numStates).foldlM
      (fun result i =>
        if live.getD i false then
          (a.row i).foldlM
            (fun result t =>
              if live.getD t.dest false then
                result.addTransition (map.getD i 0) (map.getD t.dest 0) t.min t.max
              else pure result)
            result
        else pure result) result =
      (liveLog a live).foldlM (fun a e => a.addTransition e.1 e.2.dest e.2.min e.2.max) result := by
    unfold liveLog
    rw [foldlM_flatMap, List.foldlM_filter]
    apply foldlM_congr
    intro q _ s
    by_cases hq : live.getD q false = true
    · rw [if_pos hq, if_pos hq, List.foldlM_map, List.foldlM_filter]
      apply foldlM_congr
      intro t _ s'
      by_cases ht : live.getD t.dest false = true
      · rw [if_pos ht, if_pos ht, hmap' q ((hlive q).1 hq), hmap' t.dest ((hlive _).1 ht)]
        rfl
      · rw [if_neg ht, if_neg ht]
    · rw [if_neg hq, if_neg hq]
  have hlt : ∀ e ∈ liveLog a live, e.1 < result.numStates ∧ e.2.dest < result.numStates := by
    intro e he
    rcases mem_liveLog.1 he with ⟨q, hq, hql, t, ht, htl, rfl⟩
    rw [hstates]
    exact ⟨rank_lt hq hql, rank_lt (h.dest_lt q t ht) htl⟩
  rcases hbuilt.addTransition_foldlM liveLog_sorted (fun e _ => .inl rfl) hlt with
    ⟨b, hb, hbuilt', hn, hacc⟩
  rcases hbuilt'.finishState with ⟨hfin, hcur', hn', hacc'⟩
  refine ⟨b.finishState, ?_, hfin, hcur', ?_, ?_⟩
  · unfold removeDeadStates
    rw [hrun, ok_bind, hdead, if_neg (by simp), hcopy, ok_bind]
    dsimp only
    rw [hloop, hb]
    rfl
  · rw [hn', hn, hstates]
  · intro q hq
    unfold Automaton.isAccept
    rw [hacc', hacc]
    exact (hmap q (h.lt_of_live hq) ((hlive q).2 hq)).2

/-! ## The language -/

/-- What `remove_dead_states` returns. -/
theorem removeDeadStates_spec (h : Finished a) :
    ∃ b, removeDeadStates a = .ok b ∧ Finished b ∧ (∀ s, b.Accepts s ↔ a.Accepts s) ∧
      ∀ lo hi, LabelsIn lo hi a → LabelsIn lo hi b ∧ (a.deterministic = true → b.deterministic = true) := by
  rcases getLiveStates_spec h with ⟨live, hrun, -, hlive⟩
  cases hdead : live.all id with
  | true =>
    refine ⟨a, ?_, h, fun s => Iff.rfl, fun lo hi hlabels => ⟨hlabels, fun hdet => hdet⟩⟩
    unfold removeDeadStates
    rw [hrun, ok_bind, if_pos hdead]
    rfl
  | false =>
    rcases copyLive_spec h hlive hdead hrun with ⟨b, hb, hbuilt, hcur, hn, hacc⟩
    have hlog : ∀ e, e ∈ liveLog a live ↔
        ∃ q t, a.Live q ∧ t ∈ a.row q ∧ a.Live t.dest ∧ e = liveTransition live q t := by
      intro e
      rw [mem_liveLog]
      constructor
      · intro ⟨q, _, hq, t, ht, htl, he⟩
        exact ⟨q, t, (hlive q).1 hq, ht, (hlive _).1 htl, he⟩
      · intro ⟨q, t, hq, ht, htl, he⟩
        exact ⟨q, h.lt_of_live hq, (hlive q).2 hq, t, ht, (hlive _).2 htl, he⟩
    have hinj : ∀ q d, a.Live q → a.Live d → rank live q = rank live d → q = d := by
      intro q d hq hd
      exact rank_inj ((hlive q).2 hq) ((hlive d).2 hd)
    have hedge : ∀ q c d', a.Live q →
        (b.Edge (rank live q) c d' ↔ ∃ d, a.Live d ∧ rank live d = d' ∧ a.Edge q c d) := by
      intro q c d' hq
      rw [hbuilt.edge_iff]
      constructor
      · intro ⟨t, ht, hd, hcov⟩
        rcases (hlog _).1 ht with ⟨p, u, hp, hu, hul, heq⟩
        injection heq with hrank ht
        have hqp := hinj q p hq hp hrank
        subst ht hqp
        exact ⟨u.dest, hul, hd, u, hu, rfl, hcov⟩
      · intro ⟨d, hd, hrank, t, ht, htd, hcov⟩
        subst htd
        exact ⟨_, (hlog _).2 ⟨q, t, hq, ht, hd, rfl⟩, hrank, hcov⟩
    have hlang : ∀ s q, a.Live q →
        (NfaPaths.Accepts b.nfa (rank live q) s ↔ NfaPaths.Accepts a.nfa q s) := by
      apply NfaPaths.accepts_map
      · intro q hq
        rw [mem_nfa_accept, mem_nfa_accept, hacc q hq]
      · exact hedge
      · intro q c d x hq ⟨t, ht, htd, _⟩ hx
        subst htd
        exact ⟨hq.1.tail (List.mem_map_of_mem ht), reach_of_accepts hx⟩
    refine ⟨b, hb, hbuilt.finished hcur, ?_, ?_⟩
    · intro s
      rw [accepts_iff, accepts_iff]
      by_cases h0 : a.Live 0
      · exact hlang s 0 h0
      · -- without a live initial state nothing is live, and nothing is accepted
        have hnone : ∀ q, live.getD q false = false := by
          intro q
          cases hq : live.getD q false with
          | false => rfl
          | true =>
            rcases (hlive q).1 hq with ⟨hfrom, f, hf, hto⟩
            exact absurd ⟨.refl, f, hf, hfrom.trans hto⟩ h0
        have hzero : b.numStates = 0 := by
          rw [hn]
          unfold rank
          rw [List.length_eq_zero_iff, List.filter_eq_nil_iff]
          intro q _
          rw [hnone q]
          exact Bool.false_ne_true
        constructor
        · intro hs
          rcases reach_of_accepts hs with ⟨f, hf, -⟩
          have := (hbuilt.finished hcur).lt_of_accept hf
          omega
        · intro hs
          exact absurd ⟨.refl, reach_of_accepts hs⟩ h0
    · intro lo hi hlabels
      have hin : ∀ e ∈ liveLog a live, LabelIn lo hi e.2 := by
        intro e he
        rcases (hlog e).1 he with ⟨q, t, -, ht, -, rfl⟩
        exact hlabels q t ht
      refine ⟨hbuilt.labelsIn hcur hin, ?_⟩
      intro hdet
      apply hbuilt.deterministic (fun e he => (hin e he).2.1)
      intro p c d d' hd hd'
      rw [rowEdge_logRow] at hd hd'
      rcases hd with ⟨t, ht, rfl, hcov⟩
      rcases hd' with ⟨t', ht', rfl, hcov'⟩
      rcases (hlog _).1 ht with ⟨q, u, hq, hu, -, heq⟩
      rcases (hlog _).1 ht' with ⟨q', u', hq', hu', -, heq'⟩
      injection heq with hp ht
      injection heq' with hp' ht'
      have hqq := hinj q q' hq hq' (hp.symm.trans hp')
      subst hqq ht ht'
      have hdest := rowDet_of_pairwise (h.pairwise hdet q) c u.dest u'.dest
        ⟨u, hu, rfl, hcov⟩ ⟨u', hu', rfl, hcov'⟩
      rw [hdest]

end LuceneRust.Util.Automata
