import LuceneRust.Util.Automata.DecimalIntervalSpec

/-!
# The language of a decimal interval

The rest of `make_decimal_interval`: the zeros in front of the interval and
the automaton that is returned.

* `addLeadingZeros_spec`: the initial state reads zeros, and what the initial
  states of the interval read.
* `makeDecimalInterval_exact`: the automaton accepts the numerals of the
  integers of the interval.
-/

namespace LuceneRust.Util.Automata

open RustSem

variable {a : Automaton} {log : List (Nat × Transition)} {L : Meaning} {K : List Int → Prop}
  {initials : List Nat} {s : List Int} {k p q : Nat}

/-! ## Zeros in front -/

/-- `add_epsilon` from the current state to one that does not accept. -/
theorem Built.addEpsilon (h : Built a log) (hcur : a.curState = some q) (hq : q < a.numStates)
    (hp : p ≠ q) (hacc : a.isAccept p = false) :
    ∃ a' ts, a.addEpsilon q p = .ok a' ∧ Built a' (log ++ ts.map fun t => (q, t)) ∧
      a'.curState = some q ∧ a'.numStates = a.numStates ∧ a'.accepts = a.accepts ∧
      ∀ c d, RowEdge ts c d ↔ RowEdge (logRow log p) c d := by
  have hrow : a.row p = finishRow (logRow log p) := by
    rw [h.row p, if_neg]
    rw [hcur]
    intro heq
    exact hp (Option.some.inj heq).symm
  have hdest : ∀ t ∈ a.row p, t.dest < a.numStates := by
    intro t ht
    rw [hrow] at ht
    rcases dest_of_mem_finishRow ht with ⟨u, hu, htu⟩
    rw [htu]
    exact (h.lt _ (mem_logRow.1 hu)).2
  rcases h.addTransition_row hcur hq hdest with ⟨a', ha', hbuilt, hcur', hn, hacc'⟩
  refine ⟨a', a.row p, ?_, hbuilt, hcur', hn, hacc', ?_⟩
  · have hflag : a'.isAccept p = false := by
      unfold Automaton.isAccept
      rw [hacc']
      exact hacc
    unfold Automaton.addEpsilon
    rw [ha', ok_bind, hflag]
    rfl
  · intro c d
    rw [hrow]
    exact rowEdge_finishRow

/-- The epsilons of the initial state. -/
theorem addEpsilon_foldlM (h : Built a log) (hcur : a.curState = some q) (hq : q < a.numStates)
    (hinitials : ∀ p ∈ initials, p ≠ q ∧ a.isAccept p = false) :
    ∃ a' log', initials.foldlM (fun a p => a.addEpsilon q p) a = (.ok a' : Result Automaton) ∧
      Built a' log' ∧ a'.numStates = a.numStates ∧ a'.accepts = a.accepts ∧
      (∀ p ≠ q, logRow log' p = logRow log p) ∧
      ∀ c d, RowEdge (logRow log' q) c d ↔
        RowEdge (logRow log q) c d ∨ ∃ p ∈ initials, RowEdge (logRow log p) c d := by
  induction initials generalizing a log with
  | nil => exact ⟨a, log, rfl, h, rfl, rfl, fun _ _ => rfl, by simp⟩
  | cons p initials ih =>
    have hp := hinitials p List.mem_cons_self
    rcases h.addEpsilon hcur hq hp.1 hp.2 with ⟨b, ts, hb, hbuilt, hcur', hn, hacc, hts⟩
    have hflag : ∀ p, b.isAccept p = a.isAccept p := by
      intro p
      unfold Automaton.isAccept
      rw [hacc]
    have hinitials' : ∀ p ∈ initials, p ≠ q ∧ b.isAccept p = false := by
      intro p hp
      rw [hflag]
      exact hinitials p (List.mem_cons_of_mem _ hp)
    rcases ih hbuilt hcur' (hn ▸ hq) hinitials' with
      ⟨a', log', ha', hbuilt', hn', hacc', hother, hedge⟩
    have hrow : ∀ p ≠ q, logRow (log ++ ts.map fun t => (q, t)) p = logRow log p := by
      intro p hpq
      rw [logRow_append, logRow_map_ne ts hpq, List.append_nil]
    refine ⟨a', log', ?_, hbuilt', hn'.trans hn, hacc'.trans hacc, ?_, ?_⟩
    · rw [List.foldlM_cons, hb, ok_bind, ha']
    · intro p hpq
      rw [hother p hpq, hrow p hpq]
    · intro c d
      have hrest : (∃ p ∈ initials, RowEdge (logRow (log ++ ts.map fun t => (q, t)) p) c d) ↔
          ∃ p ∈ initials, RowEdge (logRow log p) c d := by
        apply exists_congr
        intro p
        apply and_congr_right
        intro hmem
        rw [hrow p (hinitials' p hmem).1]
      rw [hedge, hrest, logRow_append, logRow_map_self, rowEdge_append, hts, or_assoc]
      simp only [List.mem_cons, exists_eq_or_imp]

/-- The strings of an interval, with any number of zeros in front. -/
def InRange (lo hi : Int) (s : List Int) : Prop :=
  s ≠ [] ∧ Digits s ∧ lo ≤ value s ∧ value s ≤ hi

theorem value_replicate_append (k : Nat) (s : List Int) :
    value (List.replicate k 48 ++ s) = value s := by
  rw [value_append, value_zeros, zero_mul, zero_add]

/-- A numeral of the interval goes on with a zero, or is one of the bounds'
length or shorter. -/
theorem inRange_cons {xs ys : List Int} (hy : Digits ys) (hlen : ys.length = xs.length)
    (hpos : 0 < xs.length) (c : Int) :
    InRange (value xs) (value ys) (c :: s) ↔
      c = 48 ∧ InRange (value xs) (value ys) s ∨
        ∃ k < xs.length, Between xs ys (List.replicate k 48 ++ c :: s) := by
  constructor
  · intro ⟨_, hd, hlo, hhi⟩
    by_cases hlong : (c :: s).length ≤ xs.length
    · refine .inr ⟨xs.length - (c :: s).length, ?_, ⟨?_, ?_⟩, ?_⟩
      · rw [List.length_cons] at hlong ⊢
        omega
      · rw [List.length_append, List.length_replicate]
        omega
      · exact digits_append.2 ⟨digits_zeros _, hd⟩
      · rw [value_replicate_append]
        exact ⟨hlo, hhi⟩
    · rw [List.length_cons] at hlong
      rw [digits_cons] at hd
      have hs := (value_bounds hd.2).1
      have hmax := (value_bounds hy).2
      have hpow : (10 : Int) ^ ys.length ≤ 10 ^ s.length :=
        pow_le_pow_right₀ (by decide) (by omega)
      rw [value] at hlo hhi
      have hc : c = 48 := by
        -- one more digit would be too much
        by_contra hne
        have hone : 1 * (10 : Int) ^ s.length ≤ (c - 48) * 10 ^ s.length :=
          mul_le_mul_of_nonneg_right (by omega) (by positivity)
        omega
      rw [hc, sub_self, zero_mul, zero_add] at hlo hhi
      refine .inl ⟨hc, ?_, hd.2, hlo, hhi⟩
      intro hnil
      rw [hnil, List.length_nil] at hlong
      omega
  · intro hcase
    rcases hcase with ⟨hc, _, hd, hlo, hhi⟩ | ⟨k, _, ⟨_, hd⟩, hlo, hhi⟩
    · refine ⟨List.cons_ne_nil _ _, digits_cons.2 ⟨by omega, hd⟩, ?_⟩
      rw [value, hc, sub_self, zero_mul, zero_add]
      exact ⟨hlo, hhi⟩
    · rw [value_replicate_append] at hlo hhi
      exact ⟨List.cons_ne_nil _ _, (digits_append.1 hd).2, hlo, hhi⟩

/-- The end of `make_decimal_interval` for numerals without a fixed length. -/
theorem addLeadingZeros_spec {lo n : Nat} (h : Built a log) (hrow : logRow log 0 = [])
    (hflag : a.isAccept 0 = false)
    (hsketch : Sketch a.numStates log a.isAccept L fun q => q = 0)
    {xs ys : List Int} (hy : Digits ys) (hlen : ys.length = xs.length) (hpos : 0 < xs.length)
    (hroot : L 0 = InRange (value xs) (value ys)) (hn : n ≤ a.numStates) (hlo : 0 < lo)
    (hentries : Entries L lo n true (Between xs ys) xs.length initials) :
    ∃ a', addLeadingZeros a initials = .ok a' ∧ Finished a' ∧
      ∀ s, a'.Accepts s ↔ InRange (value xs) (value ys) s := by
  have hzero : 0 < a.numStates := hsketch.pending 0 rfl
  rcases h.addTransition (.inr hrow) hzero hzero (digitLabel '0') (digitLabel '0') with
    ⟨b, hb, hbuilt, hcurb, hnb, haccb⟩
  have hflagb : ∀ p, b.isAccept p = a.isAccept p := by
    intro p
    unfold Automaton.isAccept
    rw [haccb]
  have hother : ∀ p ≠ 0, logRow (log ++ [(0, ⟨0, digitLabel '0', digitLabel '0'⟩)]) p =
      logRow log p := by
    intro p hp
    rw [logRow_append, logRow_singleton, if_neg hp.symm, List.append_nil]
  have hclosed : ∀ p ∈ initials, p ≠ 0 ∧ Closed log a.isAccept L p := by
    intro p hp
    have hge := hentries.ge p hp
    have hlt := hentries.lt p hp
    exact ⟨by omega, hsketch.closed p (by omega) (by omega)⟩
  have hinitials : ∀ p ∈ initials, p ≠ 0 ∧ b.isAccept p = false := by
    intro p hp
    refine ⟨(hclosed p hp).1, ?_⟩
    rcases hentries.sound p hp with ⟨k, hk, hL⟩
    have hnil : ¬ L p [] := by
      rw [hL]
      intro hbetween
      have hlen := hbetween.1.1
      rw [List.append_nil, List.length_replicate] at hlen
      omega
    rw [hflagb, ← Bool.not_eq_true, (hclosed p hp).2.nil]
    exact hnil
  rcases addEpsilon_foldlM hbuilt hcurb (hnb ▸ hzero) hinitials with
    ⟨a₁, log', ha₁, hbuilt₁, hn₁, hacc₁, hother₁, hedge₁⟩
  rcases hbuilt₁.finishState with ⟨hbuilt₂, hcur₂, hn₂, hacc₂⟩
  have hnum : a₁.finishState.numStates = a.numStates := by
    rw [hn₂, hn₁, hnb]
  have haccept : ∀ p, a₁.finishState.isAccept p = a.isAccept p := by
    intro p
    unfold Automaton.isAccept
    rw [hacc₂, hacc₁, haccb]
  refine ⟨a₁.finishState, ?_, hbuilt₂.finished hcur₂, ?_⟩
  · unfold addLeadingZeros Automaton.addTransitionLabel
    rw [hb, ok_bind, ha₁]
    rfl
  have hfinal : Sketch a₁.finishState.numStates log' a₁.finishState.isAccept L fun _ => False := by
    refine ⟨hbuilt₂.lt, fun q hq => hq.elim, ?_⟩
    intro q hq _
    by_cases hq0 : q = 0
    · rw [hq0]
      constructor
      · rw [haccept, hflag, hroot]
        simp [InRange]
      · intro c s
        have hedge : ∀ d, RowEdge (logRow log' 0) c d ↔
            (c = 48 ∧ d = 0) ∨ ∃ p ∈ initials, RowEdge (logRow log p) c d := by
          intro d
          have hloop : RowEdge (logRow (log ++ [(0, ⟨0, digitLabel '0', digitLabel '0'⟩)]) 0) c d ↔
              c = 48 ∧ d = 0 := by
            rw [logRow_append, logRow_singleton, if_pos rfl, hrow, List.nil_append, rowEdge_cons]
            simp only [rowEdge_nil, or_false]
            have h48 : digitLabel '0' = 48 := rfl
            rw [h48]
            change 0 = d ∧ 48 ≤ c ∧ c ≤ 48 ↔ c = 48 ∧ d = 0
            omega
          rw [hedge₁, hloop]
          apply or_congr_right
          apply exists_congr
          intro p
          apply and_congr_right
          intro hp
          rw [hother p (hclosed p hp).1]
        rw [hroot, inRange_cons hy hlen hpos]
        simp only [hedge, or_and_right, exists_or]
        apply or_congr
        · constructor
          · rintro ⟨hc, hs⟩
            refine ⟨0, ⟨hc, rfl⟩, ?_⟩
            rw [hroot]
            exact hs
          · rintro ⟨d, ⟨hc, hd⟩, hs⟩
            rw [hd, hroot] at hs
            exact ⟨hc, hs⟩
        · constructor
          · rintro ⟨k, hk, hs⟩
            rcases hentries.complete rfl k hk _ hs with ⟨p, hp, hL⟩
            rcases ((hclosed p hp).2.cons c s).1 hL with ⟨d, hd, hLd⟩
            exact ⟨d, ⟨p, hp, hd⟩, hLd⟩
          · rintro ⟨d, ⟨p, hp, hd⟩, hLd⟩
            rcases hentries.sound p hp with ⟨k, hk, hL⟩
            exact ⟨k, hk, (hL _).1 (((hclosed p hp).2.cons c s).2 ⟨d, hd, hLd⟩)⟩
    · rw [hnum] at hq
      apply (hsketch.closed q hq hq0).of_edges
      · intro c d
        rw [hother₁ q hq0, hother q hq0]
      · exact haccept q
  intro s
  rw [hfinal.accepts_iff (fun _ hq => hq) (fun _ _ _ => hbuilt₂.edge_iff_row) (fun _ => rfl)
    (hnum ▸ hzero) s, hroot]

/-! ## The automaton of an interval -/

/-- The labels of a bound behind its padding. -/
theorem labels_padZeros (k v : Nat) : labels (padZeros k (decimal v)) 0 = numeral k v := by
  unfold labels numeral
  rw [List.drop_zero]

theorem decimal_length_mono {m n : Nat} (h : m ≤ n) : (decimal m).length ≤ (decimal n).length := by
  unfold decimal
  rw [Nat.length_toDigits_le_iff (by decide) Nat.length_toDigits_pos]
  have hn := (Nat.length_toDigits_le_iff (by decide) Nat.length_toDigits_pos).1
    (le_refl (Nat.toDigits 10 n).length)
  omega

theorem length_padZeros (k : Nat) (x : List Char) : (padZeros k x).length = k + x.length := by
  rw [padZeros, List.length_append, List.length_replicate]

/-- The numerals of an interval by their values. -/
theorem inRange_iff (min max : Nat) :
    InRange min max s ↔ ∃ k v, min ≤ v ∧ v ≤ max ∧ s = numeral k v := by
  constructor
  · intro ⟨hs, hd, hlo, hhi⟩
    rcases (digits_iff hs).1 hd with ⟨k, v, hv⟩
    rw [hv, value_numeral] at hlo hhi
    exact ⟨k, v, by omega, by omega, hv⟩
  · intro ⟨k, v, hlo, hhi, hs⟩
    rw [hs]
    refine ⟨numeral_ne_nil k v, digits_numeral k v, ?_⟩
    rw [value_numeral]
    omega

theorem draft_empty (L : Meaning) : Draft Builder.empty L fun _ => False where
  lt _ he := nomatch he
  pending _ hq := hq.elim
  closed _ hq := nomatch hq

/-- Decimal intervals are exact.  What `make_decimal_interval` returns accepts
the numerals of the integers of the interval: with `digits > 0` those of that
many digits, otherwise all of them.  It rejects an empty interval and a length
that is too short for the upper bound. -/
theorem makeDecimalInterval_exact (min max : Nat) (digits : Int) :
    (makeDecimalInterval min max digits).Meets
      (fun a => (min ≤ max ∧ (0 < digits → ((decimal max).length : Int) ≤ digits)) ∧
        ∀ s, a.Accepts s ↔ ∃ k v, min ≤ v ∧ v ≤ max ∧ s = numeral k v ∧
          (0 < digits → (s.length : Int) = digits))
      (fun e => e = .illegalArgument "" ∧
        (max < min ∨ 0 < digits ∧ digits < (decimal max).length)) := by
  unfold makeDecimalInterval
  dsimp only
  by_cases hreject : min > max ∨ digits > 0 ∧ ((decimal max).length : Int) > digits
  · rw [if_pos hreject]
    exact ⟨rfl, hreject⟩
  rw [if_neg hreject]
  have hminmax : min ≤ max := by omega
  have hfit : 0 < digits → ((decimal max).length : Int) ≤ digits := by omega
  have hmono := decimal_length_mono hminmax
  have hpos : 0 < (decimal max).length := Nat.length_toDigits_pos
  have hd : (decimal max).length ≤ if digits > 0 then digits.toNat else (decimal max).length := by
    split
    · omega
    · exact le_refl _
  generalize hdef : (if digits > 0 then digits.toNat else (decimal max).length) = d at hd ⊢
  generalize hx : padZeros (d - (decimal min).length) (decimal min) = x
  generalize hy : padZeros (d - (decimal max).length) (decimal max) = y
  have hxlen : x.length = d := by
    rw [← hx, length_padZeros]
    omega
  have hylen : y.length = d := by
    rw [← hy, length_padZeros]
    omega
  have hlx : labels x 0 = numeral (d - (decimal min).length) min := by
    rw [← hx, labels_padZeros]
  have hly : labels y 0 = numeral (d - (decimal max).length) max := by
    rw [← hy, labels_padZeros]
  have hdx : Digits (labels x 0) := by
    rw [hlx]
    exact digits_numeral _ _
  have hdy : Digits (labels y 0) := by
    rw [hly]
    exact digits_numeral _ _
  have hvx : value (labels x 0) = min := by
    rw [hlx, value_numeral]
  have hvy : value (labels y 0) = max := by
    rw [hly, value_numeral]
  have hle : value (labels x 0) ≤ value (labels y 0) := by
    rw [hvx, hvy]
    omega
  have hlenx : (labels x 0).length = d := by
    rw [length_labels, hxlen, Nat.sub_zero]
  have hleny : (labels y 0).length = d := by
    rw [length_labels, hylen, Nat.sub_zero]
  suffices hauto : ∀ c : Bool, c = decide (digits ≤ 0) → ∃ a, (do
        let r ← between x y (x.length + 1)
          (if digits ≤ 0 then Builder.empty.createState.1 else Builder.empty) 0 [] c
        let a1 ← r.1.finish
        if digits ≤ 0 then addLeadingZeros a1 r.2.1 else pure a1) = (.ok a : Result Automaton) ∧
      Finished a ∧ ∀ s, a.Accepts s ↔ InRange min max s ∧ (0 < digits → s.length = d) by
    rcases hauto _ rfl with ⟨a, ha, hfin, hlang⟩
    rcases removeDeadStates_spec hfin with ⟨a', ha', _, hlang', _⟩
    rcases Outcome.bind_eq_ok.1 ha with ⟨⟨b', ps, r⟩, hcall, ha⟩
    dsimp only at ha
    rcases Outcome.bind_eq_ok.1 ha with ⟨a₁, hfinish, ha⟩
    rw [hcall, ok_bind]
    have htail : (if digits ≤ 0 then do
          let a1 ← addLeadingZeros a₁ ps
          removeDeadStates a1
        else do
          let a1 ← (pure a₁ : Result Automaton)
          removeDeadStates a1) = .ok a' := by
      split
      · next h =>
        rw [if_pos h] at ha
        rw [ha, ok_bind, ha']
      · next h =>
        rw [if_neg h] at ha
        rw [ha, ok_bind, ha']
    rw [hfinish, ok_bind, htail]
    refine ⟨⟨hminmax, hfit⟩, ?_⟩
    intro s
    rw [hlang', hlang, inRange_iff]
    constructor
    · rintro ⟨⟨k, v, hlo, hhi, hs⟩, hlen⟩
      refine ⟨k, v, hlo, hhi, hs, ?_⟩
      intro hpos
      rw [hlen hpos, ← hdef, if_pos hpos]
      omega
    · rintro ⟨k, v, hlo, hhi, hs, hlen⟩
      refine ⟨⟨k, v, hlo, hhi, hs⟩, ?_⟩
      intro hpos
      rw [← hdef, if_pos hpos]
      have := hlen hpos
      omega
  intro c hc
  by_cases hdigits : digits ≤ 0
  · -- the initial state is made first, for the zeros in front
    have hflag : c = true := by
      rw [hc]
      exact decide_eq_true hdigits
    rw [if_pos hdigits, hflag]
    simp only [if_pos hdigits]
    have hnode := Node.create (draft_empty fun _ _ => False)
      (InRange (value (labels x 0)) (value (labels y 0)))
    rcases between_spec hdx hdy (hxlen.trans hylen.symm) (x.length + 1) (n := 0) [] true
      hnode.draft (Nat.zero_le _) (by omega) hle with ⟨b, L, ps, hcall, hdrawn, hentries⟩
    have hchild := hnode.child hdrawn
    rcases hdrawn.draft.finish with ⟨a₁, log, hfinish, hbuilt, hcur, hn, hrow, hacc, hsketch⟩
    have hempty : logRow b.transitions 0 = [] := hdrawn.grown.row 0 hnode.lt
    rw [Nat.sub_zero, hxlen, ← hlenx] at hentries
    have hsketch' : Sketch a₁.numStates log a₁.isAccept L fun q => q = 0 := by
      refine ⟨hsketch.lt, ?_, ?_⟩
      · intro q hq
        exact hsketch.pending q (.inr hq)
      · intro q hq hnot
        exact hsketch.closed q hq fun h => h.elim False.elim hnot
    rcases addLeadingZeros_spec hbuilt (hrow 0 hempty) ((hacc 0).trans hchild.flag) hsketch'
      hdy (hleny.trans hlenx.symm) (by omega) hchild.root hn.ge (Nat.succ_pos 0) hentries with
      ⟨a, ha, hfin, hlang⟩
    refine ⟨a, ?_, hfin, ?_⟩
    · rw [hcall, ok_bind]
      dsimp only
      rw [hfinish, ok_bind]
      exact ha
    · intro s
      rw [hlang, hvx, hvy]
      constructor
      · intro hs
        exact ⟨hs, fun hpos => absurd hpos (by omega)⟩
      · intro hs
        exact hs.1
  · rw [if_neg hdigits]
    simp only [if_neg hdigits]
    rcases between_spec hdx hdy (hxlen.trans hylen.symm) (x.length + 1) (n := 0) [] c
      (draft_empty fun _ _ => False) (Nat.zero_le _) (by omega) hle with
      ⟨b, L, ps, hcall, hdrawn, _⟩
    rcases hdrawn.draft.finish with ⟨a₁, log, hfinish, hbuilt, hcur, hn, _, _, hsketch⟩
    have hlt : 0 < a₁.numStates := by
      rw [hn]
      exact hdrawn.lt
    refine ⟨a₁, ?_, hbuilt.finished hcur, ?_⟩
    · rw [hcall, ok_bind]
      dsimp only
      rw [hfinish]
      rfl
    · intro s
      have hroot : L 0 = Between (labels x 0) (labels y 0) := hdrawn.root
      rw [hsketch.accepts_iff (fun _ hq => hq) (fun _ _ _ => hbuilt.edge_iff_row) (fun _ => rfl)
        hlt s, hroot]
      unfold Between AnyOf InRange
      rw [hlenx, hvx, hvy]
      constructor
      · rintro ⟨⟨hlen, hd⟩, hlo, hhi⟩
        refine ⟨⟨?_, hd, hlo, hhi⟩, fun _ => hlen⟩
        intro hnil
        rw [hnil, List.length_nil] at hlen
        omega
      · rintro ⟨⟨_, hd, hlo, hhi⟩, hlen⟩
        exact ⟨⟨hlen (by omega), hd⟩, hlo, hhi⟩

end LuceneRust.Util.Automata
