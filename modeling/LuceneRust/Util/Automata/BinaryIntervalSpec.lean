import LuceneRust.Util.Automata.ByteOrder
import LuceneRust.Util.Automata.Construction

/-!
# The loops of a binary interval

The general case of `make_binary_interval` makes one chain of states along
the lower bound and one along the upper bound, which agree as long as the
bounds do.  State `0` is initial and state `1`, the sink, accepts all byte
strings.

* `Equal` and `Split` are the invariants of the loop over the lower bound:
  the bounds have agreed so far, or not.
* `Along` is the invariant of the loop over the upper bound.
* `generalInterval_spec` is the language of the automaton.
-/

namespace LuceneRust.Util.Automata

open RustSem

variable {valid cond : Prop} {mi xi e : Bool} {target K : List Int → Prop} {min max : List U8}
  {omax : Option (List U8)} {a : Automaton} {log : List (Nat × Transition)} {L : Meaning}
  {P : Nat → Prop} {C : Int → Prop} {E : Int → List Int → Prop} {i j n q last : Nat}
  {s : IntervalState}

/-- Nothing is pending, and the initial state is for `target`. -/
def Done (valid : Prop) (target : List Int → Prop) (a : Automaton) : Prop :=
  ∃ log L, Site valid 0 255 a log L (fun _ => False) ∧ L 0 = target ∧ 0 < a.numStates

theorem Done.finish (h : Done valid target a) :
    Finished a.finishState ∧ (∀ s, a.finishState.Accepts s ↔ target s) ∧
      (valid → a.finishState.deterministic = true ∧ LabelsIn 0 255 a.finishState) := by
  rcases h with ⟨log, L, hsite, hstart, hpos⟩
  rw [← hstart]
  exact hsite.finish (fun _ hq => hq) hpos

/-! ## The loop over the upper bound -/

/-- The state `last` is the only pending one, and it is for the strings below
the rest of the upper bound.  Only the first such state may reject the empty
string although the rest is not empty (`e` is false then). -/
structure Along (valid : Prop) (target : List Int → Prop) (max : List U8) (xi : Bool)
    (a : Automaton) (last j : Nat) (log : List (Nat × Transition)) (L : Meaning) (e : Bool) :
    Prop where
  site : Site valid 0 255 a log L fun q => q = last
  start : L 0 = target
  sink : L 1 = Bytes
  lt : 1 < a.numStates
  ne : last ≠ 1
  row : logRow log last = []
  flag : a.isAccept last = (e && decide (j < max.length))
  last : ∀ s, L last s ↔ Bytes s ∧ Below xi (bytesFrom max j) s ∧ (s = [] → e = true)
  entry : e = true ∨ j < max.length
  room : xi = true ∨ j < max.length

theorem Along.step (h : Along valid target max xi a last j log L e) (hj : j < max.length) :
    ∃ s, intervalMaxStep max xi 1 (a, last) j = .ok s ∧
      ((∃ log' L', Along valid target max xi s.1 s.2 (j + 1) log' L' true) ∨
        j + 1 = max.length ∧ xi = false ∧ Done valid target s.1) := by
  rcases bytesFrom_of_lt hj with ⟨b, hb, _, hcons⟩
  have hbounds := byteLabel_bounds b
  have hn := h.lt
  have hlast := h.site.sketch.pending last rfl
  have hwork := h.site.work (q := last) rfl h.row
  have hflag : a.isAccept last = e := by
    rw [h.flag, decide_eq_true hj, Bool.and_true]
  have hcond : byteLabel b > 0 ↔ 0 ≤ byteLabel b - 1 := by omega
  rcases hwork.edgeIf hcond h.lt h.sink (fun _ => by omega) (fun _ hC => hC.elim) with
    ⟨a₁, log₁, ha₁, hwork₁, hn₁, hacc₁, hrow₁⟩
  have hflag₁ : ∀ p, a₁.isAccept p = a.isAccept p := by
    intro p
    unfold Automaton.isAccept
    rw [hacc₁]
  unfold intervalMaxStep
  dsimp only
  rw [hb, expect_some, ok_bind, ha₁, ok_bind]
  have hnil : a.isAccept last = true ↔ L last [] := by
    rw [hflag, h.last, hcons]
    simp [bytes_nil, below_cons_nil]
  by_cases hnext : (xi || decide (j < max.length - 1)) = true
  · rw [if_pos hnext]
    have hnew := hwork₁.create fun s => Bytes s ∧ Below xi (bytesFrom max (j + 1)) s
    have hne : last ≠ a₁.numStates := by omega
    generalize hL' : (Function.update L a₁.numStates fun s =>
      Bytes s ∧ Below xi (bytesFrom max (j + 1)) s) = L' at hnew
    have hself : L' a₁.numStates = fun s => Bytes s ∧ Below xi (bytesFrom max (j + 1)) s := by
      rw [← hL']
      exact Function.update_self ..
    have hupd : ∀ p < a.numStates, L' p = L p := by
      intro p hp
      rw [← hL']
      exact Function.update_of_ne (by omega) _ _
    have hfresh : a₁.createState.1.isAccept a₁.numStates = false := by
      rw [Automaton.isAccept_createState]
      exact hwork₁.site.isAccept_new
    rcases hnew.acceptIf (j < max.length - 1) (.inr rfl) hfresh with
      ⟨a₂, ha₂, hwork₂, hn₂, hacc₂⟩
    rw [Automaton.numStates_createState] at hn₂
    rcases hwork₂.edge (d := a₁.numStates) (by omega) hself (byteLabel b)
      (byteLabel b) (fun _ => by omega) (fun c hC => by rw [false_or] at hC; omega) with
      ⟨a₃, log₃, ha₃, hwork₃, hn₃, hacc₃, hlog₃⟩
    have hflag₃ : ∀ p, a₃.isAccept p = a₂.isAccept p := by
      intro p
      unfold Automaton.isAccept
      rw [hacc₃]
    refine ⟨(a₃, a₁.numStates), ?_, .inl ⟨log₃, L', ?_⟩⟩
    · rw [Automaton.createState_snd, ha₂, ok_bind]
      unfold Automaton.addTransitionLabel
      rw [ha₃]
      rfl
    constructor
    · apply hwork₃.close
      · rw [hflag₃, hacc₂, if_neg hne, Automaton.isAccept_createState, hflag₁, hupd last hlast]
        exact hnil
      · intro c s
        rw [hupd last hlast, h.last, hcons, below_cons, bytes_cons]
        constructor
        · intro ⟨⟨hc, hs⟩, hbelow, _⟩
          rcases hbelow with hlt | ⟨hceq, hbelow⟩
          · exact .inl (.inr ⟨by omega, hs⟩)
          · exact .inr ⟨by omega, hs, hbelow⟩
        · intro hcase
          rcases hcase with (hfalse | ⟨hc, hs⟩) | ⟨hc, hs, hbelow⟩
          · exact hfalse.elim
          · exact ⟨⟨by omega, hs⟩, .inl (by omega), fun h => nomatch h⟩
          · exact ⟨⟨by omega, hs⟩, .inr ⟨by omega, hbelow⟩, fun h => nomatch h⟩
      · intro p
        constructor
        · intro hp
          exact ⟨.inr hp, by omega⟩
        · intro ⟨hp, hpne⟩
          exact hp.resolve_left hpne
    · rw [hupd 0 (by omega)]
      exact h.start
    · rw [hupd 1 hn]
      exact h.sink
    · dsimp only
      omega
    · dsimp only
      omega
    · dsimp only
      rw [hlog₃, logRow_append, logRow_singleton, if_neg hne, List.append_nil, hrow₁ _ hne.symm,
        hn₁]
      exact h.site.row_new
    · dsimp only
      rw [hflag₃, hacc₂, if_pos rfl, Bool.true_and]
      apply decide_eq_decide.2
      omega
    · intro s
      dsimp only
      rw [hself]
      simp
    · exact .inl rfl
    · rcases Bool.or_eq_true _ _ ▸ hnext with hxi | hj'
      · exact .inl hxi
      · exact .inr (by have := of_decide_eq_true hj'; omega)
  · rw [if_neg hnext]
    rw [Bool.not_eq_true, Bool.or_eq_false_iff, decide_eq_false_iff_not] at hnext
    have hend : j + 1 = max.length := by omega
    refine ⟨(a₁, last), rfl, .inr ⟨hend, hnext.1, log₁, L, ?_, h.start, by dsimp only; omega⟩⟩
    apply hwork₁.close
    · rw [hflag₁]
      exact hnil
    · intro c s
      rw [h.last, hcons, below_cons, bytes_cons, bytesFrom_of_le hend.ge, below_nil, hnext.1]
      constructor
      · intro ⟨⟨hc, hs⟩, hbelow, _⟩
        rcases hbelow with hlt | ⟨_, _, hfalse⟩
        · exact .inr ⟨by omega, hs⟩
        · exact nomatch hfalse
      · intro hcase
        rcases hcase with hfalse | ⟨hc, hs⟩
        · exact hfalse.elim
        · exact ⟨⟨by omega, hs⟩, .inl (by omega), fun h => nomatch h⟩
    · intro p
      constructor
      · intro hp
        exact hp.elim
      · intro ⟨hp, hpne⟩
        exact hpne hp

theorem Along.run (h : Along valid target max xi a last j log L e) (hn : j + n = max.length) :
    ∃ a' last', (List.range' j n).foldlM (intervalMaxStep max xi 1) (a, last) =
        (.ok (a', last') : Result (Automaton × Nat)) ∧
      ∃ a'', a'.setAcceptIf (xi = true) last' = .ok a'' ∧ Done valid target a'' := by
  induction n generalizing a last j log L e with
  | zero =>
    have hj : ¬ j < max.length := by omega
    have hxi : xi = true := h.room.resolve_right hj
    have he : e = true := h.entry.resolve_right hj
    have hpos := h.lt
    rcases h.site.accept true (h.site.sketch.pending last rfl) (.inl rfl) with
      ⟨a', ha', hsite, hn', _, hacc⟩
    refine ⟨a, last, by rw [List.range'_zero]; rfl, a', ?_, log, L, ?_, h.start, by omega⟩
    · unfold Automaton.setAcceptIf
      rw [if_pos hxi, ha']
    · apply (hsite.work (q := last) rfl h.row).close
      · rw [hacc, if_pos rfl, h.last, bytesFrom_of_le (by omega), below_nil, hxi, he]
        simp [bytes_nil]
      · intro c s
        rw [h.last, bytesFrom_of_le (by omega), below_nil]
        simp
      · intro p
        constructor
        · intro hp
          exact hp.elim
        · intro ⟨hp, hpne⟩
          exact hpne hp
  | succ n ih =>
    rcases h.step (by omega) with ⟨⟨a₁, last₁⟩, hstep, hcase⟩
    rw [List.range'_succ, List.foldlM_cons, hstep, ok_bind]
    rcases hcase with ⟨log', L', halong⟩ | ⟨hend, hxi, hdone⟩
    · exact ih halong (by omega)
    · have hzero : n = 0 := by omega
      have hfalse : ¬ xi = true := by
        rw [hxi]
        exact Bool.false_ne_true
      refine ⟨a₁, last₁, by rw [hzero, List.range'_zero]; rfl, a₁, ?_, hdone⟩
      unfold Automaton.setAcceptIf
      rw [if_neg hfalse]
      rfl

/-- The chain along the upper bound. -/
theorem Along.follow (h : Along valid target max xi a last j log L e) (hj : j ≤ max.length) :
    ∃ a', followMax max xi 1 a last j = .ok a' ∧ Done valid target a' := by
  rcases h.run (n := max.length - j) (by omega) with ⟨a₁, last₁, hloop, a₂, hset, hdone⟩
  refine ⟨a₂, ?_, hdone⟩
  unfold followMax
  rw [hloop]
  exact hset

/-! ## The loop over the lower bound -/

/-- The next state along the lower bound: the sink, where nothing is left of
an inclusive bound, or a new state. -/
structure Next (valid : Prop) (a : Automaton) (log : List (Nat × Transition)) (L : Meaning)
    (P : Nat → Prop) (K : List Int → Prop) (q : Nat) (r : Automaton × Nat) (L' : Meaning) :
    Prop where
  work : Work valid 0 255 r.1 log L' (fun p => P p ∨ p = r.2 ∧ p ≠ 1) q (fun _ => False)
    fun _ _ => False
  next : L' r.2 = K
  lt : r.2 < r.1.numStates
  old : ∀ p < a.numStates, L' p = L p
  le : a.numStates ≤ r.1.numStates
  ge : r.2 ≠ 1 → a.numStates ≤ r.2
  flag : ∀ p, r.1.isAccept p = a.isAccept p

theorem next_spec (h : Site valid 0 255 a log L P) (hq : P q) (hrow : logRow log q = [])
    (hsink : L 1 = Bytes) (hlt : 1 < a.numStates) (sink : Bool) (hK : sink = true → K = Bytes) :
    ∃ L', Next valid a log L P K q (if sink then (a, 1) else a.createState) L' ∧
      ((if sink then (a, 1) else a.createState).2 = 1 ↔ sink = true) := by
  have hwork := h.work hq hrow
  cases sink with
  | true =>
    refine ⟨L, ⟨?_, ?_, hlt, fun _ _ => rfl, le_refl _, fun h => absurd rfl h, fun _ => rfl⟩, ?_⟩
    · refine ⟨h.mono fun p => ?_, .inl hq, hwork.isOpen, hwork.cover, hwork.edges⟩
      constructor
      · intro hp
        rcases hp with hp | ⟨hp, hne⟩
        · exact hp
        · exact absurd hp hne
      · intro hp
        exact .inl hp
    · rw [hK rfl]
      exact hsink
    · exact ⟨fun _ => rfl, fun _ => rfl⟩
  | false =>
    have hnew := hwork.create K
    have hne : a.numStates ≠ 1 := by omega
    refine ⟨_, ⟨⟨?_, ?_, hnew.isOpen, hnew.cover, hnew.edges⟩, Function.update_self .., ?_, ?_, ?_,
      fun _ => le_refl _, fun _ => Automaton.isAccept_createState a⟩, ?_⟩
    · apply hnew.site.mono
      intro p
      apply or_congr_right
      constructor
      · intro hp
        exact hp.1
      · intro hp
        exact ⟨hp, by omega⟩
    · exact .inl hq
    · rw [if_neg Bool.false_ne_true, Automaton.numStates_createState]
      exact Nat.lt_succ_self _
    · intro p hp
      exact Function.update_of_ne hp.ne _ _
    · rw [if_neg Bool.false_ne_true, Automaton.numStates_createState]
      exact Nat.le_succ _
    · constructor
      · intro h1
        exact absurd h1 hne
      · intro h1
        exact nomatch h1

/-- The invariant of the loop over the lower bound as long as the bounds
agree: the last state of the chain is the only pending one. -/
structure Equal (valid : Prop) (target : List Int → Prop) (min : List U8) (mi : Bool)
    (omax : Option (List U8)) (xi : Bool) (s : IntervalState) (i : Nat)
    (log : List (Nat × Transition)) (L : Meaning) : Prop where
  site : Site valid 0 255 s.a log L fun q => q = s.lastState
  start : L 0 = target
  sink : L 1 = Bytes
  lt : 1 < s.a.numStates
  equal : s.equalPrefix = true
  noFirst : s.firstMaxState = none
  ne : s.lastState ≠ 1
  row : logRow log s.lastState = []
  flag : s.a.isAccept s.lastState = false
  last : ∀ t, L s.lastState t ↔
    Bytes t ∧ Above mi (bytesFrom min i) t ∧ ∀ y ∈ omax, Below xi (bytesFrom y i) t
  bounds : ∀ y ∈ omax, min.drop i < y.drop i
  noMax : omax = none → i = 0

/-- The first state of the upper bound's own chain. -/
structure First (omax : Option (List U8)) (xi : Bool) (s : IntervalState)
    (log : List (Nat × Transition)) (L : Meaning) (f : Nat) (y : List U8) : Prop where
  max : omax = some y
  ne : f ≠ s.lastState
  ne_sink : f ≠ 1
  row : logRow log f = []
  flag : s.a.isAccept f = decide (s.sharedPrefixLength + 1 < y.length)
  meaning : L f = fun t => Bytes t ∧ Below xi (bytesFrom y (s.sharedPrefixLength + 1)) t
  room : xi = true ∨ s.sharedPrefixLength + 1 < y.length
  le : s.sharedPrefixLength + 1 ≤ y.length

/-- The invariant of the loop over the lower bound behind the place where the
bounds differ. -/
structure Split (valid : Prop) (target : List Int → Prop) (min : List U8) (mi : Bool)
    (omax : Option (List U8)) (xi : Bool) (s : IntervalState) (i : Nat)
    (log : List (Nat × Transition)) (L : Meaning) : Prop where
  site : Site valid 0 255 s.a log L fun q => q = s.lastState ∧ q ≠ 1 ∨ s.firstMaxState = some q
  start : L 0 = target
  sink : L 1 = Bytes
  lt : 1 < s.a.numStates
  split : s.equalPrefix = false
  ne : s.lastState ≠ 0
  atSink : s.lastState = 1 ↔ i = min.length ∧ mi = true
  row : s.lastState ≠ 1 → logRow log s.lastState = [] ∧ s.a.isAccept s.lastState = false
  last : L s.lastState = fun t => Bytes t ∧ Above mi (bytesFrom min i) t
  noFirst : s.firstMaxState = none → ∀ y ∈ omax, xi = false ∧ y.length ≤ min.length
  first : ∀ f, s.firstMaxState = some f → ∃ y, First omax xi s log L f y

/-- What is left of an inclusive bound is nothing where the sink is next. -/
theorem above_end (h : (mi && decide (i = min.length - 1)) = true) :
    (fun t => Bytes t ∧ Above mi (bytesFrom min (i + 1)) t) = Bytes := by
  rw [Bool.and_eq_true, decide_eq_true_iff] at h
  funext t
  rw [bytesFrom_of_le (by omega), above_nil, h.1]
  simp

/-- The bounds agree in one more byte. -/
theorem Equal.step_same {y : List U8} (h : Equal valid target min mi (some y) xi s i log L)
    {b : U8} (hb : min[i]? = some b) (hy : y[i]? = some b) :
    ∃ s' log' L', intervalMinStep min mi (some y) xi 1 s i = .ok s' ∧
      Equal valid target min mi (some y) xi s' (i + 1) log' L' := by
  have hi : i < min.length := (List.getElem?_eq_some_iff.1 hb).1
  have hiy : i < y.length := (List.getElem?_eq_some_iff.1 hy).1
  rcases bytesFrom_of_lt hi with ⟨b', hb', hdrop, hcons⟩
  cases hb.symm.trans hb'
  rcases bytesFrom_of_lt hiy with ⟨b', hb', hdropy, hconsy⟩
  cases hy.symm.trans hb'
  have hbounds := byteLabel_bounds b
  have hlast := h.site.sketch.pending s.lastState rfl
  have hlt := h.lt
  unfold intervalMinStep
  rw [hb, expect_some, ok_bind]
  dsimp only
  have hlabel : y.getD i 0 = b := by
    rw [List.getD_eq_getElem?_getD, hy]
    rfl
  rw [h.equal, decide_eq_true hiy, hlabel]
  simp only [Bool.and_true, if_true, ne_eq, not_true_eq_false, Bool.not_true, decide_false,
    Bool.or_self, Bool.and_false, Bool.false_eq_true, if_false]
  have hwork := (h.site.work (q := s.lastState) rfl h.row).create fun t =>
    Bytes t ∧ Above mi (bytesFrom min (i + 1)) t ∧ Below xi (bytesFrom y (i + 1)) t
  have hne : s.lastState ≠ s.a.numStates := hlast.ne
  generalize hL' : (Function.update L s.a.numStates fun t =>
    Bytes t ∧ Above mi (bytesFrom min (i + 1)) t ∧ Below xi (bytesFrom y (i + 1)) t) = L' at hwork
  have hself : L' s.a.numStates = fun t =>
      Bytes t ∧ Above mi (bytesFrom min (i + 1)) t ∧ Below xi (bytesFrom y (i + 1)) t := by
    rw [← hL']
    exact Function.update_self ..
  have hold : ∀ p < s.a.numStates, L' p = L p := by
    intro p hp
    rw [← hL']
    exact Function.update_of_ne hp.ne _ _
  have hnew : s.a.numStates < s.a.createState.1.numStates := by
    rw [Automaton.numStates_createState]
    exact Nat.lt_succ_self _
  rcases hwork.edge hnew hself (byteLabel b) (byteLabel b) (fun _ => by omega)
    (fun _ hC => hC.elim) with ⟨a₁, log₁, ha₁, hwork₁, hn₁, hacc₁, hlog₁⟩
  have hflag₁ : ∀ p, a₁.isAccept p = s.a.isAccept p := by
    intro p
    rw [← Automaton.isAccept_createState s.a]
    unfold Automaton.isAccept
    rw [hacc₁]
  refine ⟨{ s with a := a₁, lastState := s.a.numStates }, log₁, L', ?_, ?_⟩
  · unfold Automaton.addTransitionLabel
    rw [Automaton.createState_snd, ha₁, ok_bind, h.equal]
    rfl
  constructor
  · apply hwork₁.close
    · rw [hflag₁, h.flag, hold _ hlast, h.last, hcons]
      simp [not_above_cons_nil]
    · intro c t
      rw [hold _ hlast, h.last, hcons]
      simp only [Option.mem_def, Option.some.injEq, forall_eq', hconsy, above_cons, below_cons,
        bytes_cons]
      constructor
      · intro ⟨⟨hc, ht⟩, habove, hbelow⟩
        rcases habove with habove | ⟨heq, habove⟩
        · omega
        · rcases hbelow with hbelow | ⟨_, hbelow⟩
          · omega
          · exact .inr ⟨by omega, ht, habove, hbelow⟩
      · intro hcase
        rcases hcase with hfalse | ⟨hc, ht, habove, hbelow⟩
        · exact hfalse.elim
        · exact ⟨⟨by omega, ht⟩, .inr ⟨by omega, habove⟩, .inr ⟨by omega, hbelow⟩⟩
    · intro p
      constructor
      · intro hp
        exact ⟨.inr hp, by rw [hp]; exact hne.symm⟩
      · intro ⟨hp, hpne⟩
        exact hp.resolve_left hpne
  · rw [hold 0 (by omega), h.start]
  · rw [hold 1 hlt, h.sink]
  · dsimp only
    omega
  · exact h.equal
  · exact h.noFirst
  · dsimp only
    omega
  · dsimp only
    rw [hlog₁, logRow_append, logRow_singleton, if_neg hne, List.append_nil]
    exact h.site.row_new
  · dsimp only
    rw [hflag₁]
    exact h.site.isAccept_new
  · intro t
    dsimp only
    rw [hself]
    simp
  · intro y' hy'
    cases hy'
    have hlex := h.bounds y rfl
    rw [hdrop, hdropy, List.cons_lt_cons_iff] at hlex
    rcases hlex with hbb | ⟨_, hlex⟩
    · exact absurd hbb (BitVec.lt_irrefl b)
    · exact hlex
  · intro hnone
    cases hnone

/-- The bounds differ: a chain of its own for the upper bound, if there can be
strings along it. -/
theorem Equal.step_split {y : List U8} (h : Equal valid target min mi (some y) xi s i log L)
    {b g : U8} (hb : min[i]? = some b) (hy : y[i]? = some g) (hbg : byteLabel b < byteLabel g) :
    ∃ s' log' L', intervalMinStep min mi (some y) xi 1 s i = .ok s' ∧
      Split valid target min mi (some y) xi s' (i + 1) log' L' := by
  have hi : i < min.length := (List.getElem?_eq_some_iff.1 hb).1
  have hiy : i < y.length := (List.getElem?_eq_some_iff.1 hy).1
  rcases bytesFrom_of_lt hi with ⟨b', hb', _, hcons⟩
  cases hb.symm.trans hb'
  rcases bytesFrom_of_lt hiy with ⟨g', hg', _, hconsy⟩
  cases hy.symm.trans hg'
  have hbounds := byteLabel_bounds b
  have hboundsy := byteLabel_bounds g
  have hlast := h.site.sketch.pending s.lastState rfl
  have hlt := h.lt
  unfold intervalMinStep
  rw [hb, expect_some, ok_bind]
  dsimp only
  have hlabel : y.getD i 0 = g := by
    rw [List.getD_eq_getElem?_getD, hy]
    rfl
  have hne : byteLabel b ≠ byteLabel g := hbg.ne
  have hsink : (mi && decide (i = min.length - 1) &&
      (!true || decide (byteLabel b ≠ byteLabel g))) = (mi && decide (i = min.length - 1)) := by
    rw [decide_eq_true hne, Bool.or_true, Bool.and_true]
  rw [h.equal, decide_eq_true hiy, hlabel, Bool.and_self, if_pos rfl, if_pos rfl, hsink,
    if_neg hne]
  rcases next_spec h.site (q := s.lastState) rfl h.row h.sink h.lt
    (mi && decide (i = min.length - 1)) above_end with ⟨L₁, hnext, hiff⟩
  generalize (if (mi && decide (i = min.length - 1)) = true then (s.a, 1)
    else s.a.createState) = r at hnext hiff ⊢
  rcases r with ⟨a₀, next⟩
  have hle := hnext.le
  have hge := hnext.ge
  dsimp only at hle hge hiff ⊢
  rcases hnext.work.edge hnext.lt hnext.next (byteLabel b) (byteLabel b) (fun _ => by omega)
    (fun _ hC => hC.elim) with ⟨a₁, log₁, ha₁, hwork₁, hn₁, hacc₁, hlog₁⟩
  dsimp only at ha₁ hn₁ hacc₁
  have hsink₁ : L₁ 1 = Bytes := (hnext.old 1 hlt).trans h.sink
  have hcond : byteLabel g > byteLabel b + 1 ↔ byteLabel b + 1 ≤ byteLabel g - 1 := by omega
  rcases hwork₁.edgeIf hcond (by omega) hsink₁ (fun _ => by omega)
    (fun c hC => by rw [false_or] at hC; omega) with
    ⟨a₂, log₂, ha₂, hwork₂, hn₂, hacc₂, hrow₂⟩
  have hflag₂ : ∀ p, a₂.isAccept p = s.a.isAccept p := by
    intro p
    rw [← hnext.flag p]
    unfold Automaton.isAccept
    rw [hacc₂, hacc₁]
  have hrows₂ : ∀ p ≠ s.lastState, logRow log₂ p = logRow log p := by
    intro p hp
    rw [hrow₂ p hp, hlog₁, logRow_append, logRow_singleton, if_neg hp.symm, List.append_nil]
  have hnil : s.a.isAccept s.lastState = true ↔ L s.lastState [] := by
    rw [h.flag, h.last, hcons]
    simp [not_above_cons_nil]
  have hrow : next ≠ 1 → logRow log₂ next = [] ∧ s.a.isAccept next = false := by
    intro hn
    have hge' := hge hn
    rw [hrows₂ next (by omega)]
    exact ⟨h.site.sketch.row_of_ge hge', h.site.built.isAccept_of_ge hge'⟩
  have hatSink : next = 1 ↔ i + 1 = min.length ∧ mi = true := by
    rw [hiff, Bool.and_eq_true, decide_eq_true_iff, and_comm]
    apply and_congr_left
    intro _
    omega
  have hnext0 : next ≠ 0 := by
    intro h0
    have := hge (by omega)
    omega
  unfold Automaton.addTransitionLabel
  rw [ha₁, ok_bind, ha₂, ok_bind]
  by_cases hfirst : (xi || decide (i < y.length - 1)) = true
  · rw [if_pos hfirst]
    have hnew := hwork₂.create fun t => Bytes t ∧ Below xi (bytesFrom y (i + 1)) t
    generalize hL' : (Function.update L₁ a₂.numStates fun t =>
      Bytes t ∧ Below xi (bytesFrom y (i + 1)) t) = L' at hnew
    have hself : L' a₂.numStates = fun t => Bytes t ∧ Below xi (bytesFrom y (i + 1)) t := by
      rw [← hL']
      exact Function.update_self ..
    have hold : ∀ p < a₂.numStates, L' p = L₁ p := by
      intro p hp
      rw [← hL']
      exact Function.update_of_ne hp.ne _ _
    have hfresh : a₂.createState.1.isAccept a₂.numStates = false := by
      rw [Automaton.isAccept_createState]
      exact hwork₂.site.isAccept_new
    rcases hnew.acceptIf (i < y.length - 1) (.inr rfl) hfresh with
      ⟨a₃, ha₃, hwork₃, hn₃, hacc₃⟩
    rw [Automaton.numStates_createState] at hn₃
    rcases hwork₃.edge (d := a₂.numStates) (by omega) hself (byteLabel g) (byteLabel g)
      (fun _ => by omega) (fun c hC => by rw [false_or] at hC; omega) with
      ⟨a₄, log₄, ha₄, hwork₄, hn₄, hacc₄, hlog₄⟩
    have hne₂ : s.lastState ≠ a₂.numStates := by omega
    have hflag₄ : ∀ p, a₄.isAccept p =
        if p = a₂.numStates then decide (i < y.length - 1) else s.a.isAccept p := by
      intro p
      rw [← hflag₂ p, ← Automaton.isAccept_createState a₂, ← hacc₃ p]
      unfold Automaton.isAccept
      rw [hacc₄]
    have hrows₄ : ∀ p ≠ s.lastState, logRow log₄ p = logRow log₂ p := by
      intro p hp
      rw [hlog₄, logRow_append, logRow_singleton, if_neg hp.symm, List.append_nil]
    have hltnext : next < a₂.numStates := by
      have := hnext.lt
      dsimp only at this
      omega
    refine ⟨⟨a₄, false, next, some a₂.numStates, i⟩, log₄, L', ?_, ?_⟩
    · rw [Automaton.createState_snd, ha₃, ok_bind, ha₄]
      rfl
    constructor
    · apply hwork₄.close
      · rw [hflag₄, if_neg hne₂, hold _ (by omega), hnext.old _ hlast]
        exact hnil
      · intro c t
        rw [hold _ (by omega), hnext.old _ hlast, h.last, hcons]
        simp only [Option.mem_def, Option.some.injEq, forall_eq', hconsy, above_cons, below_cons,
          bytes_cons, false_or]
        constructor
        · intro ⟨⟨hc, ht⟩, habove, hbelow⟩
          rcases habove with habove | ⟨heq, habove⟩
          · rcases hbelow with hbelow | ⟨heq, hbelow⟩
            · exact .inl (.inr ⟨by omega, ht⟩)
            · exact .inr ⟨by omega, ht, hbelow⟩
          · exact .inl (.inl ⟨by omega, ht, habove⟩)
        · intro hcase
          rcases hcase with (⟨hc, ht, habove⟩ | ⟨hc, ht⟩) | ⟨hc, ht, hbelow⟩
          · exact ⟨⟨by omega, ht⟩, .inr ⟨by omega, habove⟩, .inl (by omega)⟩
          · exact ⟨⟨by omega, ht⟩, .inl (by omega), .inl (by omega)⟩
          · exact ⟨⟨by omega, ht⟩, .inl (by omega), .inr ⟨by omega, hbelow⟩⟩
      · intro p
        dsimp only
        rw [Option.some.injEq]
        omega
    · rw [hold 0 (by omega), hnext.old 0 (by omega), h.start]
    · rw [hold 1 (by omega), hsink₁]
    · dsimp only
      omega
    · rfl
    · exact hnext0
    · exact hatSink
    · intro hn
      dsimp only at hn ⊢
      have hge' := hge hn
      rw [hrows₄ next (by omega), hflag₄, if_neg hltnext.ne]
      exact hrow hn
    · dsimp only
      rw [hold next hltnext]
      exact hnext.next
    · intro hnone
      cases hnone
    · intro f hf
      cases hf
      refine ⟨y, rfl, ?_, ?_, ?_, ?_, hself, ?_, hiy⟩
      · exact hltnext.ne'
      · omega
      · rw [hrows₄ _ hne₂.symm]
        exact hwork₂.site.row_new
      · dsimp only
        rw [hflag₄, if_pos rfl]
        apply decide_eq_decide.2
        omega
      · dsimp only
        rcases Bool.or_eq_true _ _ ▸ hfirst with hxi | hi'
        · exact .inl hxi
        · have := of_decide_eq_true hi'
          exact .inr (by omega)
  · rw [if_neg hfirst]
    rw [Bool.not_eq_true, Bool.or_eq_false_iff, decide_eq_false_iff_not] at hfirst
    refine ⟨{ s with a := a₂, equalPrefix := false, lastState := next, sharedPrefixLength := i },
      log₂, L₁, rfl, ?_⟩
    constructor
    · apply hwork₂.close
      · rw [hflag₂, hnext.old _ hlast]
        exact hnil
      · intro c t
        rw [hnext.old _ hlast, h.last, hcons]
        simp only [Option.mem_def, Option.some.injEq, forall_eq', hconsy, above_cons, below_cons,
          bytes_cons, false_or, bytesFrom_of_le (show y.length ≤ i + 1 by omega), below_nil,
          hfirst.1, Bool.false_eq_true, and_false, or_false]
        constructor
        · intro ⟨⟨hc, ht⟩, habove, hbelow⟩
          rcases habove with habove | ⟨heq, habove⟩
          · exact .inr ⟨by omega, ht⟩
          · exact .inl ⟨by omega, ht, habove⟩
        · intro hcase
          rcases hcase with ⟨hc, ht, habove⟩ | ⟨hc, ht⟩
          · exact ⟨⟨by omega, ht⟩, .inr ⟨by omega, habove⟩, by omega⟩
          · exact ⟨⟨by omega, ht⟩, .inl (by omega), by omega⟩
      · intro p
        dsimp only
        rw [h.noFirst]
        simp only [reduceCtorEq, or_false]
        omega
    · rw [hnext.old 0 (by omega), h.start]
    · exact hsink₁
    · dsimp only
      omega
    · rfl
    · exact hnext0
    · exact hatSink
    · intro hn
      dsimp only
      rw [hflag₂]
      exact hrow hn
    · exact hnext.next
    · intro _ y' hy'
      cases hy'
      exact ⟨hfirst.1, by omega⟩
    · intro f hf
      cases h.noFirst.symm.trans hf

/-- Without an upper bound there is only the chain of the lower bound.  The
transition to the sink starts behind the first byte of the bound, also where
that byte is the last one. -/
theorem Equal.step_open (h : Equal valid target min mi none xi s i log L) {b : U8}
    (hb : min[i]? = some b) (hvalid : valid → byteLabel b < 255) :
    ∃ s' log' L', intervalMinStep min mi none xi 1 s i = .ok s' ∧
      Split valid target min mi none xi s' (i + 1) log' L' ∧
      ∃ d, (d = 1 ↔ i + 1 = min.length ∧ mi = true) ∧ (d ≠ 1 → d = s.a.numStates) ∧
        log' = log ++ [(s.lastState, ⟨1, byteLabel b + 1, 255⟩),
          (s.lastState, ⟨d, byteLabel b, byteLabel b⟩)] := by
  have hi : i < min.length := (List.getElem?_eq_some_iff.1 hb).1
  rcases bytesFrom_of_lt hi with ⟨b', hb', _, hcons⟩
  cases hb.symm.trans hb'
  have hbounds := byteLabel_bounds b
  have hlast := h.site.sketch.pending s.lastState rfl
  have hlt := h.lt
  unfold intervalMinStep
  rw [hb, expect_some, ok_bind]
  dsimp only
  have hne : byteLabel b ≠ -1 := by omega
  have hsink : (mi && decide (i = min.length - 1) && (!true || decide (byteLabel b ≠ -1))) =
      (mi && decide (i = min.length - 1)) := by
    rw [decide_eq_true hne, Bool.or_true, Bool.and_true]
  rw [h.equal, if_pos rfl, hsink, if_neg hne]
  rcases next_spec h.site (q := s.lastState) rfl h.row h.sink h.lt
    (mi && decide (i = min.length - 1)) above_end with ⟨L₁, hnext, hiff⟩
  have hcreated : (mi && decide (i = min.length - 1)) ≠ true →
      (if (mi && decide (i = min.length - 1)) = true then (s.a, 1) else s.a.createState).2 =
        s.a.numStates := by
    intro hc
    rw [if_neg hc]
    rfl
  generalize (if (mi && decide (i = min.length - 1)) = true then (s.a, 1)
    else s.a.createState) = r at hnext hiff hcreated ⊢
  rcases r with ⟨a₀, next⟩
  have hle := hnext.le
  have hge := hnext.ge
  dsimp only at hle hge hiff hcreated ⊢
  have hsink₁ : L₁ 1 = Bytes := (hnext.old 1 hlt).trans h.sink
  rcases hnext.work.edge (d := 1) (by dsimp only; omega) hsink₁ (byteLabel b + 1) 255
    (fun hv => by have := hvalid hv; omega) (fun _ hC => hC.elim) with
    ⟨a₁, log₁, ha₁, hwork₁, hn₁, hacc₁, hlog₁⟩
  dsimp only at ha₁ hn₁ hacc₁
  have hltnext := hnext.lt
  dsimp only at hltnext
  rcases hwork₁.edge (d := next) (by omega) hnext.next (byteLabel b) (byteLabel b)
    (fun _ => by omega) (fun c hC => by rw [false_or] at hC; omega) with
    ⟨a₂, log₂, ha₂, hwork₂, hn₂, hacc₂, hlog₂⟩
  have hflag₂ : ∀ p, a₂.isAccept p = s.a.isAccept p := by
    intro p
    rw [← hnext.flag p]
    unfold Automaton.isAccept
    rw [hacc₂, hacc₁]
  have hrows₂ : ∀ p ≠ s.lastState, logRow log₂ p = logRow log p := by
    intro p hp
    rw [hlog₂, logRow_append, logRow_singleton, if_neg hp.symm, List.append_nil, hlog₁,
      logRow_append, logRow_singleton, if_neg hp.symm, List.append_nil]
  have hatSink : next = 1 ↔ i + 1 = min.length ∧ mi = true := by
    rw [hiff, Bool.and_eq_true, decide_eq_true_iff, and_comm]
    apply and_congr_left
    intro _
    omega
  refine ⟨⟨a₂, false, next, s.firstMaxState, 0⟩, log₂, L₁, ?_, ?_, next, hatSink, ?_, ?_⟩
  · unfold Automaton.addTransitionLabel
    rw [ha₁, ok_bind, ha₂]
    rfl
  · constructor
    · apply hwork₂.close
      · rw [hflag₂, hnext.old _ hlast, h.flag, h.last, hcons]
        simp [not_above_cons_nil]
      · intro c t
        rw [hnext.old _ hlast, h.last, hcons]
        simp only [above_cons, bytes_cons, false_or, Option.not_mem_none, IsEmpty.forall_iff,
          implies_true, and_true]
        constructor
        · intro ⟨⟨hc, ht⟩, habove⟩
          rcases habove with habove | ⟨heq, habove⟩
          · exact .inl ⟨by omega, ht⟩
          · exact .inr ⟨by omega, ht, habove⟩
        · intro hcase
          rcases hcase with ⟨hc, ht⟩ | ⟨hc, ht, habove⟩
          · exact ⟨⟨by omega, ht⟩, .inl (by omega)⟩
          · exact ⟨⟨by omega, ht⟩, .inr ⟨by omega, habove⟩⟩
      · intro p
        dsimp only
        rw [h.noFirst]
        simp only [reduceCtorEq, or_false]
        omega
    · rw [hnext.old 0 (by omega), h.start]
    · exact hsink₁
    · dsimp only
      omega
    · rfl
    · intro h0
      dsimp only at h0
      have := hge (by omega)
      omega
    · exact hatSink
    · intro hn
      dsimp only at hn ⊢
      have hge' := hge hn
      rw [hrows₂ next (by omega), hflag₂]
      exact ⟨h.site.sketch.row_of_ge hge', h.site.built.isAccept_of_ge hge'⟩
    · exact hnext.next
    · intro _ y' hy'
      cases hy'
    · intro f hf
      cases h.noFirst.symm.trans hf
  · intro hn
    apply hcreated
    intro hc
    exact hn (hiff.2 hc)
  · rw [hlog₂, hlog₁, List.append_assoc]
    rfl

/-- One more byte of the lower bound behind the place where the bounds
differ. -/
theorem Split.step (h : Split valid target min mi omax xi s i log L) (hi : i < min.length) :
    ∃ s' log' L', intervalMinStep min mi omax xi 1 s i = .ok s' ∧
      Split valid target min mi omax xi s' (i + 1) log' L' ∧
      ∀ p ≠ s.lastState, logRow log' p = logRow log p := by
  rcases bytesFrom_of_lt hi with ⟨b, hb, _, hcons⟩
  have hbounds := byteLabel_bounds b
  have hne1 : s.lastState ≠ 1 := by
    intro h1
    have := (h.atSink.1 h1).1
    omega
  have hrow := h.row hne1
  have hlast := h.site.sketch.pending s.lastState (.inl ⟨rfl, hne1⟩)
  have hlt := h.lt
  unfold intervalMinStep
  rw [hb, expect_some, ok_bind]
  dsimp only
  rw [h.split, Bool.not_false, Bool.true_or, Bool.and_true, if_neg Bool.false_ne_true]
  rcases next_spec h.site (q := s.lastState) (.inl ⟨rfl, hne1⟩) hrow.1 h.sink h.lt
    (mi && decide (i = min.length - 1)) above_end with ⟨L₁, hnext, hiff⟩
  generalize (if (mi && decide (i = min.length - 1)) = true then (s.a, 1)
    else s.a.createState) = r at hnext hiff ⊢
  rcases r with ⟨a₀, next⟩
  have hle := hnext.le
  have hge := hnext.ge
  have hltnext := hnext.lt
  dsimp only at hle hge hiff hltnext ⊢
  rcases hnext.work.edge hnext.lt hnext.next (byteLabel b) (byteLabel b) (fun _ => by omega)
    (fun _ hC => hC.elim) with ⟨a₁, log₁, ha₁, hwork₁, hn₁, hacc₁, hlog₁⟩
  dsimp only at ha₁ hn₁ hacc₁
  have hsink₁ : L₁ 1 = Bytes := (hnext.old 1 hlt).trans h.sink
  have hcond : byteLabel b < 255 ↔ byteLabel b + 1 ≤ 255 := by omega
  rcases hwork₁.edgeIf hcond (by omega) hsink₁ (fun _ => by omega)
    (fun c hC => by rw [false_or] at hC; omega) with
    ⟨a₂, log₂, ha₂, hwork₂, hn₂, hacc₂, hrow₂⟩
  have hflag₂ : ∀ p, a₂.isAccept p = s.a.isAccept p := by
    intro p
    rw [← hnext.flag p]
    unfold Automaton.isAccept
    rw [hacc₂, hacc₁]
  have hrows₂ : ∀ p ≠ s.lastState, logRow log₂ p = logRow log p := by
    intro p hp
    rw [hrow₂ p hp, hlog₁, logRow_append, logRow_singleton, if_neg hp.symm, List.append_nil]
  have hold : ∀ f, s.firstMaxState = some f → f < s.a.numStates :=
    fun f hf => h.site.sketch.pending f (.inr hf)
  refine ⟨{ s with a := a₂, lastState := next }, log₂, L₁, ?_, ?_, hrows₂⟩
  · unfold Automaton.addTransitionLabel
    rw [ha₁, ok_bind, ha₂, h.split]
    rfl
  constructor
  · apply hwork₂.close
    · rw [hflag₂, hnext.old _ hlast, hrow.2, h.last, hcons]
      simp [not_above_cons_nil]
    · intro c t
      rw [hnext.old _ hlast, h.last, hcons]
      simp only [above_cons, bytes_cons, false_or]
      constructor
      · intro ⟨⟨hc, ht⟩, habove⟩
        rcases habove with habove | ⟨heq, habove⟩
        · exact .inr ⟨by omega, ht⟩
        · exact .inl ⟨by omega, ht, habove⟩
      · intro hcase
        rcases hcase with ⟨hc, ht, habove⟩ | ⟨hc, ht⟩
        · exact ⟨⟨by omega, ht⟩, .inr ⟨by omega, habove⟩⟩
        · exact ⟨⟨by omega, ht⟩, .inl (by omega)⟩
    · intro p
      dsimp only
      constructor
      · intro hp
        rcases hp with ⟨hp, hp1⟩ | hp
        · have := hge (by omega)
          exact ⟨.inr ⟨hp, hp1⟩, by omega⟩
        · rcases h.first p hp with ⟨y, hfirst⟩
          exact ⟨.inl (.inr hp), hfirst.ne⟩
      · intro ⟨hp, hpne⟩
        rcases hp with (⟨hp, _⟩ | hp) | hp
        · exact absurd hp hpne
        · exact .inr hp
        · exact .inl hp
  · rw [hnext.old 0 (by omega), h.start]
  · exact hsink₁
  · dsimp only
    omega
  · exact h.split
  · intro h0
    dsimp only at h0
    have := hge (by omega)
    omega
  · dsimp only
    rw [hiff, Bool.and_eq_true, decide_eq_true_iff, and_comm]
    apply and_congr_left
    intro _
    omega
  · intro hn
    dsimp only at hn ⊢
    have hge' := hge hn
    rw [hrows₂ next (by omega), hflag₂]
    exact ⟨h.site.sketch.row_of_ge hge', h.site.built.isAccept_of_ge hge'⟩
  · exact hnext.next
  · exact h.noFirst
  · intro f hf
    rcases h.first f hf with ⟨y, hfirst⟩
    have hflt := hold f hf
    refine ⟨y, hfirst.max, ?_, hfirst.ne_sink, ?_, ?_, ?_, hfirst.room, hfirst.le⟩
    · dsimp only
      intro heq
      by_cases hn : next = 1
      · exact hfirst.ne_sink (heq.trans hn)
      · have := hge hn
        omega
    · rw [hrows₂ f hfirst.ne]
      exact hfirst.row
    · dsimp only
      rw [hflag₂]
      exact hfirst.flag
    · rw [hnext.old f hflt]
      exact hfirst.meaning

theorem Split.run (h : Split valid target min mi omax xi s i log L) (hn : i + n = min.length) :
    ∃ s' log' L', (List.range' i n).foldlM (intervalMinStep min mi omax xi 1) s =
        (.ok s' : Result IntervalState) ∧
      Split valid target min mi omax xi s' min.length log' L' ∧ logRow log' 0 = logRow log 0 := by
  induction n generalizing s i log L with
  | zero =>
    rw [Nat.add_zero] at hn
    rw [hn] at h
    exact ⟨s, log, L, by rw [List.range'_zero]; rfl, h, rfl⟩
  | succ n ih =>
    rcases h.step (by omega) with ⟨s₁, log₁, L₁, hstep, hsplit, hrow⟩
    rcases ih hsplit (by omega) with ⟨s₂, log₂, L₂, hloop, hsplit', hrow'⟩
    refine ⟨s₂, log₂, L₂, ?_, hsplit', hrow'.trans (hrow 0 h.ne.symm)⟩
    rw [List.range'_succ, List.foldlM_cons, hstep, ok_bind, hloop]

theorem Equal.run {y : List U8} (h : Equal valid target min mi (some y) xi s i log L)
    (hn : i + n = min.length) :
    ∃ s' log' L', (List.range' i n).foldlM (intervalMinStep min mi (some y) xi 1) s =
        (.ok s' : Result IntervalState) ∧
      (Equal valid target min mi (some y) xi s' min.length log' L' ∨
        Split valid target min mi (some y) xi s' min.length log' L') := by
  induction n generalizing s i log L with
  | zero =>
    rw [Nat.add_zero] at hn
    rw [hn] at h
    exact ⟨s, log, L, by rw [List.range'_zero]; rfl, .inl h⟩
  | succ n ih =>
    rcases bytesFrom_of_lt (show i < min.length by omega) with ⟨b, hb, hdrop, _⟩
    have hlex := h.bounds y rfl
    have hiy : i < y.length := by
      by_contra hge
      rw [List.drop_of_length_le (by omega : y.length ≤ i)] at hlex
      exact List.not_lt_nil _ hlex
    rcases bytesFrom_of_lt hiy with ⟨g, hg, hdropy, _⟩
    rw [hdrop, hdropy, List.cons_lt_cons_iff] at hlex
    rw [List.range'_succ, List.foldlM_cons]
    rcases hlex with hbg | ⟨rfl, _⟩
    · rcases h.step_split hb hg (byteLabel_lt.2 hbg) with ⟨s₁, log₁, L₁, hstep, hsplit⟩
      rcases hsplit.run (n := n) (by omega) with ⟨s₂, log₂, L₂, hloop, hsplit', _⟩
      refine ⟨s₂, log₂, L₂, ?_, .inr hsplit'⟩
      rw [hstep, ok_bind, hloop]
    · rcases h.step_same hb hg with ⟨s₁, log₁, L₁, hstep, hequal⟩
      rcases ih hequal (by omega) with ⟨s₂, log₂, L₂, hloop, hcase⟩
      refine ⟨s₂, log₂, L₂, ?_, hcase⟩
      rw [hstep, ok_bind, hloop]

/-- The end of the chain along the lower bound, behind the place where the
bounds differ. -/
theorem Split.close (h : Split valid target min mi omax xi s min.length log L) :
    ∃ a₁ a₂ log', s.a.addTransitionIf
        (s.equalPrefix = false ∧ s.lastState ≠ 1 ∧ s.lastState ≠ 0) s.lastState 1 0 255 = .ok a₁ ∧
      a₁.setAcceptIf (mi = true) s.lastState = .ok a₂ ∧
      Site valid 0 255 a₂ log' L (fun q => s.firstMaxState = some q) ∧
      a₂.numStates = s.a.numStates ∧ (∀ p ≠ s.lastState, a₂.isAccept p = s.a.isAccept p) ∧
      ∀ p ≠ s.lastState, logRow log' p = logRow log p := by
  have hne := h.ne
  unfold Automaton.addTransitionIf Automaton.setAcceptIf
  cases hmi : mi with
  | true =>
    have hone : s.lastState = 1 := h.atSink.2 ⟨rfl, hmi⟩
    have hpend : ¬ (1 = s.lastState ∧ (1 : Nat) ≠ 1 ∨ s.firstMaxState = some 1) := by
      intro hp
      rcases hp with hp | hp
      · exact hp.2 rfl
      · rcases h.first 1 hp with ⟨y, hfirst⟩
        exact hfirst.ne_sink rfl
    have hflag : s.a.isAccept 1 = true := by
      rw [(h.site.sketch.closed 1 h.lt hpend).nil, h.sink]
      exact bytes_nil
    rcases h.site.accept true h.lt (.inr hflag) with ⟨a₂, ha₂, hsite, hn, _, hacc⟩
    refine ⟨s.a, a₂, log, ?_, ?_, ?_, hn, ?_, fun _ _ => rfl⟩
    · rw [if_neg fun hc => hc.2.1 hone]
      rfl
    · rw [if_pos rfl, hone, ha₂]
    · apply hsite.mono
      intro q
      constructor
      · intro hq
        exact .inr hq
      · intro hq
        exact hq.resolve_left fun hq => hq.2 (hq.1.trans hone)
    · intro p hp
      rw [hacc, if_neg (by omega)]
  | false =>
    have hne1 : s.lastState ≠ 1 := by
      intro h1
      have := (h.atSink.1 h1).2
      rw [hmi] at this
      cases this
    have hrow := h.row hne1
    rcases (h.site.work (.inl ⟨rfl, hne1⟩) hrow.1).edge h.lt h.sink 0 255 (fun _ => by omega)
      (fun _ hC => hC.elim) with ⟨a₁, log₁, ha₁, hwork₁, hn₁, hacc₁, hlog₁⟩
    have hflag₁ : ∀ p, a₁.isAccept p = s.a.isAccept p := by
      intro p
      unfold Automaton.isAccept
      rw [hacc₁]
    refine ⟨a₁, a₁, log₁, ?_, by rw [if_neg Bool.false_ne_true]; rfl, ?_, hn₁,
      fun p _ => hflag₁ p, ?_⟩
    · rw [if_pos ⟨h.split, hne1, hne⟩, ha₁]
    · apply hwork₁.close
      · rw [hflag₁, hrow.2, h.last]
        dsimp only
        rw [bytesFrom_of_le (le_refl _), above_nil, hmi]
        simp
      · intro c t
        rw [h.last]
        dsimp only
        rw [bytesFrom_of_le (le_refl _), above_nil, bytes_cons, false_or]
        simp
      · intro p
        constructor
        · intro hp
          rcases h.first p hp with ⟨y, hfirst⟩
          exact ⟨.inr hp, hfirst.ne⟩
        · intro ⟨hp, hpne⟩
          exact hp.resolve_left fun hp => hpne hp.1
    · intro p hp
      rw [hlog₁, logRow_append, logRow_singleton, if_neg hp.symm, List.append_nil]

/-! ## The general case -/

/-- What the general case accepts. -/
def Inside (min : List U8) (mi : Bool) (omax : Option (List U8)) (xi : Bool) (t : List Int) :
    Prop :=
  Bytes t ∧ Above mi (bytesFrom min 0) t ∧ ∀ y ∈ omax, Below xi (bytesFrom y 0) t

/-- The states `0` and `1`. -/
theorem start_spec (valid : Prop) (min : List U8) (mi : Bool) (omax : Option (List U8)) (xi : Bool)
    (hbounds : ∀ y ∈ omax, min < y) :
    ∃ a₁ a₂ log L,
      Automaton.empty.createState.1.createState.1.setAccept 1 true = .ok a₁ ∧
      a₁.addTransition 1 1 0 255 = .ok a₂ ∧ a₂.numStates = 2 ∧ logRow log 0 = [] ∧
      Equal valid (Inside min mi omax xi) min mi omax xi ⟨a₂, true, 0, none, 0⟩ 0 log L := by
  have hsite := ((Site.empty valid 0 255 fun _ _ => False).create (Inside min mi omax xi)).create
    Bytes
  generalize hL : Function.update (Function.update (fun _ _ => False) Automaton.empty.numStates
    (Inside min mi omax xi)) Automaton.empty.createState.1.numStates Bytes = L at hsite
  have hzero : L 0 = Inside min mi omax xi := by
    rw [← hL]
    rfl
  have hone : L 1 = Bytes := by
    rw [← hL]
    rfl
  rcases hsite.accept (q := 1) true (by decide) (.inl (.inr rfl)) with
    ⟨a₁, ha₁, hsite₁, hn₁, hcur₁, hacc₁⟩
  have htwo : a₁.numStates = 2 := hn₁
  rcases (hsite₁.work (q := 1) (.inr rfl) rfl).edge (d := 1) (by omega) hone 0 255
    (fun _ => by omega) (fun _ hC => hC.elim) with ⟨a₂, log₂, ha₂, hwork₂, hn₂, hacc₂, hlog₂⟩
  have hflag₂ : ∀ p, a₂.isAccept p = a₁.isAccept p := by
    intro p
    unfold Automaton.isAccept
    rw [hacc₂]
  have hrow : logRow log₂ 0 = [] := by
    rw [hlog₂]
    rfl
  refine ⟨a₁, a₂, log₂, L, ha₁, ha₂, hn₂.trans htwo, hrow, ?_⟩
  constructor
  · apply hwork₂.close
    · rw [hflag₂, hacc₁, if_pos rfl, hone]
      simp [bytes_nil]
    · intro c t
      rw [hone, bytes_cons, false_or]
    · intro p
      constructor
      · intro hp
        dsimp only at hp
        exact ⟨.inl (.inr hp), by omega⟩
      · intro ⟨hp, hpne⟩
        rcases hp with (hp | hp) | hp
        · exact hp.elim
        · exact hp
        · exact absurd hp hpne
  · exact hzero
  · exact hone
  · dsimp only
    omega
  · rfl
  · rfl
  · exact Nat.zero_ne_one
  · exact hrow
  · dsimp only
    rw [hflag₂, hacc₁]
    rfl
  · intro t
    rw [hzero]
    rfl
  · exact hbounds
  · intro _
    rfl

/-- The steps of `general_interval` with an upper bound. -/
theorem generalInterval_some (mi xi : Bool) (y : List U8) :
    generalInterval min mi (some y) xi = (do
      let a ← Automaton.empty.createState.1.createState.1.setAccept 1 true
      let a ← a.addTransition 1 1 0 255
      let s ← (List.range' 0 min.length).foldlM (intervalMinStep min mi (some y) xi 1)
        ⟨a, true, 0, none, 0⟩
      let a ← s.a.addTransitionIf (s.equalPrefix = false ∧ s.lastState ≠ 1 ∧ s.lastState ≠ 0)
        s.lastState 1 0 255
      let a ← a.setAcceptIf (mi = true) s.lastState
      let a ←
        match s.firstMaxState with
        | none => followMax y xi 1 a s.lastState min.length
        | some firstMaxState => followMax y xi 1 a firstMaxState (s.sharedPrefixLength + 1)
      pure a.finishState : Result Automaton) := by
  unfold generalInterval
  dsimp only [Automaton.createState_snd]
  rfl

/-- The general case with an upper bound. -/
theorem generalInterval_closed (mi xi : Bool) (valid : Prop) {y : List U8} (hbounds : min < y) :
    ∃ a, generalInterval min mi (some y) xi = .ok a.finishState ∧
      Done valid (Inside min mi (some y) xi) a := by
  rcases start_spec valid min mi (some y) xi
    (fun y' hy' => by cases hy'; exact hbounds) with ⟨a₁, a₂, log, L, ha₁, ha₂, _, _, hequal⟩
  rcases hequal.run (n := min.length) (Nat.zero_add _) with ⟨s, log', L', hloop, hcase⟩
  rw [generalInterval_some]
  rw [ha₁, ok_bind, ha₂, ok_bind, hloop, ok_bind]
  rcases hcase with hequal' | hsplit
  · -- the lower bound is the start of the upper one
    have hlen : min.length < y.length := by
      have hlex := hequal'.bounds y rfl
      by_contra hge
      rw [List.drop_of_length_le (by omega : y.length ≤ min.length)] at hlex
      exact List.not_lt_nil _ hlex
    have hpend := hequal'.site.sketch.pending s.lastState rfl
    have haccept : ∃ a₃, s.a.setAcceptIf (mi = true) s.lastState = .ok a₃ ∧
        Site valid 0 255 a₃ log' L' (fun q => q = s.lastState) ∧ a₃.numStates = s.a.numStates ∧
        a₃.isAccept s.lastState = mi := by
      unfold Automaton.setAcceptIf
      cases mi with
      | true =>
        rcases hequal'.site.accept true hpend (.inl rfl) with ⟨a₃, ha₃, hsite, hn, _, hacc⟩
        exact ⟨a₃, by rw [if_pos rfl, ha₃], hsite, hn, by rw [hacc, if_pos rfl]⟩
      | false =>
        exact ⟨s.a, by rw [if_neg Bool.false_ne_true]; rfl, hequal'.site, rfl, hequal'.flag⟩
    rcases haccept with ⟨a₃, ha₃, hsite₃, hn₃, hflag₃⟩
    have hskip : s.a.addTransitionIf (s.equalPrefix = false ∧ s.lastState ≠ 1 ∧ s.lastState ≠ 0)
        s.lastState 1 0 255 = .ok s.a := by
      unfold Automaton.addTransitionIf
      rw [if_neg]
      · rfl
      · intro hc
        rw [hequal'.equal] at hc
        exact Bool.noConfusion hc.1
    have halong : Along valid (Inside min mi (some y) xi) y xi a₃ s.lastState min.length log' L'
        mi := by
      refine ⟨hsite₃, hequal'.start, hequal'.sink, ?_, hequal'.ne, hequal'.row, ?_, ?_,
        .inr hlen, .inr hlen⟩
      · rw [hn₃]
        exact hequal'.lt
      · rw [hflag₃, decide_eq_true hlen, Bool.and_true]
      · intro t
        rw [hequal'.last, bytesFrom_of_le (le_refl _), above_nil]
        simp only [Option.mem_def, Option.some.injEq, forall_eq']
        tauto
    rcases halong.follow hlen.le with ⟨a₄, ha₄, hdone⟩
    refine ⟨a₄, ?_, hdone⟩
    rw [hskip, ok_bind, ha₃, ok_bind, hequal'.noFirst]
    dsimp only
    rw [ha₄]
    rfl
  · rcases hsplit.close with ⟨a₃, a₄, log₄, ha₃, ha₄, hsite, hn, hflag, hrow⟩
    rw [ha₃, ok_bind, ha₄, ok_bind]
    cases hfirst : s.firstMaxState with
    | none =>
      rcases hsplit.noFirst hfirst y rfl with ⟨hxi, hlen⟩
      have hfalse : ¬ xi = true := by
        rw [hxi]
        exact Bool.false_ne_true
      refine ⟨a₄, ?_, log₄, L', ?_, hsplit.start, ?_⟩
      · dsimp only
        unfold followMax Automaton.setAcceptIf
        rw [Nat.sub_eq_zero_of_le hlen, List.range'_zero, List.foldlM_nil, Outcome.pure_eq,
          ok_bind]
        dsimp only
        rw [if_neg hfalse]
        rfl
      · apply hsite.mono
        intro q
        rw [hfirst]
        simp
      · have := hsplit.lt
        omega
    | some f =>
      rcases hsplit.first f hfirst with ⟨y', hf⟩
      cases hf.max
      have halong : Along valid (Inside min mi (some y) xi) y xi a₄ f (s.sharedPrefixLength + 1)
          log₄ L' true := by
        refine ⟨hsite.mono ?_, hsplit.start, hsplit.sink, ?_, hf.ne_sink, ?_, ?_, ?_, .inl rfl,
          hf.room⟩
        · intro q
          rw [hfirst, Option.some.injEq]
          exact eq_comm
        · rw [hn]
          exact hsplit.lt
        · rw [hrow f hf.ne]
          exact hf.row
        · rw [hflag f hf.ne, hf.flag, Bool.true_and]
        · intro t
          rw [hf.meaning]
          simp
      rcases halong.follow hf.le with ⟨a₅, ha₅, hdone⟩
      refine ⟨a₅, ?_, hdone⟩
      dsimp only
      rw [ha₅]
      rfl

/-- The general case without an upper bound, and the row of its initial
state. -/
theorem generalInterval_open (valid : Prop) (min : List U8) (mi xi : Bool) {b : U8}
    (hb : min[0]? = some b) (hvalid : valid → byteLabel b < 255) :
    ∃ a log L d, generalInterval min mi none xi = .ok a.finishState ∧
      Site valid 0 255 a log L (fun _ => False) ∧ L 0 = Inside min mi none xi ∧
      0 < a.numStates ∧ (d = 1 ↔ min.length = 1 ∧ mi = true) ∧ (d ≠ 1 → d = 2) ∧
      logRow log 0 = [⟨1, byteLabel b + 1, 255⟩, ⟨d, byteLabel b, byteLabel b⟩] := by
  have hpos : 0 < min.length := (List.getElem?_eq_some_iff.1 hb).1
  rcases start_spec valid min mi none xi
    (fun y' hy' => nomatch hy') with ⟨a₁, a₂, log, L, ha₁, ha₂, htwo, hrow, hequal⟩
  rcases hequal.step_open hb hvalid with ⟨s₁, log₁, L₁, hstep, hsplit, d, hd, hnew, hlog₁⟩
  rcases hsplit.run (n := min.length - 1) (by omega) with ⟨s, log', L', hloop, hsplit', hrow'⟩
  rcases hsplit'.close with ⟨a₃, a₄, log₄, ha₃, ha₄, hsite, hn, _, hrow₄⟩
  have hlt := hsplit'.lt
  refine ⟨a₄, log₄, L', d, ?_, hsite.mono ?_, hsplit'.start, by omega, ?_, ?_, ?_⟩
  · unfold generalInterval
    dsimp only [Automaton.createState_snd]
    change (do
      let a ← Automaton.empty.createState.1.createState.1.setAccept 1 true
      let a ← a.addTransition 1 1 0 255
      let s ← (List.range' 0 min.length).foldlM (intervalMinStep min mi none xi 1)
        ⟨a, true, 0, none, 0⟩
      let a ← s.a.addTransitionIf (s.equalPrefix = false ∧ s.lastState ≠ 1 ∧ s.lastState ≠ 0)
        s.lastState 1 0 255
      let a ← a.setAcceptIf (mi = true) s.lastState
      pure a.finishState) = _
    have hrange : List.range' 0 min.length = 0 :: List.range' 1 (min.length - 1) := by
      have hsucc : min.length = min.length - 1 + 1 := by omega
      conv_lhs => rw [hsucc]
      rfl
    rw [ha₁, ok_bind, ha₂, ok_bind, hrange, List.foldlM_cons, hstep,
      ok_bind, hloop, ok_bind, ha₃, ok_bind, ha₄]
    rfl
  · intro q
    constructor
    · intro hq
      exact hq.elim
    · intro hq
      rcases hsplit'.first q hq with ⟨y, hfirst⟩
      cases hfirst.max
  · rw [hd]
    apply and_congr_left
    intro _
    omega
  · intro hne
    rw [hnew hne]
    exact htwo
  · rw [hrow₄ 0 hsplit'.ne.symm, hrow', hlog₁, logRow_append, hrow]
    rfl

end LuceneRust.Util.Automata
