import LuceneRust.Util.Automata.BinaryIntervalSpec

/-!
# The language of a binary interval

The other branches of `make_binary_interval`, and when what it returns is
exact.

* `makeBinary_spec` and `zeroTailInterval_spec` are the chains for one string
  and for a string with zeros behind it.
* `makeBinaryInterval_exact_iff`: the automaton accepts the strings between
  the bounds.  It is also deterministic, with intervals of bytes as labels,
  unless the one-past-`0xFF` transition of an open upper end survives.
-/

namespace LuceneRust.Util.Automata

open RustSem

variable {valid : Prop} {mi xi e : Bool} {target K : List Int → Prop} {min max : List U8}
  {a : Automaton} {log : List (Nat × Transition)} {L : Meaning} {last j n : Nat}

/-! ## Chains -/

/-- The chain of `appendLabels`: the strings that start with `term`, and go on
in `K`. -/
theorem appendLabels_spec (term : List U8)
    (h : Site valid 0 255 a log L fun q => q = last) (hrow : logRow log last = [])
    (hflag : a.isAccept last = false) (K : List Int → Prop)
    (hlast : L last = fun t => ∃ t', t = term.map byteLabel ++ t' ∧ K t') :
    ∃ a' last' log' L', appendLabels a last term = .ok (a', last') ∧
      Site valid 0 255 a' log' L' (fun q => q = last') ∧ logRow log' last' = [] ∧
      a'.isAccept last' = false ∧ L' last' = K ∧ (∀ q < a.numStates, L' q = L q) ∧
      a.numStates ≤ a'.numStates := by
  induction term generalizing a last log L with
  | nil =>
    refine ⟨a, last, log, L, rfl, h, hrow, hflag, ?_, fun _ _ => rfl, le_refl _⟩
    rw [hlast]
    funext t
    simp
  | cons b term ih =>
    have hbounds := byteLabel_bounds b
    have hpend := h.sketch.pending last rfl
    have hwork := (h.work (q := last) rfl hrow).create fun t =>
      ∃ t', t = term.map byteLabel ++ t' ∧ K t'
    generalize hL' : (Function.update L a.numStates fun t =>
      ∃ t', t = term.map byteLabel ++ t' ∧ K t') = L' at hwork
    have hself : L' a.numStates = fun t => ∃ t', t = term.map byteLabel ++ t' ∧ K t' := by
      rw [← hL']
      exact Function.update_self ..
    have hold : ∀ q < a.numStates, L' q = L q := by
      intro q hq
      rw [← hL']
      exact Function.update_of_ne hq.ne _ _
    have hnew : a.numStates < a.createState.1.numStates := by
      rw [Automaton.numStates_createState]
      exact Nat.lt_succ_self _
    rcases hwork.edge hnew hself (byteLabel b) (byteLabel b) (fun _ => by omega)
      (fun _ hC => hC.elim) with ⟨a₁, log₁, ha₁, hwork₁, hn₁, hacc₁, hlog₁⟩
    have hflag₁ : ∀ p, a₁.isAccept p = a.isAccept p := by
      intro p
      rw [← Automaton.isAccept_createState a]
      unfold Automaton.isAccept
      rw [hacc₁]
    have hne : last ≠ a.numStates := hpend.ne
    have hsite : Site valid 0 255 a₁ log₁ L' fun q => q = a.numStates := by
      apply hwork₁.close
      · rw [hflag₁, hflag, hold _ hpend, hlast]
        simp
      · intro c t
        rw [hold _ hpend, hlast]
        simp only [List.map_cons, List.cons_append, List.cons.injEq, false_or]
        constructor
        · intro ⟨t', ⟨hc, ht⟩, hK⟩
          exact ⟨by omega, t', ht, hK⟩
        · intro ⟨hc, t', ht, hK⟩
          exact ⟨t', ⟨by omega, ht⟩, hK⟩
      · intro p
        constructor
        · intro hp
          exact ⟨.inr hp, by omega⟩
        · intro ⟨hp, hpne⟩
          exact hp.resolve_left hpne
    have hrow₁ : logRow log₁ a.numStates = [] := by
      rw [hlog₁, logRow_append, logRow_singleton, if_neg hne, List.append_nil]
      exact h.row_new
    have hflagNew : a₁.isAccept a.numStates = false := by
      rw [hflag₁]
      exact h.isAccept_new
    rcases ih hsite hrow₁ hflagNew hself with
      ⟨a', last', log', L'', hcall, hsite', hrow', hflag', hlast', hold', hle⟩
    rw [Automaton.numStates_createState] at hn₁
    refine ⟨a', last', log', L'', ?_, hsite', hrow', hflag', hlast', ?_, by omega⟩
    · unfold appendLabels Automaton.addTransitionLabel
      rw [show a.createState = (a.createState.1, a.numStates) from rfl]
      dsimp only
      rw [ha₁, ok_bind, hcall]
    · intro q hq
      rw [hold' q (by omega), hold q hq]

/-- The first state of a chain. -/
theorem first_spec (valid : Prop) (target : List Int → Prop) :
    ∃ L, Site valid 0 255 Automaton.empty.createState.1 [] L (fun q => q = 0) ∧ L 0 = target := by
  refine ⟨_, ((Site.empty valid 0 255 fun _ _ => False).create target).mono ?_,
    Function.update_self ..⟩
  intro q
  constructor
  · intro hq
    exact .inr hq
  · intro hq
    exact hq.resolve_left fun hfalse => hfalse

theorem makeBinary_spec (valid : Prop) (term : List U8) :
    ∃ a, makeBinary term = .ok a.finishState ∧ Done valid (fun t => t = term.map byteLabel) a := by
  rcases first_spec valid (fun t => t = term.map byteLabel) with ⟨L, hsite, hstart⟩
  have hlast : L 0 = fun t => ∃ t', t = term.map byteLabel ++ t' ∧ t' = [] := by
    rw [hstart]
    funext t
    simp
  rcases appendLabels_spec term hsite rfl rfl (fun t => t = []) hlast with
    ⟨a₁, last, log₁, L₁, hcall, hsite₁, hrow₁, _, hlast₁, hold, hle⟩
  have hpend := hsite₁.sketch.pending last rfl
  rcases hsite₁.accept true hpend (.inl rfl) with ⟨a₂, ha₂, hsite₂, hn₂, _, hacc₂⟩
  refine ⟨a₂, ?_, log₁, L₁, ?_, ?_, by omega⟩
  · unfold makeBinary
    rw [show Automaton.empty.createState = (Automaton.empty.createState.1, 0) from rfl]
    dsimp only
    rw [hcall, ok_bind]
    dsimp only
    rw [ha₂]
    rfl
  · apply (hsite₂.work (q := last) rfl hrow₁).close
    · rw [hacc₂, if_pos rfl, hlast₁]
      simp
    · intro c t
      rw [hlast₁]
      simp
    · intro p
      constructor
      · intro hp
        exact hp.elim
      · intro ⟨hp, hpne⟩
        exact hpne hp
  · rw [hold 0 Nat.zero_lt_one, hstart]

/-- Up to `n` zeros, and at least one unless `e`. -/
def Zeros (e : Bool) (n : Nat) (t : List Int) : Prop :=
  ∃ k ≤ n, t = List.replicate k 0 ∧ (k = 0 → e = true)

theorem zeros_nil : Zeros e n [] ↔ e = true := by
  constructor
  · intro ⟨k, _, hk, he⟩
    apply he
    have hlen := congrArg List.length hk
    rw [List.length_nil, List.length_replicate] at hlen
    exact hlen.symm
  · intro he
    exact ⟨0, Nat.zero_le n, rfl, fun _ => he⟩

theorem zeros_cons {c : Int} {t : List Int} :
    Zeros e (n + 1) (c :: t) ↔ c = 0 ∧ Zeros true n t := by
  constructor
  · intro ⟨k, hk, ht, _⟩
    cases k with
    | zero => cases ht
    | succ k =>
      rw [List.replicate_succ, List.cons.injEq] at ht
      exact ⟨ht.1, k, by omega, ht.2, fun _ => rfl⟩
  · intro ⟨hc, k, hk, ht, _⟩
    refine ⟨k + 1, by omega, ?_, fun h => nomatch h⟩
    rw [List.replicate_succ, hc, ht]

theorem not_zeros_cons {c : Int} {t : List Int} : ¬ Zeros e 0 (c :: t) := by
  intro ⟨k, hk, ht, _⟩
  rw [Nat.le_zero.1 hk] at ht
  cases ht

/-- The loop of the zeros. -/
theorem zeros_loop (h : Site valid 0 255 a log L fun q => q = last) (hrow : logRow log last = [])
    (hflag : a.isAccept last = e) (hlast : L last = Zeros e n) (hstart : L 0 = target)
    (hpos : 0 < a.numStates) (j : Nat) :
    ∃ a' last', (List.range' j n).foldlM
        (fun ((a, last) : Automaton × Nat) _ => do
          let (a, st) := a.createState
          let a ← a.addTransitionLabel last st 0
          let a ← a.setAccept st true
          pure (a, st)) (a, last) = (.ok (a', last') : Result (Automaton × Nat)) ∧
      Done valid target a' := by
  induction n generalizing a last log L e j with
  | zero =>
    refine ⟨a, last, rfl, log, L, ?_, hstart, hpos⟩
    apply (h.work (q := last) rfl hrow).close
    · rw [hflag, hlast, zeros_nil]
    · intro c t
      rw [hlast]
      exact iff_of_false not_zeros_cons fun hfalse => hfalse
    · intro p
      constructor
      · intro hp
        exact hp.elim
      · intro ⟨hp, hpne⟩
        exact hpne hp
  | succ n ih =>
    have hpend := h.sketch.pending last rfl
    have hwork := (h.work (q := last) rfl hrow).create (Zeros true n)
    generalize hL' : Function.update L a.numStates (Zeros true n) = L' at hwork
    have hself : L' a.numStates = Zeros true n := by
      rw [← hL']
      exact Function.update_self ..
    have hold : ∀ q < a.numStates, L' q = L q := by
      intro q hq
      rw [← hL']
      exact Function.update_of_ne hq.ne _ _
    have hnew : a.numStates < a.createState.1.numStates := by
      rw [Automaton.numStates_createState]
      exact Nat.lt_succ_self _
    rcases hwork.edge hnew hself 0 0 (fun _ => by omega) (fun _ hC => hC.elim) with
      ⟨a₁, log₁, ha₁, hwork₁, hn₁, hacc₁, hlog₁⟩
    have hflag₁ : ∀ p, a₁.isAccept p = a.isAccept p := by
      intro p
      rw [← Automaton.isAccept_createState a]
      unfold Automaton.isAccept
      rw [hacc₁]
    have hne : last ≠ a.numStates := hpend.ne
    have hsite : Site valid 0 255 a₁ log₁ L' fun q => q = a.numStates := by
      apply hwork₁.close
      · rw [hflag₁, hflag, hold _ hpend, hlast, zeros_nil]
      · intro c t
        rw [hold _ hpend, hlast, zeros_cons, false_or]
        apply and_congr_left
        intro _
        omega
      · intro p
        constructor
        · intro hp
          exact ⟨.inr hp, by omega⟩
        · intro ⟨hp, hpne⟩
          exact hp.resolve_left hpne
    have hrow₁ : logRow log₁ a.numStates = [] := by
      rw [hlog₁, logRow_append, logRow_singleton, if_neg hne, List.append_nil]
      exact h.row_new
    rcases hsite.accept true (hn₁ ▸ hnew) (.inl rfl) with ⟨a₂, ha₂, hsite₂, hn₂, _, hacc₂⟩
    rcases ih hsite₂ hrow₁ (by rw [hacc₂, if_pos rfl]) hself ((hold 0 hpos).trans hstart)
      (by omega) (j + 1) with ⟨a', last', hloop, hdone⟩
    refine ⟨a', last', ?_, hdone⟩
    rw [List.range'_succ, List.foldlM_cons]
    unfold Automaton.addTransitionLabel at hloop ⊢
    dsimp only
    rw [show a.createState = (a.createState.1, a.numStates) from rfl]
    dsimp only
    rw [ha₁, ok_bind, ha₂, ok_bind, Outcome.pure_eq, ok_bind]
    exact hloop

theorem zeroTailInterval_spec (valid : Prop) (min : List U8) (mi : Bool) (maxLength : Nat) :
    ∃ a, zeroTailInterval min mi maxLength = .ok a.finishState ∧
      Done valid (fun t => ∃ t', t = min.map byteLabel ++ t' ∧
        Zeros mi (maxLength - min.length) t') a := by
  rcases first_spec valid (fun t => ∃ t', t = min.map byteLabel ++ t' ∧
    Zeros mi (maxLength - min.length) t') with ⟨L, hsite, hstart⟩
  rcases appendLabels_spec min hsite rfl rfl (Zeros mi (maxLength - min.length)) hstart with
    ⟨a₁, last, log₁, L₁, hcall, hsite₁, hrow₁, hflag₁, hlast₁, hold, hle⟩
  have hpend := hsite₁.sketch.pending last rfl
  have haccept : ∃ a₂, a₁.setAcceptIf (mi = true) last = .ok a₂ ∧
      Site valid 0 255 a₂ log₁ L₁ (fun q => q = last) ∧ a₂.isAccept last = mi ∧
      a₂.numStates = a₁.numStates := by
    unfold Automaton.setAcceptIf
    cases mi with
    | true =>
      rcases hsite₁.accept true hpend (.inl rfl) with ⟨a₂, ha₂, hsite₂, hn₂, _, hacc₂⟩
      exact ⟨a₂, by rw [if_pos rfl, ha₂], hsite₂, by rw [hacc₂, if_pos rfl], hn₂⟩
    | false => exact ⟨a₁, by rw [if_neg Bool.false_ne_true]; rfl, hsite₁, hflag₁, rfl⟩
  rcases haccept with ⟨a₂, ha₂, hsite₂, hflag₂, hn₂⟩
  rcases zeros_loop hsite₂ hrow₁ hflag₂ hlast₁ ((hold 0 Nat.zero_lt_one).trans hstart) (by omega)
    min.length with ⟨a₃, last₃, hloop, hdone⟩
  refine ⟨a₃, ?_, hdone⟩
  unfold zeroTailInterval
  rw [show Automaton.empty.createState = (Automaton.empty.createState.1, 0) from rfl]
  dsimp only
  rw [hcall, ok_bind]
  dsimp only
  rw [ha₂, ok_bind]
  dsimp only at hloop
  rw [hloop]
  rfl

theorem makeAnyBinary_spec (valid : Prop) :
    ∃ a, makeAnyBinary = .ok a.finishState ∧ Done valid Bytes a := by
  rcases first_spec valid Bytes with ⟨L, hsite, hstart⟩
  rcases hsite.accept (q := 0) true (by decide) (.inl rfl) with ⟨a₁, ha₁, hsite₁, hn₁, _, hacc₁⟩
  have hpos : 0 < a₁.numStates := by
    rw [hn₁]
    decide
  rcases (hsite₁.work (q := 0) rfl rfl).edge (d := 0) hpos hstart 0 255 (fun _ => by omega)
    (fun _ hC => hC.elim) with ⟨a₂, log₂, ha₂, hwork₂, hn₂, hacc₂, _⟩
  refine ⟨a₂, ?_, log₂, L, ?_, hstart, hn₂ ▸ hpos⟩
  · unfold makeAnyBinary
    rw [show Automaton.empty.createState = (Automaton.empty.createState.1, 0) from rfl]
    dsimp only
    rw [ha₁, ok_bind, ha₂]
    rfl
  · apply hwork₂.close
    · have hflag : a₂.isAccept 0 = a₁.isAccept 0 := by
        unfold Automaton.isAccept
        rw [hacc₂]
      rw [hflag, hacc₁, if_pos rfl, hstart]
      simp [bytes_nil]
    · intro c t
      rw [hstart, bytes_cons, false_or]
    · intro p
      constructor
      · intro hp
        exact hp.elim
      · intro ⟨hp, hpne⟩
        exact hpne hp

theorem makeNonEmptyBinary_spec (valid : Prop) :
    ∃ a, makeNonEmptyBinary = .ok a.finishState ∧ Done valid (fun t => Bytes t ∧ t ≠ []) a := by
  have hsite := ((Site.empty valid 0 255 fun _ _ => False).create
    fun t => Bytes t ∧ t ≠ []).create Bytes
  generalize hL : Function.update (Function.update (fun _ _ => False) Automaton.empty.numStates
    fun t => Bytes t ∧ t ≠ []) Automaton.empty.createState.1.numStates Bytes = L at hsite
  have hzero : L 0 = fun t => Bytes t ∧ t ≠ [] := by
    rw [← hL]
    rfl
  have hone : L 1 = Bytes := by
    rw [← hL]
    rfl
  rcases hsite.accept (q := 1) true (by decide) (.inl (.inr rfl)) with
    ⟨a₁, ha₁, hsite₁, hn₁, _, hacc₁⟩
  have htwo : a₁.numStates = 2 := hn₁
  rcases (hsite₁.work (q := 0) (.inl (.inr rfl)) rfl).edge (d := 1) (by omega) hone 0 255
    (fun _ => by omega) (fun _ hC => hC.elim) with ⟨a₂, log₂, ha₂, hwork₂, hn₂, hacc₂, hlog₂⟩
  have hflag₂ : ∀ p, a₂.isAccept p = a₁.isAccept p := by
    intro p
    unfold Automaton.isAccept
    rw [hacc₂]
  have hsite₂ : Site valid 0 255 a₂ log₂ L fun q => q = 1 := by
    apply hwork₂.close
    · rw [hflag₂, hacc₁, hzero]
      simp [Automaton.isAccept, Automaton.createState, Automaton.empty]
    · intro c t
      rw [hzero]
      simp only [bytes_cons, false_or]
      constructor
      · rintro ⟨hc, _⟩
        exact hc
      · intro hc
        exact ⟨hc, List.cons_ne_nil _ _⟩
    · intro p
      constructor
      · intro hp
        exact ⟨.inr hp, by omega⟩
      · rintro ⟨hp, hpne⟩
        rcases hp with (hp | hp) | hp
        · exact hp.elim
        · exact absurd hp hpne
        · exact hp
  have hrow₂ : logRow log₂ 1 = [] := by
    rw [hlog₂]
    rfl
  rcases (hsite₂.work (q := 1) rfl hrow₂).edge (d := 1) (by omega) hone 0 255
    (fun _ => by omega) (fun _ hC => hC.elim) with ⟨a₃, log₃, ha₃, hwork₃, hn₃, hacc₃, _⟩
  refine ⟨a₃, ?_, log₃, L, ?_, hzero, by omega⟩
  · unfold makeNonEmptyBinary
    rw [show Automaton.empty.createState = (Automaton.empty.createState.1, 0) from rfl]
    dsimp only
    rw [show Automaton.empty.createState.1.createState =
      (Automaton.empty.createState.1.createState.1, 1) from rfl]
    dsimp only
    rw [ha₁, ok_bind, ha₂, ok_bind, ha₃]
    rfl
  · apply hwork₃.close
    · have hflag : a₃.isAccept 1 = a₂.isAccept 1 := by
        unfold Automaton.isAccept
        rw [hacc₃]
      rw [hflag, hflag₂, hacc₁, if_pos rfl, hone]
      simp [bytes_nil]
    · intro c t
      rw [hone, bytes_cons, false_or]
    · intro p
      constructor
      · intro hp
        exact hp.elim
      · rintro ⟨hp, hpne⟩
        exact hpne hp

theorem makeEmpty_accepts (t : List Int) : ¬ makeEmpty.Accepts t := by
  rw [accepts_iff]
  cases t with
  | nil =>
    rw [NfaPaths.accepts_nil, mem_nfa_accept]
    decide
  | cons c t =>
    rw [NfaPaths.accepts_cons]
    intro ⟨d, ⟨u, hu, _⟩, _⟩
    cases hu

/-! ## Strings with zeros behind them -/

theorem below_zeros {m : Nat} {t : List Int} (ht : Bytes t) :
    Below xi (List.replicate m 0) t ↔
      ∃ k, t = List.replicate k 0 ∧ (k < m ∨ k = m ∧ xi = true) := by
  induction m generalizing t with
  | zero =>
    rw [List.replicate_zero, below_nil]
    constructor
    · intro ⟨hnil, hxi⟩
      exact ⟨0, hnil, .inr ⟨rfl, hxi⟩⟩
    · intro ⟨k, hk, hcase⟩
      rcases hcase with hlt | ⟨hzero, hxi⟩
      · exact absurd hlt (Nat.not_lt_zero k)
      · rw [hzero] at hk
        exact ⟨hk, hxi⟩
  | succ m ih =>
    cases t with
    | nil => exact iff_of_true below_cons_nil ⟨0, rfl, .inl (Nat.succ_pos m)⟩
    | cons c t =>
      rw [bytes_cons] at ht
      rw [List.replicate_succ, below_cons, ih ht.2]
      constructor
      · intro hcase
        rcases hcase with hlt | ⟨hc, k, hk, hcase⟩
        · omega
        · refine ⟨k + 1, ?_, ?_⟩
          · rw [hc, hk, List.replicate_succ]
          · exact hcase.imp Nat.succ_lt_succ fun h => ⟨congrArg Nat.succ h.1, h.2⟩
      · intro ⟨k, hk, hcase⟩
        cases k with
        | zero => cases hk
        | succ k =>
          rw [List.replicate_succ, List.cons.injEq] at hk
          exact .inr ⟨hk.1, k, hk.2,
            hcase.imp Nat.lt_of_succ_lt_succ fun h => ⟨Nat.succ.inj h.1, h.2⟩⟩

/-- Between a string and the same string with zeros behind it. -/
theorem between_zeros {ms t : List Int} {m : Nat} (ht : Bytes t) :
    Above mi ms t ∧ Below xi (ms ++ List.replicate m 0) t ↔
      ∃ t', t = ms ++ t' ∧ Above mi [] t' ∧ Below xi (List.replicate m 0) t' := by
  induction ms generalizing t with
  | nil => simp
  | cons b ms ih =>
    cases t with
    | nil => simp [not_above_cons_nil]
    | cons c t =>
      rw [bytes_cons] at ht
      rw [List.cons_append, above_cons, below_cons]
      simp only [List.cons_append, List.cons.injEq, and_assoc, exists_and_left]
      rw [← ih ht.2]
      constructor
      · intro ⟨habove, hbelow⟩
        rcases habove with habove | ⟨heq, habove⟩
        · omega
        · rcases hbelow with hbelow | ⟨_, hbelow⟩
          · omega
          · exact ⟨heq.symm, habove, hbelow⟩
      · intro ⟨heq, habove, hbelow⟩
        exact ⟨.inr ⟨heq.symm, habove⟩, .inr ⟨heq, hbelow⟩⟩

/-- The strings of the branch for zeros behind the lower bound. -/
theorem inside_zeros {t : List Int} {m : Nat} (hm : 0 < m) :
    Inside min mi (some (min ++ List.replicate m 0)) xi t ↔
      ∃ t', t = min.map byteLabel ++ t' ∧ Zeros mi (if xi = true then m else m - 1) t' := by
  have hmax : bytesFrom (min ++ List.replicate m 0) 0 =
      min.map byteLabel ++ List.replicate m 0 := by
    rw [bytesFrom_zero, List.map_append, List.map_replicate]
    rfl
  unfold Inside
  simp only [Option.mem_def, Option.some.injEq, forall_eq']
  rw [hmax, bytesFrom_zero]
  constructor
  · intro ⟨ht, hin⟩
    rcases (between_zeros ht).1 hin with ⟨t', ht', habove, hbelow⟩
    have hbytes : Bytes t' := by
      intro c hc
      apply ht
      rw [ht']
      exact List.mem_append_right _ hc
    rcases (below_zeros hbytes).1 hbelow with ⟨k, hk, hcase⟩
    refine ⟨t', ht', k, ?_, hk, ?_⟩
    · split
      · omega
      · next hxi =>
        have : k < m := hcase.resolve_right fun h => hxi h.2
        omega
    · intro hzero
      rw [above_nil] at habove
      apply habove
      rw [hk, hzero]
      rfl
  · intro ⟨t', ht', k, hk, hzeros, he⟩
    have hbytes : Bytes t' := by
      intro c hc
      rw [hzeros] at hc
      rw [List.eq_of_mem_replicate hc]
      omega
    have ht : Bytes t := by
      intro c hc
      rw [ht'] at hc
      rcases List.mem_append.1 hc with hc | hc
      · exact bytes_map min c hc
      · exact hbytes c hc
    refine ⟨ht, (between_zeros ht).2 ⟨t', ht', ?_, ?_⟩⟩
    · rw [above_nil]
      intro hnil
      apply he
      have hlen := congrArg List.length hzeros
      rw [hnil, List.length_replicate] at hlen
      exact hlen.symm
    · apply (below_zeros hbytes).2
      refine ⟨k, hzeros, ?_⟩
      split at hk
      · next hxi =>
        by_cases hkm : k = m
        · exact .inr ⟨hkm, hxi⟩
        · exact .inl (by omega)
      · exact .inl (by omega)

/-! ## Exactness -/

/-- `s` lies between the bounds, in the unsigned lexicographic order. -/
def InInterval (min : Option (List U8)) (mi : Bool) (max : Option (List U8)) (xi : Bool)
    (s : List U8) : Prop :=
  (∀ m ∈ min, m < s ∨ mi = true ∧ m = s) ∧ ∀ m ∈ max, s < m ∨ xi = true ∧ s = m

/-- The automaton is deterministic, its labels are intervals of bytes, and it
accepts the strings between the bounds. -/
structure IntervalExact (min : Option (List U8)) (mi : Bool) (max : Option (List U8)) (xi : Bool)
    (a : Automaton) : Prop where
  deterministic : a.deterministic = true
  labels : LabelsIn 0 255 a
  accepts : ∀ s : List U8, a.Accepts (s.map byteLabel) ↔ InInterval min mi max xi s

/-- The upper end is open and the lower bound starts with `0xFF`, so that its
first transition to the sink is an interval from `256` to `255`.  It is merged
away where the whole bound is that byte and belongs to the interval. -/
def InvertedEdge (min : Option (List U8)) (mi : Bool) (max : Option (List U8)) : Prop :=
  max = none ∧ ∃ rest, min = some (255 :: rest) ∧ ¬ (rest = [] ∧ mi = true)

theorem inside_iff (min : List U8) (mi : Bool) (omax : Option (List U8)) (xi : Bool)
    (s : List U8) :
    Inside min mi omax xi (s.map byteLabel) ↔ InInterval (some min) mi omax xi s := by
  unfold Inside InInterval
  simp only [Option.mem_def, Option.some.injEq, forall_eq', bytesFrom_zero, above_map, below_map]
  constructor
  · intro ⟨_, habove, hbelow⟩
    exact ⟨habove, hbelow⟩
  · intro ⟨habove, hbelow⟩
    exact ⟨bytes_map s, habove, hbelow⟩

/-- A construction without inverted transitions is exact. -/
theorem Done.exact {omin omax : Option (List U8)} (h : Done True target a)
    (htarget : ∀ s : List U8, target (s.map byteLabel) ↔ InInterval omin mi omax xi s) :
    IntervalExact omin mi omax xi a.finishState := by
  rcases h.finish with ⟨_, hlang, hvalid⟩
  rcases hvalid trivial with ⟨hdet, hlabels⟩
  refine ⟨hdet, hlabels, ?_⟩
  intro s
  rw [hlang, htarget]

theorem makeEmpty_exact {omin omax : Option (List U8)} (h : ∀ s, ¬ InInterval omin mi omax xi s) :
    IntervalExact omin mi omax xi makeEmpty where
  deterministic := rfl
  labels := Automaton.forall_row fun _ hts => nomatch hts
  accepts s := iff_of_false (makeEmpty_accepts _) (h s)

/-- The lower bound without an upper one, from a first byte on that is not
`0xFF` or is the whole bound. -/
theorem generalInterval_open_exact (hmin : min ≠ []) (mi xi : Bool) :
    ∃ a, generalInterval min mi none xi = .ok a ∧
      (∀ s : List U8, a.Accepts (s.map byteLabel) ↔ InInterval (some min) mi none xi s) ∧
      (IntervalExact (some min) mi none xi a ↔ ¬ InvertedEdge (some min) mi none) := by
  cases min with
  | nil => exact absurd rfl hmin
  | cons b rest =>
    have hbounds := byteLabel_bounds b
    rcases generalInterval_open (byteLabel b < 255) (b :: rest) mi xi (b := b) rfl id with
      ⟨a, log, L, d, ha, hsite, hstart, hpos, hd, hnew, hrow⟩
    rcases hsite.finish (fun _ hq => hq) hpos with ⟨hfin, hlang, hvalid⟩
    have hacc : ∀ s : List U8, a.finishState.Accepts (s.map byteLabel) ↔
        InInterval (some (b :: rest)) mi none xi s := by
      intro s
      rw [hlang, hstart, inside_iff]
    refine ⟨a.finishState, ha, hacc, ?_⟩
    by_cases hb : byteLabel b < 255
    · rcases hvalid hb with ⟨hdet, hlabels⟩
      refine iff_of_true ⟨hdet, hlabels, hacc⟩ ?_
      intro ⟨_, rest', hmin', _⟩
      have hcons := Option.some.inj hmin'
      rw [List.cons.injEq] at hcons
      rw [hcons.1] at hb
      exact absurd hb (by decide)
    · have hb255 : b = 255 := by
        apply byteLabel_inj.1
        have h255 : byteLabel 255 = 255 := rfl
        omega
      subst hb255
      by_cases hwhole : rest = [] ∧ mi = true
      · -- the inverted transition is merged into that of the byte itself
        rcases hwhole with ⟨rfl, rfl⟩
        have hcomp : generalInterval [255] true none xi = .ok
            { transitions := [[⟨1, 255, 255⟩], [⟨1, 0, 255⟩]]
              accepts := [false, true]
              curState := none
              deterministic := true } := by
          cases xi <;> decide
        have heq := Outcome.ok.inj (ha.symm.trans hcomp)
        refine iff_of_true ⟨?_, ?_, hacc⟩ ?_
        · rw [heq]
        · rw [heq]
          apply Automaton.forall_row
          decide
        · intro ⟨_, rest', hmin', hnot⟩
          have hcons := Option.some.inj hmin'
          rw [List.cons.injEq] at hcons
          exact hnot ⟨hcons.2.symm, rfl⟩
      · have hd1 : d ≠ 1 := by
          intro h1
          have hlen := hd.1 h1
          apply hwhole
          refine ⟨?_, hlen.2⟩
          apply List.eq_nil_of_length_eq_zero
          have := hlen.1
          rw [List.length_cons] at this
          omega
        refine iff_of_false ?_ fun h => h ⟨rfl, rest, rfl, hwhole⟩
        intro hexact
        rw [hnew hd1] at hrow
        rcases hsite.built.finishState with ⟨hbuilt, hcur, _, _⟩
        have hrow' : a.finishState.row 0 = [⟨2, 255, 255⟩, ⟨1, 256, 255⟩] := by
          rw [hbuilt.row_of_done hcur, hrow]
          decide
        have hlabel := hexact.labels 0 ⟨1, 256, 255⟩ (by rw [hrow']; decide)
        exact absurd hlabel (by decide)

/-- What is claimed of an automaton that is returned. -/
def IntervalOutcome (min : Option (List U8)) (mi : Bool) (max : Option (List U8)) (xi : Bool)
    (a : Automaton) : Prop :=
  (∀ s : List U8, a.Accepts (s.map byteLabel) ↔ InInterval min mi max xi s) ∧
    (IntervalExact min mi max xi a ↔ ¬ InvertedEdge min mi max)

theorem IntervalExact.outcome {omin omax : Option (List U8)}
    (h : IntervalExact omin mi omax xi a) (hedge : ¬ InvertedEdge omin mi omax) :
    IntervalOutcome omin mi omax xi a :=
  ⟨h.accepts, iff_of_true h hedge⟩

/-- The branches for bounds in the right order. -/
theorem interval_lt {m y : List U8} (mi xi : Bool) (h : m < y) :
    ∃ a, (if (m.isPrefixOf y && (y.drop m.length).all fun b => b == 0) = true then
        let maxLength := if (!xi) = true then y.length - 1 else y.length
        if maxLength = m.length then (if (!mi) = true then pure makeEmpty else makeBinary m)
        else zeroTailInterval m mi maxLength
      else generalInterval m mi (some y) xi) = (.ok a : Result Automaton) ∧
      IntervalExact (some m) mi (some y) xi a := by
  by_cases hzeros : (m.isPrefixOf y && (y.drop m.length).all fun b => b == 0) = true
  · rw [if_pos hzeros]
    rw [Bool.and_eq_true, List.isPrefixOf_iff_prefix, List.all_eq_true] at hzeros
    rcases hzeros with ⟨⟨z, rfl⟩, hall⟩
    rw [List.drop_left] at hall
    have hz : z = List.replicate z.length 0 := by
      apply List.eq_replicate_of_mem
      intro b hb
      exact eq_of_beq (hall b hb)
    have hpos : 0 < z.length := by
      rw [List.length_pos_iff]
      intro hnil
      rw [hnil, List.append_nil] at h
      exact List.lt_irrefl m h
    have htarget : ∀ s : List U8, (∃ t', s.map byteLabel = m.map byteLabel ++ t' ∧
        Zeros mi (if xi = true then z.length else z.length - 1) t') ↔
          InInterval (some m) mi (some (m ++ z)) xi s := by
      intro s
      rw [← inside_iff, hz, List.length_replicate, inside_zeros hpos]
    have hsub : (if (!xi) = true then (m ++ z).length - 1 else (m ++ z).length) - m.length =
        if xi = true then z.length else z.length - 1 := by
      rw [List.length_append]
      cases xi with
      | true =>
        rw [if_neg (by decide), if_pos rfl]
        omega
      | false =>
        rw [if_pos (by decide), if_neg (by decide)]
        omega
    dsimp only
    by_cases hone : (if (!xi) = true then (m ++ z).length - 1 else (m ++ z).length) = m.length
    · -- one zero that is not in the interval: only `m` itself is left
      rw [if_pos hone]
      rw [hone, Nat.sub_self] at hsub
      rw [← hsub] at htarget
      have hself : ∀ s : List U8, InInterval (some m) mi (some (m ++ z)) xi s ↔
          mi = true ∧ s.map byteLabel = m.map byteLabel := by
        intro s
        rw [← htarget s]
        constructor
        · intro ⟨t', ht', k, hk, hzeros, he⟩
          rw [Nat.le_zero.1 hk] at hzeros he
          rw [hzeros, List.replicate_zero, List.append_nil] at ht'
          exact ⟨he rfl, ht'⟩
        · intro ⟨hmi, hs⟩
          exact ⟨[], by rw [hs, List.append_nil], 0, le_refl _, rfl, fun _ => hmi⟩
      cases mi with
      | true =>
        rcases makeBinary_spec True m with ⟨a, ha, hdone⟩
        refine ⟨a.finishState, ?_, hdone.exact fun s => ?_⟩
        · rw [if_neg (by decide), ha]
        · rw [hself]
          simp
      | false =>
        refine ⟨makeEmpty, by rw [if_pos (by decide)]; rfl, makeEmpty_exact fun s => ?_⟩
        rw [hself]
        simp
    · rw [if_neg hone]
      rcases zeroTailInterval_spec True m mi
        (if (!xi) = true then (m ++ z).length - 1 else (m ++ z).length) with ⟨a, ha, hdone⟩
      refine ⟨a.finishState, ha, hdone.exact fun s => ?_⟩
      rw [hsub]
      exact htarget s
  · rw [if_neg hzeros]
    rcases generalInterval_closed mi xi True h with ⟨a, ha, hdone⟩
    exact ⟨a.finishState, ha, hdone.exact fun s => inside_iff m mi (some y) xi s⟩

/-- Without bounds in the right order the interval is at most one string. -/
theorem inInterval_same (m : List U8) (mi xi : Bool) (s : List U8) :
    InInterval (some m) mi (some m) xi s ↔ (mi = true ∧ xi = true) ∧ s = m := by
  unfold InInterval
  simp only [Option.mem_def, Option.some.injEq, forall_eq']
  constructor
  · intro ⟨habove, hbelow⟩
    rcases habove with habove | ⟨hmi, habove⟩
    · rcases hbelow with hbelow | ⟨_, hbelow⟩
      · exact absurd hbelow (List.lt_asymm habove)
      · rw [hbelow] at habove
        exact absurd habove (List.lt_irrefl m)
    · rcases hbelow with hbelow | ⟨hxi, hbelow⟩
      · rw [habove] at hbelow
        exact absurd hbelow (List.lt_irrefl s)
      · exact ⟨⟨hmi, hxi⟩, hbelow⟩
  · intro ⟨⟨hmi, hxi⟩, hs⟩
    exact ⟨.inr ⟨hmi, hs.symm⟩, .inr ⟨hxi, hs⟩⟩

theorem inInterval_gt {m y : List U8} (h : y < m) (mi xi : Bool) (s : List U8) :
    ¬ InInterval (some m) mi (some y) xi s := by
  unfold InInterval
  simp only [Option.mem_def, Option.some.injEq, forall_eq']
  intro ⟨habove, hbelow⟩
  have hsm : s < m := by
    rcases hbelow with hbelow | ⟨_, hbelow⟩
    · exact List.lt_trans hbelow h
    · rw [hbelow]
      exact h
  rcases habove with habove | ⟨_, habove⟩
  · exact List.lt_asymm hsm habove
  · rw [habove] at hsm
    exact List.lt_irrefl s hsm

theorem makeBinaryInterval_some (m : List U8) (mi : Bool) (max : Option (List U8)) (xi : Bool) :
    (makeBinaryInterval (some m) mi max xi).Meets (IntervalOutcome (some m) mi max xi)
      fun _ => max = none ∧ xi = false := by
  unfold makeBinaryInterval
  rw [Option.isNone_some, Bool.false_and, if_neg Bool.false_ne_true]
  by_cases hmax : (max.isNone && !xi) = true
  · rw [if_pos hmax]
    rw [Bool.and_eq_true, Option.isNone_iff_eq_none, Bool.not_eq_true'] at hmax
    exact hmax
  rw [if_neg hmax, Bool.or_false, Option.getD_some]
  cases max with
  | none =>
    dsimp only
    by_cases hm : m = []
    · subst hm
      have hedge : ¬ InvertedEdge (some []) mi none := by
        intro ⟨_, rest, hnil, _⟩
        cases hnil
      rw [if_pos rfl]
      cases mi with
      | true =>
        rcases makeAnyBinary_spec True with ⟨a, ha, hdone⟩
        rw [if_pos rfl, ha]
        apply IntervalExact.outcome (hdone.exact fun s => ?_) hedge
        rw [← inside_iff]
        unfold Inside
        simp [bytesFrom, above_nil]
      | false =>
        rcases makeNonEmptyBinary_spec True with ⟨a, ha, hdone⟩
        rw [if_neg Bool.false_ne_true, ha]
        apply IntervalExact.outcome (hdone.exact fun s => ?_) hedge
        rw [← inside_iff]
        unfold Inside
        simp [bytesFrom, above_nil]
    · rw [if_neg hm]
      rcases generalInterval_open_exact hm mi xi with ⟨a, ha, hacc, hexact⟩
      rw [ha]
      exact ⟨hacc, hexact⟩
  | some y =>
    have hedge : ¬ InvertedEdge (some m) mi (some y) := fun h => nomatch h.1
    rcases cmpBytes_spec m y with ⟨hlt, heq, hgt⟩
    dsimp only
    cases hcmp : cmpBytes m y with
    | lt =>
      rcases interval_lt mi xi (hlt.1 hcmp) with ⟨a, ha, hexact⟩
      dsimp only at ha ⊢
      rw [ha]
      exact hexact.outcome hedge
    | eq =>
      cases heq.1 hcmp
      dsimp only
      by_cases hboth : (!mi || !xi) = true
      · rw [if_pos hboth]
        apply IntervalExact.outcome (makeEmpty_exact fun s => ?_) hedge
        rw [inInterval_same]
        intro hs
        rw [hs.1.1, hs.1.2] at hboth
        exact absurd hboth (by decide)
      · rw [if_neg hboth]
        rcases makeBinary_spec True m with ⟨a, ha, hdone⟩
        rw [ha]
        apply IntervalExact.outcome (hdone.exact fun s => ?_) hedge
        rw [inInterval_same, and_iff_right (by simpa using hboth)]
        exact (List.map_injective_iff.2 fun b c h => byteLabel_inj.1 h).eq_iff
    | gt => exact (makeEmpty_exact (inInterval_gt (hgt.1 hcmp) mi xi)).outcome hedge

/-- When a binary interval is exact: unless the upper end is open and the
lower bound starts with `0xFF` without being that byte, inclusive.  Then the
automaton has a transition from `256` to `255`; the strings that it accepts are
those of the interval there, too. -/
theorem makeBinaryInterval_exact_iff (min : Option (List U8)) (mi : Bool)
    (max : Option (List U8)) (xi : Bool) :
    (makeBinaryInterval min mi max xi).Meets
      (fun a =>
        (∀ s : List U8, a.Accepts (s.map byteLabel) ↔ InInterval min mi max xi s) ∧
          (IntervalExact min mi max xi a ↔ ¬ InvertedEdge min mi max))
      (fun _ => min = none ∧ mi = false ∨ max = none ∧ xi = false) := by
  cases min with
  | some m =>
    have h := makeBinaryInterval_some m mi max xi
    cases hcall : makeBinaryInterval (some m) mi max xi with
    | ok a =>
      rw [hcall] at h
      exact h
    | err e =>
      rw [hcall] at h
      exact .inr h
    | panic =>
      rw [hcall] at h
      exact h
  | none =>
    cases mi with
    | false => exact .inl ⟨rfl, rfl⟩
    | true =>
      -- no lower bound is the empty one, inclusive
      have hin : ∀ s, InInterval (some []) true max xi s ↔ InInterval none true max xi s := by
        intro s
        unfold InInterval
        apply and_congr_left
        intro _
        constructor
        · intro _ m hm
          cases hm
        · intro _ m hm
          cases hm
          cases s with
          | nil => exact .inr ⟨rfl, rfl⟩
          | cons b s => exact .inl (List.nil_lt_cons b s)
      have hcall : makeBinaryInterval none true max xi = makeBinaryInterval (some []) true max xi :=
        rfl
      have h := makeBinaryInterval_some [] true max xi
      rw [hcall]
      cases hret : makeBinaryInterval (some []) true max xi with
      | ok a =>
        rw [hret] at h
        have hedge : ¬ InvertedEdge none true max := fun h => nomatch h.2
        have hedge' : ¬ InvertedEdge (some []) true max := by
          intro ⟨_, rest, hnil, _⟩
          cases hnil
        have hacc : ∀ s : List U8, a.Accepts (s.map byteLabel) ↔ InInterval none true max xi s :=
          fun s => (h.1 s).trans (hin s)
        have hexact := h.2.2 hedge'
        exact ⟨hacc, iff_of_true ⟨hexact.deterministic, hexact.labels, hacc⟩ hedge⟩
      | err e =>
        rw [hret] at h
        exact .inr h
      | panic =>
        rw [hret] at h
        exact h

/-- From `[0xFF, 0x00]` on: the initial state has a transition from `256` to
`255`. -/
theorem makeBinaryInterval_inverted :
    ∃ a, makeBinaryInterval (some [255, 0]) true none true = .ok a ∧
      ⟨1, 256, 255⟩ ∈ a.row 0 ∧ ¬ LabelsIn 0 255 a ∧
      ¬ IntervalExact (some [255, 0]) true none true a := by
  have hcomp : makeBinaryInterval (some [255, 0]) true none true = .ok
      { transitions := [[⟨2, 255, 255⟩, ⟨1, 256, 255⟩], [⟨1, 0, 255⟩], [⟨1, 0, 255⟩]]
        accepts := [false, true, false]
        curState := none
        deterministic := true } := by
    decide
  have hrow : LabelsIn 0 255
      { transitions := [[⟨2, 255, 255⟩, ⟨1, 256, 255⟩], [⟨1, 0, 255⟩], [⟨1, 0, 255⟩]]
        accepts := [false, true, false]
        curState := none
        deterministic := true } → False := by
    intro h
    exact absurd (h 0 ⟨1, 256, 255⟩ (by decide)) (by decide)
  exact ⟨_, hcomp, by decide, hrow, fun h => hrow h.labels⟩

end LuceneRust.Util.Automata
