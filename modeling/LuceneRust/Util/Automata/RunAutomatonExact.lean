import LuceneRust.Util.Automata.RunAutomatonSpec

/-!
# The run table equals the automaton

`last_live_byte` and `first_live_byte_from` go class by class, and are
compared with a scan of the bytes one by one.  `run_table_exact` puts all
calls together.
-/

namespace LuceneRust.Util.Automata

open RustSem

variable {a : Automaton} {run : RunAutomaton} {q b cls i n : Nat} {live : Nat → Bool}

/-! ## Scans -/

/-- The largest byte that is live. -/
def lastScan (live : Nat → Bool) : Option Nat :=
  (List.range 256).reverse.find? live

/-- The smallest byte from `start` on that is live. -/
def firstScan (live : Nat → Bool) (start : Nat) : Option Nat :=
  (List.range' start (256 - start)).find? live

theorem find?_reverse_range :
    (List.range n).reverse.find? live = some b ↔
      b < n ∧ live b = true ∧ ∀ b', b < b' → b' < n → live b' = false := by
  induction n with
  | zero => simp
  | succ n ih =>
    rw [List.range_succ, List.reverse_append, List.reverse_singleton, List.singleton_append,
      List.find?_cons]
    cases hn : live n with
    | true =>
      dsimp only
      rw [Option.some.injEq]
      constructor
      · intro h
        subst h
        exact ⟨by omega, hn, fun b' hlt hlt' => by omega⟩
      · intro ⟨hlt, hlive, hlater⟩
        by_contra hne
        have := hlater n (by omega) (by omega)
        rw [hn] at this
        cases this
    | false =>
      dsimp only
      rw [ih]
      constructor
      · intro ⟨hlt, hlive, hlater⟩
        refine ⟨by omega, hlive, ?_⟩
        intro b' hb hb'
        rcases Nat.lt_succ_iff_lt_or_eq.1 hb' with hb' | rfl
        · exact hlater b' hb hb'
        · exact hn
      · intro ⟨hlt, hlive, hlater⟩
        have hne : b ≠ n := by
          intro heq
          rw [heq, hn] at hlive
          cases hlive
        exact ⟨by omega, hlive, fun b' hb hb' => hlater b' hb (by omega)⟩

/-! ## Rows and classes -/

/-- The bytes that have a transition out of `q`. -/
def Automaton.liveByte (a : Automaton) (q b : Nat) : Bool :=
  (a.step q (b : Int)).isSome

/-- The classes that hold a byte. -/
def byteClasses (run : RunAutomaton) : Nat :=
  (run.points.takeWhile (· < 256)).length

theorem lt_takeWhile : ∀ {points : List Int} {i : Nat}, points.Pairwise (· < ·) →
    (i < (points.takeWhile (· < 256)).length ↔ ∃ p, points[i]? = some p ∧ p < 256) := by
  intro points
  induction points with
  | nil => simp
  | cons p points ih =>
    intro i hsorted
    rw [List.pairwise_cons] at hsorted
    by_cases hp : p < 256
    · rw [List.takeWhile_cons_of_pos (by simpa using hp), List.length_cons]
      cases i with
      | zero => simp [hp]
      | succ i =>
        rw [Nat.add_lt_add_iff_right, ih hsorted.2, List.getElem?_cons_succ]
    · rw [List.takeWhile_cons_of_neg (by simpa using hp)]
      apply iff_of_false (Nat.not_lt_zero i)
      intro ⟨p', hp', hlt⟩
      rcases List.mem_cons.1 (List.mem_of_getElem? hp') with rfl | hmem
      · exact hp hlt
      · have := hsorted.1 p' hmem
        omega

theorem IsClass.lt_byteClasses (hb : InBounds run) (h : IsClass run.points (b : Int) cls)
    (hlt : b < 256) : cls < byteClasses run := by
  rcases h.le with ⟨p, hp, hle⟩
  exact (lt_takeWhile hb.sorted).2 ⟨p, hp, by omega⟩

theorem InBounds.slice (h : InBounds run) (hq : q < run.size) :
    ∃ row, run.slice q = .ok row ∧ row.length = run.stride ∧
      ∀ i < run.stride, row[i]? = run.transitions[q * run.stride + i]? := by
  have hle : q * run.stride + run.stride ≤ run.transitions.length := by
    rw [h.transitions]
    have : (q + 1) * run.stride ≤ run.size * run.stride := Nat.mul_le_mul_right _ hq
    rwa [Nat.succ_mul] at this
  unfold RunAutomaton.slice
  rw [guardOk_pos hle]
  refine ⟨_, rfl, ?_, ?_⟩
  · rw [List.length_take, List.length_drop]
    omega
  · intro i hi
    rw [List.getElem?_take_of_lt hi, List.getElem?_drop]

/-- The row of a state has the live classes. -/
theorem Tabulates.live_iff (h : Tabulates a run) (hfin : Finished a) (hdet : a.deterministic = true)
    (hq : q < run.size) {row : List (Option Nat)}
    (hrow : ∀ i < run.stride, row[i]? = run.transitions[q * run.stride + i]?)
    (hlt : cls < run.stride) (hclass : IsClass run.points (b : Int) cls) (hb : b < 256) :
    (row.getD cls none).isSome = a.liveByte q b := by
  rw [List.getD_eq_getElem?_getD, hrow cls hlt, h.entry_class hfin hdet hq hclass (byte_le_max hb)]
  rfl

theorem asByte_natCast (hb : b < 256) : RunAutomaton.asByte (b : Int) = b := by
  unfold RunAutomaton.asByte
  omega

/-! ## The last live byte -/

/-- The last byte of a class. -/
theorem class_end (hb : InBounds run) (hnonneg : ∀ p ∈ run.points, 0 ≤ p)
    (hi : i < byteClasses run) :
    ∃ e : Nat, e < 256 ∧ IsClass run.points (e : Int) i ∧
      (match run.points[i + 1]? with
        | none => (pure (some 255) : Result (Option Nat))
        | some next => pure (some (RunAutomaton.asByte (min (next - 1) 255)))) = .ok (some e) ∧
      ∀ b cls : Nat, e < b → b < 256 → IsClass run.points (b : Int) cls → i < cls := by
  rcases (lt_takeWhile hb.sorted).1 hi with ⟨p, hp, hp256⟩
  have hp0 := hnonneg p (List.mem_of_getElem? hp)
  cases hnext : run.points[i + 1]? with
  | none =>
    refine ⟨255, by omega, ?_, rfl, fun b cls hlt hlt' => by omega⟩
    apply isClass_of_next hb.sorted hp (by omega)
    intro p' hp'
    rw [hnext] at hp'
    cases hp'
  | some next =>
    have hpnext : p < next := by
      rcases List.getElem?_eq_some_iff.1 hp with ⟨h₁, rfl⟩
      rcases List.getElem?_eq_some_iff.1 hnext with ⟨h₂, rfl⟩
      exact List.pairwise_iff_getElem.1 hb.sorted i (i + 1) h₁ h₂ (by omega)
    have he : ((min (next - 1) 255).toNat : Int) = min (next - 1) 255 := by omega
    have hlt : (min (next - 1) 255).toNat < 256 := by omega
    refine ⟨(min (next - 1) 255).toNat, hlt, ?_, ?_, ?_⟩
    · rw [he]
      apply isClass_of_next hb.sorted hp (by omega)
      intro p' hp'
      rw [hnext, Option.some.injEq] at hp'
      omega
    · have hbyte := asByte_natCast hlt
      rw [he] at hbyte
      dsimp only
      rw [hbyte]
      rfl
    · intro b cls hbe hb256 hclass
      by_contra hle
      have := hclass.lt (i + 1) next (by omega) hnext
      omega

/-- `last_live_byte`. -/
theorem lastLiveByte_eq {row : List (Option Nat)} (hslice : run.slice q = .ok row) :
    run.lastLiveByte q =
      match (List.range (byteClasses run)).reverse.find? fun i => (row.getD i none).isSome with
      | none => pure none
      | some i =>
        match run.points[i + 1]? with
        | none => pure (some 255)
        | some next => pure (some (RunAutomaton.asByte (min (next - 1) 255))) := by
  rw [RunAutomaton.lastLiveByte, hslice]
  rfl

theorem Tabulates.lastLiveByte (h : Tabulates a run) (hb : InBounds run) (hfin : Finished a)
    (hdet : a.deterministic = true) (hq : q < run.size) :
    run.lastLiveByte q = .ok (lastScan (a.liveByte q)) := by
  rcases hb.slice hq with ⟨row, hslice, -, hrow⟩
  have hlive : ∀ b cls : Nat, b < 256 → IsClass run.points (b : Int) cls →
      (row.getD cls none).isSome = a.liveByte q b := by
    intro b cls hlt hclass
    have hcls : cls < run.stride := by
      rw [hb.stride]
      exact hclass.lt_length
    exact h.live_iff hfin hdet hq hrow hcls hclass hlt
  rw [lastLiveByte_eq hslice]
  unfold lastScan
  cases hfind : (List.range (byteClasses run)).reverse.find? fun i => (row.getD i none).isSome with
  | none =>
    dsimp only
    rw [Outcome.pure_eq, Outcome.ok.injEq, eq_comm, List.find?_eq_none]
    intro b hmem hlb
    rw [List.mem_reverse, List.mem_range] at hmem
    rcases h.classmap b hmem with ⟨cls, -, hclass⟩
    rw [List.find?_eq_none] at hfind
    apply hfind cls
    · rw [List.mem_reverse, List.mem_range]
      exact hclass.lt_byteClasses hb hmem
    · rw [hlive b cls hmem hclass]
      exact hlb
  | some i =>
    dsimp only
    rcases find?_reverse_range.1 hfind with ⟨hi, hrowi, hlater⟩
    rcases class_end hb h.nonneg hi with ⟨e, he, hclass, hres, hbehind⟩
    apply hres.trans
    rw [Outcome.ok.injEq, eq_comm, find?_reverse_range]
    refine ⟨he, ?_, ?_⟩
    · rw [← hlive e i he hclass]
      exact hrowi
    · intro b hlt hb256
      rcases h.classmap b hb256 with ⟨cls, -, hbclass⟩
      rw [← hlive b cls hb256 hbclass]
      exact hlater cls (hbehind b cls hlt hb256 hbclass) (hbclass.lt_byteClasses hb hb256)

/-! ## The first live byte -/

/-- The classes behind `s` that hold a byte. -/
theorem takeWhile_range' {points : List Int} (hsorted : points.Pairwise (· < ·)) :
    ∀ m s, s + m = points.length →
      ((List.range' s m).takeWhile fun i => points.getD i 0 < 256) =
        List.range' s ((points.takeWhile (· < 256)).length - s) := by
  intro m
  induction m with
  | zero =>
    intro s hs
    have hlen := List.Sublist.length_le (List.takeWhile_sublist (fun p : Int => decide (p < 256)) (l := points))
    rw [show (points.takeWhile (· < 256)).length - s = 0 by omega]
    rfl
  | succ m ih =>
    intro s hs
    have hget : points[s]? = some (points.getD s 0) := by
      rw [List.getElem?_eq_getElem (by omega), List.getD_eq_getElem _ _ (by omega)]
    rw [List.range'_succ]
    by_cases hp : points.getD s 0 < 256
    · have hin : s < (points.takeWhile (· < 256)).length := (lt_takeWhile hsorted).2 ⟨_, hget, hp⟩
      rw [List.takeWhile_cons_of_pos (by simpa using hp), ih (s + 1) (by omega),
        show (points.takeWhile (· < 256)).length - s =
          (points.takeWhile (· < 256)).length - (s + 1) + 1 by omega, List.range'_succ]
    · have hout : ¬ s < (points.takeWhile (· < 256)).length := by
        intro hin
        rcases (lt_takeWhile hsorted).1 hin with ⟨p, hp', hlt⟩
        rw [hget, Option.some.injEq] at hp'
        omega
      rw [List.takeWhile_cons_of_neg (by simpa using hp),
        show (points.takeWhile (· < 256)).length - s = 0 by omega]
      rfl

/-- A later byte is in the same class or in a later one. -/
theorem IsClass.mono {points : List Int} {b b' cls cls' : Nat} (h : IsClass points (b : Int) cls)
    (h' : IsClass points (b' : Int) cls') (hle : b ≤ b') : cls ≤ cls' := by
  by_contra hlt
  rcases h.le with ⟨p, hp, hpb⟩
  have := h'.lt cls p (by omega) hp
  omega

/-- `first_live_byte_from`. -/
theorem Tabulates.firstLiveByteFrom (h : Tabulates a run) (hb : InBounds run) (hfin : Finished a)
    (hdet : a.deterministic = true) (hq : q < run.size) (start : Nat) :
    run.firstLiveByteFrom q start = .ok (firstScan (a.liveByte q) start) := by
  unfold RunAutomaton.firstLiveByteFrom
  by_cases hstart : start > 255
  · rw [if_pos hstart]
    unfold firstScan
    rw [show 256 - start = 0 by omega]
    rfl
  · rw [if_neg hstart]
    rcases hb.slice hq with ⟨row, hslice, hlen, hrow⟩
    have hlive : ∀ b cls : Nat, b < 256 → IsClass run.points (b : Int) cls →
        (row.getD cls none).isSome = a.liveByte q b := by
      intro b cls hlt hclass
      have hcls : cls < run.stride := by
        rw [hb.stride]
        exact hclass.lt_length
      exact h.live_iff hfin hdet hq hrow hcls hclass hlt
    rcases h.classmap start (by omega) with ⟨cls, hget, hclass⟩
    have hcls : cls < row.length := by
      rw [hlen, hb.stride]
      exact hclass.lt_length
    have hentry : row[cls]? = some (row.getD cls none) := by
      rw [List.getElem?_eq_getElem hcls, List.getD_eq_getElem _ _ hcls]
    rw [hslice, ok_bind, hget, expect_some, ok_bind, hentry,
      expect_some, ok_bind, hlive start cls (by omega) hclass]
    unfold firstScan
    cases hfirst : a.liveByte q start with
    | true =>
      rw [if_pos rfl, Outcome.pure_eq, Outcome.ok.injEq, eq_comm, List.find?_range'_eq_some]
      refine ⟨hfirst, ?_, fun j hj hlt => by omega⟩
      rw [List.mem_range'_1]
      omega
    | false =>
      have hwindow : cls + 1 + (run.stride - (cls + 1)) = run.points.length := by
        rw [← hb.stride]
        omega
      rw [if_neg Bool.false_ne_true, takeWhile_range' hb.sorted _ _ hwindow]
      change (match (List.range' (cls + 1) (byteClasses run - (cls + 1))).find? _ with
        | none => _
        | some i => _) = _
      -- the bytes of the class of `start` are dead
      have hdead : ∀ b : Nat, start ≤ b → b < 256 → IsClass run.points (b : Int) cls →
          a.liveByte q b = false := by
        intro b _ hlt hbclass
        rw [← hlive b cls hlt hbclass, hlive start cls (by omega) hclass]
        exact hfirst
      cases hfind : (List.range' (cls + 1) (byteClasses run - (cls + 1))).find?
          fun i => (row.getD i none).isSome with
      | none =>
        dsimp only
        rw [Outcome.pure_eq, Outcome.ok.injEq, eq_comm, List.find?_range'_eq_none]
        intro b hge hlt
        rw [List.find?_range'_eq_none] at hfind
        have hb256 : b < 256 := by omega
        rcases h.classmap b hb256 with ⟨cls', -, hbclass⟩
        have hle := hclass.mono hbclass hge
        have hin := hbclass.lt_byteClasses hb hb256
        rcases Nat.eq_or_lt_of_le hle with heq | hlt'
        · rw [← heq] at hbclass
          rw [hdead b hge hb256 hbclass]
          rfl
        · rw [← hlive b cls' hb256 hbclass]
          exact hfind cls' (by omega) (by omega)
      | some i =>
        dsimp only
        rcases List.find?_range'_eq_some.1 hfind with ⟨hrowi, hmem, hbefore⟩
        rw [List.mem_range'_1] at hmem
        rcases (lt_takeWhile hb.sorted).1 (show i < byteClasses run by omega) with ⟨p, hp, hp256⟩
        have hp0 := h.nonneg p (List.mem_of_getElem? hp)
        have hcast : ((p.toNat : Nat) : Int) = p := Int.toNat_of_nonneg hp0
        have hiclass : IsClass run.points ((p.toNat : Nat) : Int) i := by
          rw [hcast]
          apply isClass_of_next hb.sorted hp (le_refl _)
          intro p' hp'
          rcases List.getElem?_eq_some_iff.1 hp with ⟨h₁, hg₁⟩
          rcases List.getElem?_eq_some_iff.1 hp' with ⟨h₂, hg₂⟩
          have := List.pairwise_iff_getElem.1 hb.sorted i (i + 1) h₁ h₂ (by omega)
          omega
        have hgetD : run.points.getD i 0 = p := by
          rw [List.getD_eq_getElem?_getD, hp]
          rfl
        have hlt : start < p.toNat := by
          by_contra hge
          have := hiclass.mono hclass (not_lt.1 hge)
          omega
        rw [hgetD, ← hcast, asByte_natCast (by omega), Outcome.pure_eq, Outcome.ok.injEq, eq_comm,
          List.find?_range'_eq_some]
        refine ⟨?_, ?_, ?_⟩
        · rw [← hlive _ i (by omega) hiclass]
          exact hrowi
        · rw [List.mem_range'_1]
          omega
        · intro b hge hbp
          rcases h.classmap b (by omega) with ⟨cls', -, hbclass⟩
          have hle := hclass.mono hbclass hge
          have hlt' : cls' < i := by
            by_contra hge'
            have := hbclass.lt
            rcases hbclass.le with ⟨p', hp', hle'⟩
            rcases List.getElem?_eq_some_iff.1 hp with ⟨h₁, hg₁⟩
            rcases List.getElem?_eq_some_iff.1 hp' with ⟨h₂, hg₂⟩
            rcases Nat.eq_or_lt_of_le (not_lt.1 hge') with heq | hgt
            · subst heq
              omega
            · have := List.pairwise_iff_getElem.1 hb.sorted i cls' h₁ h₂ hgt
              omega
          rcases Nat.eq_or_lt_of_le hle with heq | hgt
          · rw [← heq] at hbclass
            rw [hdead b hge (by omega) hbclass]
            rfl
          · rw [← hlive b cls' (by omega) hbclass]
            exact hbefore cls' (by omega) hlt'

/-! ## All calls -/

/-- The calls of the run automaton `run` return what the automaton does, for
code points and for bytes. -/
structure TableExact (a : Automaton) (run : RunAutomaton) : Prop where
  size : run.size = max a.numStates 1
  step : ∀ q < run.size, ∀ c, MIN_CODE_POINT ≤ c → c ≤ MAX_CODE_POINT →
    run.step q c = .ok (a.step q c)
  stepByte : ∀ q < run.size, ∀ b : U8, run.stepByte q b = .ok (a.step q (b.toNat : Int))
  runLabels : ∀ s : List Int, (∀ c ∈ s, MIN_CODE_POINT ≤ c ∧ c ≤ MAX_CODE_POINT) →
    ∃ r, run.runLabels s = .ok r ∧ (r = true ↔ a.Accepts s)
  runBytes : ∀ s : List U8, ∃ r, run.runBytes s = .ok r ∧
    (r = true ↔ a.Accepts (s.map fun b => (b.toNat : Int)))
  lastLiveByte : ∀ q < run.size, run.lastLiveByte q = .ok (lastScan (a.liveByte q))
  firstLiveByteFrom : ∀ q < run.size, ∀ start,
    run.firstLiveByteFrom q start = .ok (firstScan (a.liveByte q) start)

/-- The run table stays in bounds for every deterministic automaton and all
labels, and equals the automaton, when that has no negative label, on code
points. -/
theorem run_table_exact {a : Automaton} (hfin : Finished a) (hdet : a.deterministic = true)
    (alphabetSize : Int) :
    (∀ run, RunAutomaton.new a alphabetSize = .ok run →
      (∀ labels, ∃ r, run.runLabels labels = .ok r) ∧ ∀ s, ∃ r, run.runBytes s = .ok r) ∧
    (NoNegativeLabel a →
      ∃ run, RunAutomaton.new a alphabetSize = .ok run ∧ TableExact a run) := by
  constructor
  · intro run hnew
    have hb := new_inBounds hfin hnew
    refine ⟨hb.runLabels, ?_⟩
    intro s
    rw [runBytes_eq]
    exact hb.runLabels _
  · intro hlabels
    rcases new_tabulates hfin hdet hlabels alphabetSize with ⟨run, hnew, h⟩
    have hb := new_inBounds hfin hnew
    refine ⟨run, hnew, ?_⟩
    exact {
      size := h.size
      step := fun q hq c hlo hhi => h.step hb hfin hdet hq hlo hhi
      stepByte := fun q hq b => h.stepByte hfin hdet hq b
      runLabels := fun s hs => h.runLabels hb hfin hdet hs
      runBytes := by
        intro s
        rw [runBytes_eq]
        apply h.runLabels hb hfin hdet
        intro c hc
        rcases List.mem_map.1 hc with ⟨b, -, rfl⟩
        exact ⟨Int.natCast_nonneg _, byte_le_max b.isLt⟩
      lastLiveByte := fun q hq => h.lastLiveByte hb hfin hdet hq
      firstLiveByteFrom := fun q hq start => h.firstLiveByteFrom hb hfin hdet hq start }

/-- One transition on the labels up to ten, and one on no label. -/
def lowTen : Automaton where
  transitions := [[⟨1, 0, 10⟩, ⟨1, 256, 255⟩], []]
  accepts := [false, true]
  curState := none
  deterministic := true

theorem run_table_exact_lowTen :
    ∃ run, RunAutomaton.new lowTen 256 = .ok run ∧ TableExact lowTen run := by
  have hfin : Finished lowTen := by
    apply finished_of_rows <;> decide
  have hlabels : NoNegativeLabel lowTen := by
    apply Automaton.forall_row
    decide
  exact (run_table_exact hfin rfl 256).2 hlabels

/-- A negative label falls into the class of `0`. -/
theorem step_negative :
    Finished lowTen ∧ lowTen.deterministic = true ∧ lowTen.step 0 (-5) = none ∧
      (do
        let run ← RunAutomaton.new lowTen 256
        run.step 0 (-5)) = .ok (some 1) := by
  refine ⟨?_, rfl, rfl, ?_⟩
  · apply finished_of_rows <;> decide
  · decide +kernel

end LuceneRust.Util.Automata
