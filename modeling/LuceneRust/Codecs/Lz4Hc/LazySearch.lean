import LuceneRust.Codecs.Lz4Hc.Search

/-!
# The lazy search of the high-compression compressor

The invariant of the state machine and the round trip.  `PhaseOk` says what
holds at the three loop heads, for the matches `a`, `b` that are weighed
against each other:

* at `search2` the first match starts at most two bytes before the second,
  so that restoring it leaves room;
* at `search3` the two matches together cover at least eight bytes, so that
  each can keep four, and the second starts at most one byte behind the
  first.

`search2Pass_ok` and `search3Pass_ok` are the two steps.  Every search finds
a match that ends later than the newest one, which is the measure
(`HcState.measure`).  `hcCompress_roundTrips` is the result for every run of
calls on one compressor.
-/

namespace LuceneRust.Codecs.Lz4Hc

open RustSem Store Lz4 Lz4HcCompressor

/-! ## Trimming a match -/

/-- A match whose start is moved forward is still a match. -/
theorem GoodMatch.shift {b : List U8} {dictOff matchLimit : Nat} {m : Match}
    (h : GoodMatch b dictOff matchLimit m) {k : Nat} (hk : k ≤ m.len) :
    GoodMatch b dictOff matchLimit
      ⟨m.start + k, m.reference + k, m.len - k⟩ := by
  obtain ⟨h₁, h₂, h₃, h₄, h₅⟩ := h
  refine ⟨by simp only; omega, by simp only; omega, by simp only; omega,
    by simp only; omega, ?_⟩
  intro i hi
  have := h₅ (k + i) (by simp only at hi; omega)
  simp only
  rwa [Nat.add_assoc, Nat.add_assoc]

/-- A match that is cut off is still a match. -/
theorem GoodMatch.cut {b : List U8} {dictOff matchLimit : Nat} {m : Match}
    (h : GoodMatch b dictOff matchLimit m) {n : Nat} (hn : n ≤ m.len) :
    GoodMatch b dictOff matchLimit { m with len := n } := by
  have hstop := h.stop_le
  exact ⟨h.ref_ge, h.ref_lt, h.dist_le, by simp only; omega, h.eq.mono hn⟩

section Trim

variable {b : List U8} {dictOff matchLimit : Nat} {m1 m2 m3 : Match}

/-- The `OPTIMAL_ML` correction keeps four bytes of both matches. -/
theorem fitMatches_ok (m1 : Match) (h2 : GoodMatch b dictOff matchLimit m2)
    (hle : m1.start ≤ m2.start) (hl1 : minMatch ≤ m1.len)
    (hl2 : minMatch ≤ m2.len) (hroom : m1.start + 8 ≤ m2.start + m2.len) :
    ∃ ml m2', fitMatches m1 m2 (m2.start - m1.start) = .ok (ml, m2') ∧
      GoodMatch b dictOff matchLimit m2' ∧ minMatch ≤ ml ∧ ml ≤ m1.len ∧
      m1.start + ml + minMatch ≤ m2.start + m2.len ∧
      m2'.start = max m2.start (m1.start + ml) ∧
      m2'.start + m2'.len = m2.start + m2.len := by
  have hopt : optimalMl = 18 := by decide
  have hmin : minMatch = 4 := rfl
  have hfit : ∃ ml, fittedMl m1 m2 (m2.start - m1.start)
      (min m1.len optimalMl) = .ok ml ∧ minMatch ≤ ml ∧ ml ≤ m1.len ∧
      m1.start + ml + minMatch ≤ m2.start + m2.len := by
    rw [fittedMl, sub_of_le (by omega), ok_bind]
    split_ifs with hlong
    · rw [sub_of_le (by omega)]
      exact ⟨_, rfl, by omega, by omega, by omega⟩
    · exact ⟨_, rfl, by omega, by omega, by omega⟩
  obtain ⟨ml, hml, h₁, h₂, h₃⟩ := hfit
  rw [fitMatches, hml, ok_bind]
  split_ifs with hgap
  · rw [Match.shift, sub_of_le (by omega)]
    simp only [ok_bind]
    exact ⟨_, _, rfl, h2.shift (by omega), h₁, h₂, h₃, by simp only; omega,
      by simp only; omega⟩
  · exact ⟨_, _, rfl, h2, h₁, h₂, h₃, by omega, rfl⟩

/-- The head of `_Search3`: the first match can be cut at the second. -/
theorem correctSecond_ok (h2 : GoodMatch b dictOff matchLimit m2)
    (hle : m1.start ≤ m2.start) (hl1 : minMatch ≤ m1.len)
    (hl2 : minMatch ≤ m2.len) (hroom : m1.start + 8 ≤ m2.start + m2.len)
    (hnear : m2.start ≤ m1.start + m1.len ∨
      m2.start = m1.start + m1.len + 1 ∧ 5 ≤ m2.len) :
    ∃ m2', correctSecond m1 m2 = .ok m2' ∧
      GoodMatch b dictOff matchLimit m2' ∧
      m2'.start + m2'.len = m2.start + m2.len ∧ m2.start ≤ m2'.start ∧
      m1.start + minMatch ≤ m2'.start ∧ minMatch ≤ m2'.len ∧
      (m2'.start ≤ m1.start + m1.len ∨
        m2'.start = m1.start + m1.len + 1 ∧ 5 ≤ m2'.len) := by
  have hopt : optimalMl = 18 := by decide
  have hmin : minMatch = 4 := rfl
  rw [correctSecond, sub_of_le hle, ok_bind]
  split_ifs with hgap
  · obtain ⟨ml, m2', hfit, hg, h₁, h₂, h₃, h₄, h₅⟩ :=
      fitMatches_ok _ h2 hle hl1 hl2 hroom
    rw [hfit, ok_bind]
    exact ⟨m2', rfl, hg, h₅, by omega, by omega, by omega, by omega⟩
  · exact ⟨m2, rfl, h2, rfl, Nat.le_refl _, by omega, hl2, hnear⟩

theorem cutFirst_ok (h1 : GoodMatch b dictOff matchLimit m1)
    (hl1 : minMatch ≤ m1.len) (hle : m1.start + minMatch ≤ m2.start) :
    ∃ m1', cutFirst m1 m2 = .ok m1' ∧ GoodMatch b dictOff matchLimit m1' ∧
      m1'.start = m1.start ∧ minMatch ≤ m1'.len ∧
      m1'.start + m1'.len ≤ m2.start := by
  unfold cutFirst
  split_ifs with hover
  · rw [sub_of_le (by omega)]
    exact ⟨_, rfl, h1.cut (by omega), rfl, by simp only; omega,
      by simp only; omega⟩
  · exact ⟨m1, rfl, h1, rfl, hl1, by omega⟩

theorem dropSecond_ok (h2 : GoodMatch b dictOff matchLimit m2)
    (h3 : GoodMatch b dictOff matchLimit m3) (hl2 : minMatch ≤ m2.len)
    (hl3 : minMatch ≤ m3.len) (h23 : m2.start ≤ m3.start)
    (hge : m1.start + m1.len ≤ m3.start)
    (hlt : m3.start < m1.start + m1.len + 3) :
    ∃ m0, dropSecond m1 m2 m3 = .ok m0 ∧
      GoodMatch b dictOff matchLimit m0 ∧ minMatch ≤ m0.len ∧
      m1.start + m1.len ≤ m0.start ∧ m0.start ≤ m3.start ∧
      m3.start ≤ m0.start + 2 := by
  unfold dropSecond
  split_ifs with hover
  · rw [sub_of_le (by omega), ok_bind]
    dsimp only
    split_ifs with hshort
    · exact ⟨m3, rfl, h3, hl3, hge, Nat.le_refl _, by omega⟩
    · simp only [minMatch] at *
      exact ⟨_, rfl, h2.shift (by omega), by simp only; omega,
        by simp only; omega, by simp only; omega, by simp only; omega⟩
  · exact ⟨m2, rfl, h2, hl2, by omega, h23, by omega⟩

/-- The first two of three ascending matches, made disjoint. -/
theorem trimFirst_ok (h1 : GoodMatch b dictOff matchLimit m1)
    (h2 : GoodMatch b dictOff matchLimit m2) (hl1 : minMatch ≤ m1.len)
    (hl2 : minMatch ≤ m2.len) (hle : m1.start + minMatch ≤ m2.start) :
    ∃ m1' m2', trimFirst m1 m2 = .ok (m1', m2') ∧
      GoodMatch b dictOff matchLimit m1' ∧
      GoodMatch b dictOff matchLimit m2' ∧ m1'.start = m1.start ∧
      minMatch ≤ m1'.len ∧ minMatch ≤ m2'.len ∧
      m1'.start + m1'.len ≤ m2'.start ∧
      m2'.start + m2'.len = m2.start + m2.len ∧
      (m2'.start ≤ m1.start + m1.len ∨ m2' = m2) := by
  have hmin : minMatch = 4 := rfl
  unfold trimFirst
  split_ifs with hover
  · rw [sub_of_le (by omega), ok_bind]
    split_ifs with hgap
    · obtain ⟨ml, m2', hfit, hg, g₁, g₂, g₃, g₄, g₅⟩ :=
        fitMatches_ok m1 h2 (by omega) hl1 hl2 (by omega)
      rw [hfit, ok_bind]
      exact ⟨_, m2', rfl, h1.cut g₂, hg, rfl, g₁, by omega,
        by simp only; omega, g₅, Or.inl (by omega)⟩
    · exact ⟨_, m2, rfl, h1.cut (by omega), h2, rfl, by simp only; omega, hl2,
        by simp only; omega, rfl, Or.inr rfl⟩
  · exact ⟨m1, m2, rfl, h1, h2, rfl, hl1, hl2, by omega, rfl, Or.inr rfl⟩

end Trim

/-! ## The loop heads -/

/-- The limits of a call over a buffer that ends at `stop`. -/
structure LimitsOk (g : HcArgs) (stop : Nat) : Prop where
  length : g.b.length = stop
  small : stop < rebaseLimit
  mfLimit : g.mfLimit + Lz4Hc.mfLimit = stop
  matchLimit : g.matchLimit + lastLiterals = stop

/-- What holds at a loop head.  `next` is the first offset that is not
inserted: the newest match ends at least four bytes behind it. -/
def PhaseOk (g : HcArgs) (anchor next : Nat) : Phase → Prop
  | .outer ip => anchor ≤ ip ∧ next ≤ ip
  | .search2 m0 m1 =>
    GoodMatch g.b g.dictOff g.matchLimit m0 ∧
    GoodMatch g.b g.dictOff g.matchLimit m1 ∧
    minMatch ≤ m0.len ∧ minMatch ≤ m1.len ∧ anchor ≤ m0.start ∧
    m0.start ≤ m1.start ∧ m1.start ≤ m0.start + 2 ∧
    next + minMatch ≤ m1.start + m1.len
  | .search3 m1 m2 =>
    GoodMatch g.b g.dictOff g.matchLimit m1 ∧
    GoodMatch g.b g.dictOff g.matchLimit m2 ∧
    minMatch ≤ m1.len ∧ minMatch ≤ m2.len ∧ anchor ≤ m1.start ∧
    m1.start ≤ m2.start ∧ m1.start + 8 ≤ m2.start + m2.len ∧
    (m2.start ≤ m1.start + m1.len ∨
      m2.start = m1.start + m1.len + 1 ∧ 5 ≤ m2.len) ∧
    next + minMatch ≤ m2.start + m2.len

/-- The invariant of the state machine. -/
structure Inv (g : HcArgs) (stop start : Nat) (out₀ : List U8)
    (s : HcState) : Prop where
  busy : Busy s.c
  phase : PhaseOk g s.anchor s.c.nextToUpdate s.phase
  anchor_le : s.anchor ≤ stop
  next_le : s.c.nextToUpdate ≤ stop
  written : Written g.b g.dictOff stop start out₀ s.anchor s.out

/-- What every step makes smaller: the newest match ends later and later. -/
def HcState.measure (stop : Nat) (s : HcState) : Nat :=
  match s.phase with
  | .outer ip => 2 * (stop - ip)
  | .search2 _ m1 => 2 * (stop - (m1.start + m1.len)) + 1
  | .search3 _ m2 => 2 * (stop - (m2.start + m2.len)) + 1

section Steps

variable {g : HcArgs} {stop start : Nat} {out₀ : List U8}

/-- Writing a match that starts at or behind the anchor. -/
theorem emit_ok (hg : LimitsOk g stop) {s : HcState} {m : Match}
    (hw : Written g.b g.dictOff stop start out₀ s.anchor s.out)
    (hm : GoodMatch g.b g.dictOff g.matchLimit m) (hl : minMatch ≤ m.len)
    (ha : s.anchor ≤ m.start) :
    ∃ s', emit g s m = .ok s' ∧ s'.anchor = m.start + m.len ∧ s'.c = s.c ∧
      Written g.b g.dictOff stop start out₀ s'.anchor s'.out := by
  have hlim := hg.matchLimit
  have hstop := hm.stop_le
  have hdist := hm.dist_le
  have hseq : SequenceOk g.b g.dictOff stop
      ⟨s.anchor, m.reference, m.start, m.len⟩ := by
    refine ⟨ha, hl, hm.ref_ge, hm.ref_lt, ?_, ?_, hm.eq⟩
    · simp only [Lz4.maxDistance, maxDistance] at *
      omega
    · simp only [lastLiterals] at *
      omega
  obtain ⟨out', henc, hw'⟩ := hw.encodeSequence hseq
    (Nat.le_of_eq hg.length.symm) rfl
  rw [emit, henc, ok_bind]
  exact ⟨_, rfl, rfl, rfl, hw'⟩

/-- What a search behind the match `m` finds. -/
theorem searchAfter_ok (back : Nat) (hg : LimitsOk g stop) {m : Match}
    {c : Lz4HcCompressor} (hc : Busy c) (hl : minMatch ≤ m.len)
    (hnext : c.nextToUpdate + minMatch ≤ m.start + m.len)
    (hback : back ≤ minMatch) :
    ∃ r c', searchAfter g m back c = .ok (r, c') ∧ Busy c' ∧
      c'.nextToUpdate ≤ m.start + m.len ∧
      ∀ m', r = some m' → GoodMatch g.b g.dictOff g.matchLimit m' ∧
        m.start ≤ m'.start ∧ m'.start + back ≤ m.start + m.len ∧
        m.len < m'.len ∧
        m.start + m.len + minMatch ≤ m'.start + m'.len + back ∧
        c'.nextToUpdate + minMatch ≤ m'.start + m'.len := by
  obtain ⟨hlen, hsmall, hmf, hml⟩ := hg
  unfold searchAfter
  split_ifs with hin
  · rw [sub_of_le (by omega), ok_bind]
    have hargs : ArgsOk g.b
        ⟨m.start + m.len - back, m.start, g.matchLimit, g.dictOff⟩ := by
      simp only [Lz4Hc.mfLimit, lastLiterals, minMatch] at *
      exact ⟨by simp only; omega, by simp only [minMatch]; omega,
        by simp only; omega⟩
    obtain ⟨r, c', hw, hbusy, hnext', hr⟩ := widerMatch_ok hargs hc
      (by simp only; omega) (by omega) (by simp only [minMatch] at hl; omega : 0 < m.len)
    simp only at hnext'
    refine ⟨r, c', hw, hbusy, by omega, ?_⟩
    intro m' hm'
    obtain ⟨hgood, h₁, h₂, h₃, h₄⟩ := hr m' hm'
    simp only at h₁ h₂ h₃ hgood
    exact ⟨hgood, h₁, by omega, h₄, by omega, by omega⟩
  · exact ⟨none, c, rfl, hc, by omega, fun m' hm' => by cases hm'⟩

/-- A step keeps the invariant and makes the measure smaller. -/
def StepOk (g : HcArgs) (stop start : Nat) (out₀ : List U8) (s : HcState)
    (r : Result HcState) : Prop :=
  ∃ s', r = .ok s' ∧ Inv g stop start out₀ s' ∧
    s'.measure stop < s.measure stop

theorem search2Pass_ok (hg : LimitsOk g stop) {s : HcState} {m0 m1 : Match}
    (hs : Inv g stop start out₀ s) (hph : s.phase = .search2 m0 m1) :
    StepOk g stop start out₀ s (search2Pass g m0 m1 s) := by
  obtain ⟨hbusy, hphase, hal, hnl, hw⟩ := hs
  rw [hph] at hphase
  obtain ⟨hg0, hg1, hl0, hl1, ha, h01, h10, hnext⟩ := hphase
  have hmeas : s.measure stop = 2 * (stop - (m1.start + m1.len)) + 1 := by
    rw [HcState.measure, hph]
  have hml := hg.matchLimit
  obtain ⟨r, c', hsearch, hbusy', hnone, hsome⟩ := searchAfter_ok 2 hg hbusy hl1
    hnext (by decide)
  rw [search2Pass, hsearch, ok_bind]
  cases r with
  | none =>
    obtain ⟨s', hemit, hanchor, hc, hw'⟩ := emit_ok hg
      (s := { s with c := c' }) hw hg1 hl1 (by simp only; omega)
    have hstop := hg1.stop_le
    simp only [hemit, ok_bind]
    refine ⟨_, rfl, ⟨by simpa [hc] using hbusy', ⟨Nat.le_refl _, ?_⟩, ?_, ?_,
      hw'⟩, ?_⟩
    · simp only [hc, hanchor]
      exact hnone
    · simp only
      omega
    · simp only [hc]
      omega
    · simp only [HcState.measure] at hmeas ⊢
      rw [hmeas]
      omega
  | some m2 =>
    obtain ⟨hg2, h₁, h₂, h₃, h₄, h₅⟩ := hsome m2 rfl
    have hstop2 := hg2.stop_le
    simp only [minMatch, lastLiterals] at *
    -- The kept match: the first one if it was skipped and is restored.
    have hkeep : ∃ m, (if m0.start < m1.start ∧ m2.start < m1.start + m0.len
        then m0 else m1) = m ∧ GoodMatch g.b g.dictOff g.matchLimit m ∧
        4 ≤ m.len ∧ s.anchor ≤ m.start ∧ m.start ≤ m2.start ∧
        (m2.start - m.start < 3 → m2.start ≤ m0.start + 2) ∧
        m2.start ≤ m.start + m.len + 1 := by
      split_ifs with hrestore
      · exact ⟨m0, rfl, hg0, hl0, ha, by omega, by omega, by omega⟩
      · exact ⟨m1, rfl, hg1, hl1, by omega, h₁, by omega, by omega⟩
    obtain ⟨m, hm, hgm, hlm, ham, hle, hshort, hnear⟩ := hkeep
    simp only [hm]
    rw [sub_of_le hle, ok_bind]
    split_ifs with hgap
    · refine ⟨_, rfl, ⟨hbusy', ⟨hg0, hg2, hl0, ?_, ha, ?_, ?_, ?_⟩, hal,
        by simp only; omega, hw⟩, ?_⟩
      · simp only [minMatch]
        omega
      · omega
      · exact hshort hgap
      · simp only [minMatch]
        exact h₅
      · simp only [HcState.measure] at hmeas ⊢
        rw [hmeas]
        omega
    · refine ⟨_, rfl, ⟨hbusy', ⟨hgm, hg2, hlm, ?_, ham, hle, ?_, ?_, ?_⟩, hal,
        by simp only; omega, hw⟩, ?_⟩
      · simp only [minMatch]
        omega
      · omega
      · omega
      · simp only [minMatch]
        exact h₅
      · simp only [HcState.measure] at hmeas ⊢
        rw [hmeas]
        omega

theorem search3Pass_ok (hg : LimitsOk g stop) {s : HcState} {m1 m2 : Match}
    (hs : Inv g stop start out₀ s) (hph : s.phase = .search3 m1 m2) :
    StepOk g stop start out₀ s (search3Pass g m1 m2 s) := by
  obtain ⟨hbusy, hphase, hal, hnl, hw⟩ := hs
  rw [hph] at hphase
  obtain ⟨hg1, hg2, hl1, hl2, ha, hle, hroom, hnear, hnext⟩ := hphase
  have hmeas : s.measure stop = 2 * (stop - (m2.start + m2.len)) + 1 := by
    rw [HcState.measure, hph]
  have hml := hg.matchLimit
  obtain ⟨n, hcorr, hgn, hstopn, hn₁, hn₂, hln, hnearn⟩ :=
    correctSecond_ok hg2 hle hl1 hl2 hroom hnear
  rw [← hstopn] at hmeas hnext
  obtain ⟨r, c', hsearch, hbusy', hnone, hsome⟩ := searchAfter_ok 3 hg hbusy hln
    hnext (by decide)
  rw [search3Pass, hcorr, ok_bind, hsearch, ok_bind]
  cases r with
  | none =>
    obtain ⟨k, hcut, hgk, hk₁, hlk, hk₂⟩ := cutFirst_ok hg1 hl1 hn₂
    obtain ⟨s₁, hemit₁, hanchor₁, hc₁, hw₁⟩ := emit_ok hg
      (s := { s with c := c' }) hw hgk hlk (by simp only; omega)
    obtain ⟨s₂, hemit₂, hanchor₂, hc₂, hw₂⟩ := emit_ok hg hw₁ hgn hln
      (by omega)
    have hstop := hgn.stop_le
    simp only [hcut, hemit₁, hemit₂, ok_bind]
    refine ⟨_, rfl, ⟨by simpa [hc₁, hc₂] using hbusy', ⟨Nat.le_refl _, ?_⟩, ?_,
      ?_, hw₂⟩, ?_⟩
    · simp only [hc₂, hc₁, hanchor₂]
      exact hnone
    · simp only
      omega
    · simp only [hc₂, hc₁]
      omega
    · simp only [HcState.measure] at hmeas ⊢
      rw [hmeas]
      omega
  | some m3 =>
    obtain ⟨hg3, h₁, h₂, h₃, h₄, h₅⟩ := hsome m3 rfl
    have hstop3 := hg3.stop_le
    have hl3 : minMatch ≤ m3.len := by omega
    -- Whatever is kept, the third match is the newest one and ends later.
    have hlater : 2 * (stop - (m3.start + m3.len)) + 1 < s.measure stop := by
      simp only [minMatch, lastLiterals] at *
      rw [hmeas]
      omega
    simp only
    by_cases hclose : m3.start < m1.start + m1.len + 3
    · rw [if_pos hclose]
      by_cases hbehind : m1.start + m1.len ≤ m3.start
      · obtain ⟨k, hdrop, hgk, hlk, hk₁, hk₂, hk₃⟩ := dropSecond_ok hgn hg3 hln
          hl3 h₁ hbehind hclose
        obtain ⟨s₁, hemit₁, hanchor₁, hc₁, hw₁⟩ := emit_ok hg
          (s := { s with c := c' }) hw hg1 hl1 ha
        have hstop1 := hg1.stop_le
        simp only [if_pos hbehind, hdrop, hemit₁, ok_bind]
        refine ⟨_, rfl, ⟨by simpa [hc₁] using hbusy', ⟨hgk, hg3, hlk, hl3, ?_,
          hk₂, hk₃, ?_⟩, ?_, ?_, hw₁⟩, hlater⟩
        · simp only [hanchor₁]
          exact hk₁
        · simp only [hc₁]
          exact h₅
        · simp only
          omega
        · simp only [hc₁]
          omega
      · rw [if_neg hbehind]
        refine ⟨_, rfl, ⟨hbusy', ⟨hg1, hg3, hl1, hl3, ha, ?_, ?_, ?_, h₅⟩, hal,
          by simp only; omega, hw⟩, hlater⟩
        · omega
        · simp only [minMatch] at *
          omega
        · omega
    · obtain ⟨k1, k2, htrim, hgk1, hgk2, hk₁, hlk1, hlk2, hk₂, hk₃, hk₄⟩ :=
        trimFirst_ok hg1 hgn hl1 hln hn₂
      obtain ⟨s₁, hemit₁, hanchor₁, hc₁, hw₁⟩ := emit_ok hg
        (s := { s with c := c' }) hw hgk1 hlk1 (by simp only; omega)
      have hstop1 := hgk1.stop_le
      simp only [if_neg hclose, htrim, hemit₁, ok_bind]
      have hfar : k2.start ≤ m3.start ∧ k2.start + 8 ≤ m3.start + m3.len := by
        simp only [minMatch] at *
        rcases hk₄ with hk₄ | rfl
        · omega
        · omega
      refine ⟨_, rfl, ⟨by simpa [hc₁] using hbusy', ⟨hgk2, hg3, hlk2, hl3, ?_,
        hfar.1, hfar.2, ?_, ?_⟩, ?_, ?_, hw₁⟩, hlater⟩
      · simp only [hanchor₁]
        exact hk₂
      · omega
      · simp only [hc₁]
        exact h₅
      · simp only
        omega
      · simp only [hc₁]
        omega

/-- One step of the state machine. -/
theorem compressPass_ok (hg : LimitsOk g stop) {s : HcState}
    (hs : Inv g stop start out₀ s) :
    (∃ s', compressPass g s = .ok (.inl s') ∧ Inv g stop start out₀ s' ∧
      s'.measure stop < s.measure stop) ∨
    ∃ r, compressPass g s = .ok (.inr r) ∧ Inv g stop start out₀ r := by
  cases hph : s.phase with
  | outer ip =>
    obtain ⟨hbusy, hphase, hal, hnl, hw⟩ := hs
    rw [hph] at hphase
    obtain ⟨ha, hnext⟩ := hphase
    have hmeas : s.measure stop = 2 * (stop - ip) := by
      rw [HcState.measure, hph]
    obtain ⟨hlen, hsmall, hmf, hml⟩ := hg
    simp only [compressPass, hph, outerPass]
    by_cases hin : ip ≤ g.mfLimit
    · left
      have hargs : ArgsOk g.b ⟨ip, ip, g.matchLimit, g.dictOff⟩ := by
        simp only [Lz4Hc.mfLimit, lastLiterals] at *
        exact ⟨Nat.le_refl _, by simp only [minMatch]; omega,
          by simp only; omega⟩
      obtain ⟨r, c', hsearch, hbusy', hnext', hr⟩ := widerMatch_ok hargs hbusy
        hnext (by omega) (by decide : 0 < minMatch - 1)
      simp only [Lz4Hc.mfLimit, lastLiterals] at *
      simp only [if_pos hin, hsearch, ok_bind]
      cases r with
      | none =>
        refine ⟨_, rfl, ⟨hbusy', ⟨by simp only; omega, by simp only; omega⟩,
          hal, by simp only; omega, hw⟩, ?_⟩
        simp only [HcState.measure] at hmeas ⊢
        rw [hmeas]
        omega
      | some m1 =>
        obtain ⟨hgood, h₁, h₂, h₃, h₄⟩ := hr m1 rfl
        simp only [minMatch] at h₁ h₂ h₃ h₄ hgood
        have hstop := hgood.stop_le
        refine ⟨_, rfl, ⟨hbusy', ⟨hgood, hgood, ?_, ?_, ?_, Nat.le_refl _, ?_,
          ?_⟩, hal, by simp only; omega, hw⟩, ?_⟩
        · simp only [minMatch]
          omega
        · simp only [minMatch]
          omega
        · simp only
          omega
        · omega
        · simp only [minMatch]
          omega
        · simp only [HcState.measure] at hmeas ⊢
          rw [hmeas]
          omega
    · right
      rw [if_neg hin]
      exact ⟨s, rfl, hbusy, by rw [hph]; exact ⟨ha, hnext⟩, hal, hnl, hw⟩
  | search2 m0 m1 =>
    left
    obtain ⟨s', hstep, hinv, hlt⟩ := search2Pass_ok hg hs hph
    refine ⟨s', ?_, hinv, hlt⟩
    simp only [compressPass, hph, hstep, ok_bind]
  | search3 m1 m2 =>
    left
    obtain ⟨s', hstep, hinv, hlt⟩ := search3Pass_ok hg hs hph
    refine ⟨s', ?_, hinv, hlt⟩
    simp only [compressPass, hph, hstep, ok_bind]

end Steps

/-! ## Runs of calls -/

/-- The tables between two calls: no slot is a position of a later call. -/
structure Idle (c : Lz4HcCompressor) : Prop where
  hash_size : c.hashTable.length = 1 <<< hashLog
  chain_size : c.chainTable.length = chainSize
  slots : ∀ p ∈ c.hashTable, p.toNat < c.base

theorem idle_new (maxAttempts : Nat) : Idle (new maxAttempts) := by
  refine ⟨by simp [new], by simp [new], ?_⟩
  intro p hp
  rw [List.eq_of_mem_replicate hp]
  exact Nat.one_pos

theorem Idle.start {c : Lz4HcCompressor} (h : Idle c)
    (bufferLen windowStart : Nat) :
    Busy (c.start bufferLen windowStart) ∧
      (c.start bufferLen windowStart).nextToUpdate = windowStart := by
  unfold Lz4HcCompressor.start
  split_ifs with hrebase
  · refine ⟨⟨by simpa using h.hash_size, by simpa using h.chain_size,
      (by decide : 1 ≤ rebaseLimit), ?_⟩, rfl⟩
    intro p hp
    rw [List.eq_of_mem_replicate hp]
    exact Nat.lt_of_lt_of_le Nat.one_pos (Nat.le_add_right _ _)
  · refine ⟨⟨h.hash_size, h.chain_size, by simp only; omega, ?_⟩, rfl⟩
    intro p hp
    have := h.slots p hp
    simp only
    omega

theorem idle_finish {c : Lz4HcCompressor} (h : Busy c) {bufferLen : Nat}
    (hn : c.nextToUpdate ≤ bufferLen) : Idle (c.finish bufferLen) := by
  refine ⟨h.hash_size, h.chain_size, ?_⟩
  intro p hp
  have := h.slots p hp
  show p.toNat < c.base + (bufferLen + chainSize)
  omega

/-- One call from idle tables: it returns, it appends a block of valid
sequences, and the tables are idle again. -/
theorem compressWithDictionary_ok {bytes : List U8} {dictOff dictLen len : Nat}
    (hlen : dictOff + dictLen + len ≤ bytes.length)
    (hsmall : bytes.length < rebaseLimit) {c : Lz4HcCompressor}
    (hc : Idle c) (out : List U8) :
    ∃ ss a' c', compressWithDictionary bytes dictOff dictLen len out c =
        .ok (out ++ blockBytes (bytes.take (dictOff + dictLen + len)) ss a'
          (dictOff + dictLen + len), c') ∧
      Sequences (bytes.take (dictOff + dictLen + len)) dictOff
        (dictOff + dictLen + len) (dictOff + dictLen) ss a' ∧ Idle c' := by
  generalize hstop : dictOff + dictLen + len = stop at hlen ⊢
  have hb : slice bytes 0 stop = some (bytes.take stop) := by
    rw [slice_eq_some (Nat.zero_le _) hlen, List.drop_zero, Nat.sub_zero]
  have hbl : (bytes.take stop).length = stop := by
    rw [List.length_take]
    omega
  rw [compressWithDictionary]
  simp only [hstop, hb, expect_some, ok_bind]
  by_cases hshort : len < mfLimit + 1
  · rw [if_pos hshort, sub_of_le (by omega), ok_bind,
      encodeLastLiterals_ok (by omega) (by omega), ok_bind]
    exact ⟨[], _, c, rfl, rfl, hc⟩
  · have hmf : mfLimit = 12 := rfl
    have hll : lastLiterals = 5 := rfl
    obtain ⟨hbusy₀, hnext₀⟩ := hc.start stop dictOff
    obtain ⟨c₁, hins, hbusy₁, hnext₁⟩ := insert_ok (max (dictOff + dictLen - 3) dictOff) (b := bytes.take stop) hbusy₀ (by omega)
      (by omega)
    rw [if_neg hshort, sub_of_le (by omega), ok_bind,
      sub_of_le (by omega), ok_bind, hins, ok_bind]
    have hg : LimitsOk ⟨bytes.take stop, dictOff, stop - mfLimit,
        stop - lastLiterals⟩ stop :=
      ⟨hbl, by omega, by simp only; omega, by simp only; omega⟩
    obtain ⟨s, hloop, hs⟩ := iterate_ok _
      (Inv ⟨bytes.take stop, dictOff, stop - mfLimit, stop - lastLiterals⟩
        stop (dictOff + dictLen) out)
      (fun s => s.measure stop) _ (fun s hs => compressPass_ok hg hs)
      (2 * stop + 2) ⟨.outer (dictOff + dictLen), dictOff + dictLen, out, c₁⟩
      ⟨hbusy₁, ⟨Nat.le_refl _, by simp only; omega⟩, by simp only; omega,
        by simp only; omega, .nil⟩
      (by simp only [HcState.measure]; omega)
    have hal := hs.anchor_le
    obtain ⟨ss, hss, hout⟩ := hs.written
    rw [hloop, ok_bind, sub_of_le hal, ok_bind,
      encodeLastLiterals_ok hal (by omega), ok_bind, hout]
    refine ⟨ss, s.anchor, _, ?_, hss, idle_finish hs.busy hs.next_le⟩
    rw [blockBytes, List.append_assoc]

/-- The states of a compressor that runs of calls can lead to. -/
inductive Reachable : Lz4HcCompressor → Prop where
  | new (maxAttempts : Nat) : 1 ≤ maxAttempts → Reachable (new maxAttempts)
  | compress {c c' : Lz4HcCompressor} {bytes out out' : List U8}
      {dictOff dictLen len : Nat} : Reachable c →
      dictOff + dictLen + len ≤ bytes.length → bytes.length < 2 ^ 30 →
      compressWithDictionary bytes dictOff dictLen len out c =
        .ok (out', c') → Reachable c'

theorem Reachable.idle {c : Lz4HcCompressor} (h : Reachable c) : Idle c := by
  induction h with
  | new n _ => exact idle_new n
  | @compress c c' bytes out out' dictOff dictLen len _ hlen hsmall hc ih =>
    obtain ⟨ss, a', c'', hok, -, hidle⟩ :=
      compressWithDictionary_ok hlen hsmall ih out
    rw [hok] at hc
    cases hc
    exact hidle

theorem between_take {bytes : List U8} {lo hi stop : Nat} (h : hi ≤ stop) :
    between (bytes.take stop) lo hi = between bytes lo hi := by
  rw [between, between, List.drop_take, List.take_take, Nat.min_eq_left (by omega)]

/-- Every call of a run returns, its block consists of valid sequences, each
starting at the anchor that the one before left, and of the last literals,
and the block decodes to the text. -/
theorem hcCompress_roundTrips {c : Lz4HcCompressor} (hc : Reachable c)
    (bytes : List U8) (dictOff dictLen len : Nat)
    (hlen : dictOff + dictLen + len ≤ bytes.length)
    (hsmall : bytes.length < 2 ^ 30) (out : List U8) :
    ∃ ss a' c', compressWithDictionary bytes dictOff dictLen len out c =
        .ok (out ++ blockBytes (bytes.take (dictOff + dictLen + len)) ss a'
          (dictOff + dictLen + len), c') ∧
      Sequences (bytes.take (dictOff + dictLen + len)) dictOff
        (dictOff + dictLen + len) (dictOff + dictLen) ss a' ∧
      DecodesTo (blockBytes (bytes.take (dictOff + dictLen + len)) ss a'
        (dictOff + dictLen + len)) bytes dictOff dictLen len := by
  obtain ⟨ss, a', c', hok, hss, -⟩ :=
    compressWithDictionary_ok hlen hsmall hc.idle out
  refine ⟨ss, a', c', hok, hss, ?_⟩
  have hdec := hss.decodesTo (by rw [List.length_take]; omega)
  intro input tail dest dOff hin husize hfit hdict
  rw [hdec input tail dest dOff hin husize hfit
    (by rwa [between_take (by omega)]), between_take (Nat.le_refl _)]

/-- Two calls on one compressor, the second with a dictionary. -/
theorem hcCompress_roundTrips_second :
    ∃ c, Reachable c ∧
      ∃ ss a' c', compressWithDictionary (List.replicate 40 7) 4 8 20 [] c =
        .ok ([] ++ blockBytes ((List.replicate 40 7).take (4 + 8 + 20)) ss a'
          (4 + 8 + 20), c') := by
  obtain ⟨ss₁, a₁, c₁, h₁, -⟩ := hcCompress_roundTrips (.new 256 (by decide))
    (List.replicate 30 1) 0 0 30 (by decide) (by decide) []
  obtain ⟨ss₂, a₂, c₂, h₂, -⟩ := hcCompress_roundTrips
    (.compress (.new 256 (by decide)) (by decide) (by decide) h₁)
    (List.replicate 40 7) 4 8 20 (by decide) (by decide) []
  exact ⟨c₁, .compress (.new 256 (by decide)) (by decide) (by decide) h₁,
    ss₂, a₂, c₂, h₂⟩

end LuceneRust.Codecs.Lz4Hc
