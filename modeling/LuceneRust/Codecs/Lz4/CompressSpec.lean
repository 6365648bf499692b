import LuceneRust.Codecs.Lz4.Compress
import LuceneRust.Codecs.Lz4.EncodeSpec

/-!
# The LZ4 compressor writes a block that is read back

`compress_with_dictionary` never trusts its table: a candidate counts only
when its four bytes are those at the current offset.  `TableSpec` states
what the compressor needs of a table over one window, and
`compressWithDictionary_ok` proves, for every table that satisfies it, that
the output is a block of valid sequences.

The two tables satisfy it.

* A fast table does so from every state: `reset` gives it enough slots, and
  `get` checks the order, the distance and the bytes.
* A high-compression table does so from every state in which the distances
  of the chain are positive (`HighCompressionHashTable.Wf`), as long as the
  casts to `i32` do no harm at the offsets that are scanned (`HcServes`).

`Reachable` is the closure of a new table under earlier compressions.
-/

namespace LuceneRust.Codecs.Lz4

open RustSem Store

/-! ## What the compressor needs of a table -/

/-- What `previous` answers during a compression of the window from `dictOff`
to `stop`, which keeps `Busy`: an occurrence further down. -/
def PreviousOk (T : Type) [HashTable T] (bytes : List U8) (dictOff stop : Nat)
    (Busy : T → Prop) : Prop :=
  ∀ (t : T) (c : Nat), Busy t → dictOff ≤ c → c + lastLiterals + minMatch < stop →
    ∃ r t', HashTable.previous t bytes c = .ok (r, t') ∧ Busy t' ∧
      ∀ c', r = some c' → dictOff ≤ c' ∧ c' < c ∧ BytesEq bytes c c' minMatch

/-- A table serves the window of `bytes` from `dictOff` to `stop`, which is
scanned from `first` on: `Idle` holds between two compressions and `Busy`
during this one. -/
structure TableSpec (T : Type) [HashTable T] (bytes : List U8)
    (dictOff first stop : Nat) (Idle Busy : T → Prop) : Prop where
  start : ∀ (t : T) (dictLen len : Nat), Idle t → first = dictOff + dictLen →
    stop = first + len → lastLiterals + minMatch < len →
    ∃ t₁ t₂, HashTable.reset t bytes dictOff (dictLen + len) = .ok t₁ ∧
      HashTable.initDictionary t₁ bytes dictLen = .ok t₂ ∧ Busy t₂
  get : ∀ (t : T) (off : Nat), Busy t → first ≤ off →
    off + lastLiterals + minMatch < stop →
    ∃ r t', HashTable.get t bytes off = .ok (r, t') ∧ Busy t' ∧
      ∀ c, r = some c → dictOff ≤ c ∧ c < off ∧ off - c < maxDistance ∧
        BytesEq bytes off c minMatch
  previous : PreviousOk T bytes dictOff stop Busy
  idle : ∀ t, Busy t → Idle t

section Generic

variable {T : Type} [HashTable T] {bytes : List U8} {dictOff first stop : Nat}
  {Idle Busy : T → Prop}

/-- A match at `off` that the compressor may emit. -/
structure MatchOk (bytes : List U8) (dictOff limit off matchRef matchLen : Nat) :
    Prop where
  len_ge : minMatch ≤ matchLen
  ref_ge : dictOff ≤ matchRef
  ref_lt : matchRef < off
  dist_lt : off - matchRef < maxDistance
  end_le : off + matchLen ≤ limit
  eq : BytesEq bytes off matchRef matchLen

/-- A candidate whose first four bytes agree is extended by
`common_bytes`. -/
theorem commonBytes_match {limit off c : Nat} (hlimit : limit ≤ bytes.length)
    (hoff : off + minMatch ≤ limit) (hc : dictOff ≤ c) (hco : c < off)
    (hd : off - c < maxDistance) (heq : BytesEq bytes off c minMatch) :
    ∃ n, commonBytes bytes (c + minMatch) (off + minMatch) limit = .ok n ∧
      MatchOk bytes dictOff limit off c (minMatch + n) := by
  obtain ⟨n, hn, _, h₂, heq'⟩ := commonBytes_spec (c + minMatch) (off + minMatch) (by omega) hoff hlimit
  exact ⟨n, hn, by omega, hc, hco, hd, by omega, heq.append heq'.symm⟩

theorem findMatch_ok (matchLimit : Nat)
    (spec : TableSpec T bytes dictOff first stop Idle Busy)
    (hml : matchLimit + lastLiterals + minMatch = stop) {off : Nat} {ht : T}
    (hoff : first ≤ off) (hbusy : Busy ht) :
    ∃ r off' ht', iterate (findMatchPass bytes dictOff matchLimit)
        (matchLimit - off + 1) (off, ht) = .ok (r, off', ht') ∧
      off ≤ off' ∧ Busy ht' ∧
      ∀ c, r = some c → off' < matchLimit ∧ dictOff ≤ c ∧ c < off' ∧
        off' - c < maxDistance ∧ BytesEq bytes off' c minMatch := by
  obtain ⟨⟨r, off', ht'⟩, hr, hpost⟩ := iterate_ok (findMatchPass bytes dictOff matchLimit (T := T))
    (fun s => off ≤ s.1 ∧ Busy s.2) (fun s => matchLimit - s.1)
    (fun r => off ≤ r.2.1 ∧ Busy r.2.2 ∧
      ∀ c, r.1 = some c → r.2.1 < matchLimit ∧ dictOff ≤ c ∧ c < r.2.1 ∧
        r.2.1 - c < maxDistance ∧ BytesEq bytes r.2.1 c minMatch)
    (by
      rintro ⟨o, t⟩ ⟨ho, ht⟩
      simp only at ho ht
      simp only [findMatchPass]
      by_cases hlim : matchLimit ≤ o
      · right
        rw [if_pos hlim]
        exact ⟨_, rfl, ho, ht, fun c hc => by cases hc⟩
      · obtain ⟨r, t', hget, hbusy', hc⟩ :=
          spec.get t o ht (by omega) (by omega)
        rw [if_neg hlim, hget, ok_bind]
        cases r with
        | none =>
          left
          exact ⟨_, rfl, ⟨by simp only; omega, hbusy'⟩, by simp only; omega⟩
        | some c =>
          right
          obtain ⟨h₁, h₂, h₃, h₄⟩ := hc c rfl
          simp only
          rw [guardOk_pos ⟨h₁, h₂⟩, ok_bind]
          refine ⟨_, rfl, ho, hbusy', ?_⟩
          intro c' hc'
          cases hc'
          exact ⟨by simp only; omega, h₁, h₂, h₃, h₄⟩)
    (matchLimit - off + 1) (off, ht) ⟨Nat.le_refl _, hbusy⟩
    (Nat.lt_succ_self _)
  exact ⟨r, off', ht', hr, hpost⟩

theorem bestMatch_ok (previous : PreviousOk T bytes dictOff stop Busy)
    (hstop : stop ≤ bytes.length) {limit off c : Nat} {ht : T}
    (hlimit : limit + lastLiterals = stop) (hoff : off + minMatch < limit)
    (hbusy : Busy ht) (hc : dictOff ≤ c) (hco : c < off)
    (hd : off - c < maxDistance) (heq : BytesEq bytes off c minMatch) :
    ∃ m, bestMatch bytes dictOff off limit c ht = .ok m ∧ Busy m.ht ∧
      MatchOk bytes dictOff limit off m.matchRef m.matchLen := by
  have hlb : limit ≤ bytes.length := by omega
  obtain ⟨n, hn, hm⟩ := commonBytes_match hlb (by omega) hc hco hd heq
  obtain ⟨r, t, hprev, hbusy', hr⟩ := previous ht c hbusy hc (by omega)
  rw [bestMatch, hn, ok_bind]
  simp only [hprev, ok_bind]
  -- The candidate gets smaller with every pass.
  refine iterate_ok _
    (fun s : BetterState T => Busy s.ht ∧
      MatchOk bytes dictOff limit off s.matchRef s.matchLen ∧
      ∀ c, s.r = some c → dictOff ≤ c ∧ c < off ∧
        BytesEq bytes off c minMatch)
    (fun s : BetterState T => s.r.elim 0 (· + 1))
    (fun s : BetterState T => Busy s.ht ∧
      MatchOk bytes dictOff limit off s.matchRef s.matchLen) ?_ _ _
    ⟨hbusy', hm, ?_⟩ ?_
  · rintro ⟨ref, len, r, t⟩ ⟨hb, hmatch, hcand⟩
    simp only at hb hmatch hcand
    simp only [betterMatchPass]
    cases r with
    | none => exact Or.inr ⟨_, rfl, hb, hmatch⟩
    | some cand =>
      obtain ⟨h₁, h₂, h₃⟩ := hcand cand rfl
      simp only
      by_cases hmin : cand < max dictOff (off + 1 - min maxDistance (off + 1))
      · rw [if_pos hmin]
        exact Or.inr ⟨_, rfl, hb, hmatch⟩
      · left
        obtain ⟨k, hk, hmk⟩ := commonBytes_match hlb (by omega) h₁ h₂
          (by omega) h₃
        obtain ⟨r', t', hp, hb', hr'⟩ := previous t cand hb h₁ (by omega)
        rw [if_neg hmin, hk, ok_bind]
        simp only [hp, ok_bind]
        refine ⟨_, rfl, ⟨hb', ?_, ?_⟩, ?_⟩
        · split_ifs with hlonger
          · exact hmk
          · exact hmatch
        · intro c' hc'
          obtain ⟨g₁, g₂, g₃⟩ := hr' c' hc'
          exact ⟨g₁, by omega, h₃.trans g₃⟩
        · cases r' with
          | none => simp
          | some c' =>
            have := (hr' c' rfl).2.1
            simp only [Option.elim_some]
            omega
  · intro c' hc'
    obtain ⟨g₁, g₂, g₃⟩ := hr c' hc'
    exact ⟨g₁, by omega, heq.trans g₃⟩
  · cases r with
    | none => simp
    | some c' =>
      have := (hr c' rfl).2.1
      simp only [Option.elim_some]
      omega

/-- The invariant of the main loop: what is written so far is a run of
valid sequences up to the anchor, and the scan stands at the anchor. -/
structure MainInv (bytes : List U8) (dictOff stop first limit : Nat)
    (out₀ : List U8) (Busy : T → Prop) (s : CompressState T) : Prop where
  busy : Busy s.ht
  anchor : s.anchor = s.off
  first_le : first ≤ s.off
  off_le : s.off ≤ limit
  written : Written bytes dictOff stop first out₀ s.anchor s.out

theorem compressPass_ok (spec : TableSpec T bytes dictOff first stop Idle Busy)
    (hstop : stop ≤ bytes.length) {limit matchLimit : Nat} {out₀ : List U8}
    (hlimit : limit + lastLiterals = stop)
    (hml : matchLimit + minMatch = limit) {s : CompressState T}
    (hinv : MainInv bytes dictOff stop first limit out₀ Busy s) :
    (∃ s', compressPass bytes dictOff limit matchLimit s = .ok (.inl s') ∧
      MainInv bytes dictOff stop first limit out₀ Busy s' ∧
      limit - s'.off < limit - s.off) ∨
    ∃ r, compressPass bytes dictOff limit matchLimit s = .ok (.inr r) ∧
      Busy r.ht ∧ r.anchor ≤ stop ∧
      Written bytes dictOff stop first out₀ r.anchor r.out := by
  obtain ⟨hbusy, hanchor, hso, hol, hw⟩ := hinv
  obtain ⟨r, off', ht', hfind, hoff', hbusy', hr⟩ := findMatch_ok matchLimit spec (by omega) hso hbusy
  rw [compressPass, if_pos hol, hfind, ok_bind]
  cases r with
  | none =>
    right
    exact ⟨_, rfl, hbusy', by simp only; omega, hw⟩
  | some c =>
    left
    obtain ⟨h₁, h₂, h₃, h₄, h₅⟩ := hr c rfl
    obtain ⟨m, hm, hbusy'', hmok⟩ := bestMatch_ok spec.previous hstop hlimit (by omega)
      hbusy' h₂ h₃ h₄ h₅
    have hseq : SequenceOk bytes dictOff stop
        ⟨s.anchor, m.matchRef, off', m.matchLen⟩ := by
      have := hmok.end_le
      exact ⟨by simp only; omega, hmok.len_ge, hmok.ref_ge, hmok.ref_lt,
        hmok.dist_lt, by simp only [lastLiterals] at *; omega, hmok.eq⟩
    obtain ⟨out', henc, hw'⟩ := hw.encodeSequence hseq hstop rfl
    simp only at henc ⊢
    rw [hm, ok_bind, henc, ok_bind]
    have hlen := hmok.len_ge
    have hend := hmok.end_le
    refine ⟨_, rfl, ⟨hbusy'', rfl, by simp only; omega, hend, hw'⟩, ?_⟩
    simp only [minMatch] at *
    omega

/-- The compressor, with any table that serves its window: the output is a
block of valid sequences, and the table is idle again. -/
theorem compressWithDictionary_ok {dictLen len : Nat}
    (spec : lastLiterals + minMatch < len →
      ∃ Busy, TableSpec T bytes dictOff (dictOff + dictLen) stop Idle Busy)
    (hstop : stop ≤ bytes.length) (hsum : stop = dictOff + dictLen + len)
    (hdict : dictLen ≤ maxDistance) {ht : T} (hidle : Idle ht)
    (out : List U8) :
    ∃ ss a' ht', compressWithDictionary bytes dictOff dictLen len out ht =
        .ok (out ++ blockBytes bytes ss a' stop, ht') ∧
      Sequences bytes dictOff stop (dictOff + dictLen) ss a' ∧
      a' ≤ stop ∧ Idle ht' := by
  have hmain : ∃ s, compressMain bytes dictOff dictLen len out ht = .ok s ∧
      Idle s.ht ∧ s.anchor ≤ stop ∧
      Written bytes dictOff stop (dictOff + dictLen) out s.anchor s.out := by
    rw [compressMain]
    by_cases hlen : lastLiterals + minMatch < len
    · obtain ⟨Busy, spec⟩ := spec hlen
      obtain ⟨t₁, t₂, hreset, hinit, hbusy⟩ :=
        spec.start ht dictLen len hidle rfl hsum hlen
      simp only [if_pos hlen, hreset, hinit, ok_bind, ← hsum]
      obtain ⟨r, hr, hb, ha, hss⟩ := iterate_ok (compressPass bytes dictOff (stop - lastLiterals) (stop - lastLiterals - minMatch))
        (MainInv bytes dictOff stop (dictOff + dictLen)
          (stop - lastLiterals) out Busy)
        (fun s => stop - lastLiterals - s.off)
        (fun r => Busy r.ht ∧ r.anchor ≤ stop ∧
          Written bytes dictOff stop (dictOff + dictLen) out r.anchor r.out)
        (fun s hs => compressPass_ok spec hstop (by omega) (by omega) hs)
        (stop - lastLiterals - (dictOff + dictLen) + 2)
        ⟨dictOff + dictLen, dictOff + dictLen, out, t₂⟩
        ⟨hbusy, rfl, Nat.le_refl _, by simp only; omega, .nil⟩
        (by simp only; omega)
      exact ⟨r, hr, spec.idle _ hb, ha, hss⟩
    · simp only [if_neg hlen]
      exact ⟨_, rfl, hidle, by simp only; omega, .nil⟩
  obtain ⟨s, hs, hidle', ha, ss, hss, hout⟩ := hmain
  refine ⟨ss, s.anchor, s.ht, ?_, hss, ha, hidle'⟩
  rw [compressWithDictionary, guardOk_pos hdict, ok_bind, hs,
    ok_bind]
  simp only [← hsum]
  rw [checkedSub_of_le ha, expect_some, ok_bind,
    encodeLastLiterals_ok ha hstop, ok_bind, hout, blockBytes,
    List.append_assoc]

/-! ## What every call keeps -/

/-- A property of a table that every operation keeps when it returns. -/
structure Keeps (T : Type) [HashTable T] (P : T → Prop) : Prop where
  reset : ∀ {t t' : T} {bytes : List U8} {off len : Nat}, P t →
    HashTable.reset t bytes off len = .ok t' → P t'
  initDictionary : ∀ {t t' : T} {bytes : List U8} {dictLen : Nat}, P t →
    HashTable.initDictionary t bytes dictLen = .ok t' → P t'
  get : ∀ {t : T} {bytes : List U8} {off : Nat} {r : Option Nat × T}, P t →
    HashTable.get t bytes off = .ok r → P r.2
  previous : ∀ {t : T} {bytes : List U8} {off : Nat} {r : Option Nat × T},
    P t → HashTable.previous t bytes off = .ok r → P r.2

theorem findMatchPass_keeps {P : T → Prop} (k : Keeps T P)
    {matchLimit : Nat} {s : Nat × T}
    {x : (Nat × T) ⊕ (Option Nat × Nat × T)} (hs : P s.2)
    (h : findMatchPass bytes dictOff matchLimit s = .ok x) :
    Sum.elim (fun s => P s.2) (fun r => P r.2.2) x := by
  simp only [findMatchPass] at h
  split_ifs at h with hlim
  · cases h
    exact hs
  · obtain ⟨⟨r, ht⟩, hget, h⟩ := Outcome.bind_eq_ok.1 h
    have hP : P ht := k.get hs hget
    cases r with
    | none =>
      cases h
      exact hP
    | some c =>
      obtain ⟨u, -, h⟩ := Outcome.bind_eq_ok.1 h
      cases h
      exact hP

theorem betterMatchPass_keeps {P : T → Prop} (k : Keeps T P)
    {off limit min : Nat} {s : BetterState T}
    {x : BetterState T ⊕ BetterState T} (hs : P s.ht)
    (h : betterMatchPass bytes off limit min s = .ok x) :
    Sum.elim (fun s => P s.ht) (fun s => P s.ht) x := by
  unfold betterMatchPass at h
  split at h
  · cases h
    exact hs
  · split_ifs at h with hmin
    · cases h
      exact hs
    · obtain ⟨n, -, h⟩ := Outcome.bind_eq_ok.1 h
      obtain ⟨⟨r, ht⟩, hp, h⟩ := Outcome.bind_eq_ok.1 h
      cases h
      exact k.previous hs hp

theorem compressPass_keeps {P : T → Prop} (k : Keeps T P)
    {limit matchLimit : Nat} {s : CompressState T}
    {x : CompressState T ⊕ CompressState T} (hs : P s.ht)
    (h : compressPass bytes dictOff limit matchLimit s = .ok x) :
    Sum.elim (fun s => P s.ht) (fun s => P s.ht) x := by
  unfold compressPass at h
  split_ifs at h with hlim
  · obtain ⟨⟨found, off, ht⟩, hfind, h⟩ := Outcome.bind_eq_ok.1 h
    have hP : P ht := iterate_inv _ _
      (fun s x hs hx => findMatchPass_keeps k hs hx) _ (s.off, s.ht) hs _ hfind
    cases found with
    | none =>
      cases h
      exact hP
    | some c =>
      obtain ⟨m, hm, h⟩ := Outcome.bind_eq_ok.1 h
      obtain ⟨out, -, h⟩ := Outcome.bind_eq_ok.1 h
      cases h
      obtain ⟨n, -, hm⟩ := Outcome.bind_eq_ok.1 hm
      obtain ⟨⟨r, ht'⟩, hp, hm⟩ := Outcome.bind_eq_ok.1 hm
      exact iterate_inv (fun s : BetterState T => P s.ht) _
        (fun s x hs hx => betterMatchPass_keeps k hs hx) _ _
        (k.previous hP hp) _ hm
  · cases h
    exact hs

/-- A call of the compressor that returns keeps what its table keeps,
whatever its arguments are. -/
theorem compressWithDictionary_keeps {P : T → Prop} (k : Keeps T P)
    {dictLen len : Nat} {out out' : List U8} {ht ht' : T} (hP : P ht)
    (h : compressWithDictionary bytes dictOff dictLen len out ht =
      .ok (out', ht')) : P ht' := by
  obtain ⟨u, -, h⟩ := Outcome.bind_eq_ok.1 h
  obtain ⟨s, hs, h⟩ := Outcome.bind_eq_ok.1 h
  obtain ⟨l, -, h⟩ := Outcome.bind_eq_ok.1 h
  obtain ⟨o, -, h⟩ := Outcome.bind_eq_ok.1 h
  cases h
  simp only [compressMain] at hs
  split_ifs at hs with hlen
  · obtain ⟨t₁, h₁, hs⟩ := Outcome.bind_eq_ok.1 hs
    obtain ⟨t₂, h₂, hs⟩ := Outcome.bind_eq_ok.1 hs
    exact iterate_inv (fun s : CompressState T => P s.ht) _
      (fun s x hs hx => compressPass_keeps k hs hx) _ _
      (k.initDictionary (k.reset hP h₁) h₂) _ hs
  · cases hs
    exact hP

/-- The states of a table that earlier compressions can lead to, from a new
table.  Every earlier call may have been on another buffer. -/
inductive Reachable (new : T) : T → Prop where
  | new : Reachable new new
  | compress {ht ht' : T} {bytes out out' : List U8}
      {dictOff dictLen len : Nat} : Reachable new ht →
      compressWithDictionary bytes dictOff dictLen len out ht =
        .ok (out', ht') → Reachable new ht'

theorem Reachable.keeps {P : T → Prop} (k : Keeps T P) {new ht : T}
    (h : Reachable new ht) (hnew : P new) : P ht := by
  induction h with
  | new => exact hnew
  | compress _ hc ih => exact compressWithDictionary_keeps k ih hc

end Generic

/-- The round trip of one compression: the compressor appends a block to its
output, and the block decodes to the text. -/
def RoundTrips {T : Type} [HashTable T] (bytes : List U8)
    (dictOff dictLen len : Nat) (ht : T) : Prop :=
  ∀ out : List U8, ∃ (block : List U8) (ht' : T),
    compressWithDictionary bytes dictOff dictLen len out ht =
      .ok (out ++ block, ht') ∧
    DecodesTo block bytes dictOff dictLen len

/-- A compression with a table that serves its window round-trips. -/
theorem roundTrips_of_spec {T : Type} [HashTable T] {bytes : List U8}
    {dictOff dictLen len : Nat} {Idle : T → Prop}
    (spec : lastLiterals + minMatch < len → ∃ Busy,
      TableSpec T bytes dictOff (dictOff + dictLen) (dictOff + dictLen + len) Idle Busy)
    (hstop : dictOff + dictLen + len ≤ bytes.length)
    (hdict : dictLen ≤ maxDistance) {ht : T} (hidle : Idle ht) :
    RoundTrips bytes dictOff dictLen len ht := by
  intro out
  obtain ⟨ss, a', ht', hc, hss, -, -⟩ :=
    compressWithDictionary_ok spec hstop rfl hdict hidle out
  exact ⟨_, ht', hc, hss.decodesTo hstop⟩

end LuceneRust.Codecs.Lz4
