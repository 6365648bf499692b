import LuceneRust.Codecs.Lz4.EncodeSpec
import LuceneRust.Codecs.Lz4Hc.Compressor

/-!
# The match finder of the high-compression compressor

What `insert` and `wider_match` guarantee, whatever the tables hold.

* `Busy` is the state of the tables during a call: every slot of the hash
  table is a position below the first one that is not inserted yet.  The
  chain table is not part of it, because a step along a chain only goes
  down.
* `GoodMatch` is a match that repeats bytes of the window.
* `widerMatch_ok` is the specification of the search.  It needs the searches
  to be made at offsets that do not go back.
-/

namespace LuceneRust.Codecs.Lz4Hc

open RustSem Store Lz4

theorem hash_lt (v : U32) : hash v < 1 <<< hashLog := by
  have hv := (v * 2654435761#32).isLt
  rw [hash, BitVec.toNat_ushiftRight, Nat.shiftRight_eq_div_pow,
    Nat.one_shiftLeft]
  refine Nat.div_lt_of_lt_mul ?_
  rwa [← Nat.pow_add, Nat.sub_add_cancel (by decide)]

theorem and_chainMask_lt (n : Nat) : n &&& chainMask < chainSize := by
  have : n &&& chainMask ≤ chainMask := Nat.and_le_right
  have hpos : chainMask < chainSize := by decide
  omega

/-! ## Counting -/

theorem countForward_ok {b : List U8} {a r limit : Nat} (ha : a ≤ limit)
    (hr : r ≤ a) (hl : limit ≤ b.length) :
    ∃ n, countForward b a r limit = .ok n ∧ a + n ≤ limit ∧
      BytesEq b a r n := by
  obtain ⟨n, hn, hle, heq⟩ := equalRun_spec a r (limit - a) (b := b) (by omega) (by omega)
  exact ⟨n, hn, by omega, heq⟩

theorem countBack_ok {b : List U8} {a r aLow rLow : Nat} (ha : aLow ≤ a)
    (hr : rLow ≤ r) (hab : a ≤ b.length) (hrb : r ≤ b.length) :
    ∃ n, countBack b a r aLow rLow = .ok n ∧ aLow + n ≤ a ∧ rLow + n ≤ r ∧
      BytesEq b (a - n) (r - n) n := by
  rw [countBack, sub_of_le ha, sub_of_le hr]
  simp only [ok_bind]
  obtain ⟨n, hn, hle, heq⟩ := iterate_ok (countBackPass b a r (min (a - aLow) (r - rLow)))
    (fun n => n ≤ min (a - aLow) (r - rLow) ∧ BytesEq b (a - n) (r - n) n)
    (fun n => min (a - aLow) (r - rLow) - n)
    (fun n => n ≤ min (a - aLow) (r - rLow) ∧ BytesEq b (a - n) (r - n) n)
    (by
      rintro n ⟨hn, heq⟩
      unfold countBackPass
      by_cases hlt : n < min (a - aLow) (r - rLow)
      · have hx : a - n - 1 < b.length := by omega
        have hy : r - n - 1 < b.length := by omega
        rw [if_pos hlt, sub_of_le (by omega : n ≤ a),
          sub_of_le (by omega : n ≤ r)]
        simp only [ok_bind]
        rw [sub_of_le (by omega : 1 ≤ a - n), sub_of_le (by omega : 1 ≤ r - n)]
        simp only [ok_bind]
        rw [List.getElem?_eq_getElem hx, List.getElem?_eq_getElem hy]
        simp only [expect_some, ok_bind]
        split_ifs with hxy
        · left
          refine ⟨n + 1, rfl, ⟨by omega, ?_⟩, by omega⟩
          have hone : BytesEq b (a - (n + 1)) (r - (n + 1)) 1 := by
            intro k hk
            have hk0 : k = 0 := by omega
            subst hk0
            rw [show a - (n + 1) + 0 = a - n - 1 by omega,
              show r - (n + 1) + 0 = r - n - 1 by omega,
              List.getElem?_eq_getElem hx, List.getElem?_eq_getElem hy, hxy]
          have happ := hone.append (n := n) (by
            rwa [show a - (n + 1) + 1 = a - n by omega,
              show r - (n + 1) + 1 = r - n by omega])
          rwa [Nat.add_comm 1 n] at happ
        · right
          exact ⟨n, rfl, by omega, heq⟩
      · right
        rw [if_neg hlt]
        exact ⟨n, rfl, hn, heq⟩)
    (min (a - aLow) (r - rLow) + 1) 0
    ⟨Nat.zero_le _, fun k hk => absurd hk (Nat.not_lt_zero k)⟩ (by omega)
  exact ⟨n, hn, by omega, by omega, heq⟩

/-! ## Matches -/

/-- A match that repeats bytes of the window. -/
structure GoodMatch (b : List U8) (dictOff matchLimit : Nat) (m : Match) :
    Prop where
  ref_ge : dictOff ≤ m.reference
  ref_lt : m.reference < m.start
  dist_le : m.start - m.reference ≤ maxDistance
  stop_le : m.start + m.len ≤ matchLimit
  eq : BytesEq b m.start m.reference m.len

/-- A match that a search at `a.ip` returns. -/
structure Found (b : List U8) (a : Lz4HcCompressor.WiderArgs) (longest : Nat)
    (m : Match) : Prop where
  good : GoodMatch b a.windowStart a.highLimit m
  start_ge : a.lowLimit ≤ m.start
  start_le : m.start ≤ a.ip
  stop_ge : a.ip + minMatch ≤ m.start + m.len
  longer : longest < m.len

/-- The arguments of a search. -/
structure ArgsOk (b : List U8) (a : Lz4HcCompressor.WiderArgs) : Prop where
  low_le : a.lowLimit ≤ a.ip
  ip_le : a.ip + minMatch ≤ a.highLimit
  high_le : a.highLimit ≤ b.length

namespace Lz4HcCompressor

/-! ## The tables -/

/-- The tables during a call. -/
structure Busy (c : Lz4HcCompressor) : Prop where
  hash_size : c.hashTable.length = 1 <<< hashLog
  chain_size : c.chainTable.length = chainSize
  base_le : c.base ≤ rebaseLimit
  slots : ∀ p ∈ c.hashTable, p.toNat < c.base + c.nextToUpdate

/-- `insert` brings the tables up to `target`. -/
theorem insert_ok {b : List U8} {c : Lz4HcCompressor} (target : Nat)
    (h : Busy c) (ht : target + 3 ≤ b.length) (hb : target < rebaseLimit) :
    ∃ c', insert b target c = .ok c' ∧ Busy c' ∧
      c'.nextToUpdate = max c.nextToUpdate target := by
  obtain ⟨c', hc', hbusy, hle, hge⟩ := iterate_ok (insertPass b target)
    (fun s => Busy s ∧ s.nextToUpdate ≤ max c.nextToUpdate target ∧
      c.nextToUpdate ≤ s.nextToUpdate)
    (fun s => target - s.nextToUpdate)
    (fun s => Busy s ∧ s.nextToUpdate ≤ max c.nextToUpdate target ∧
      max c.nextToUpdate target ≤ s.nextToUpdate)
    (by
      rintro s ⟨hs, hle, hge⟩
      unfold insertPass
      by_cases hlt : s.nextToUpdate < target
      · left
        have hread := read4_of_le b s.nextToUpdate (by omega)
        generalize fromLeBytes 32 ((b.drop s.nextToUpdate).take 4) = v at hread
        have hh : hash v < s.hashTable.length := by
          rw [hs.hash_size]
          exact hash_lt v
        have hm : (s.base + s.nextToUpdate) &&& chainMask <
            s.chainTable.length := by
          rw [hs.chain_size]
          exact and_chainMask_lt _
        have hpos : (BitVec.ofNat 32 (s.base + s.nextToUpdate)).toNat =
            s.base + s.nextToUpdate := by
          have hlim : rebaseLimit = 2 ^ 30 := by decide
          have := hs.base_le
          rw [BitVec.toNat_ofNat]
          exact Nat.mod_eq_of_lt (by omega)
        rw [if_pos hlt]
        simp only [hread, ok_bind, List.getElem?_eq_getElem hh,
          expect_some, guardOk_pos hm]
        refine ⟨_, rfl, ⟨⟨by simpa using hs.hash_size,
          by simpa using hs.chain_size, hs.base_le, ?_⟩, by simp only; omega,
          by simp only; omega⟩, by simp only; omega⟩
        intro p hp
        simp only at hp ⊢
        rcases List.mem_or_eq_of_mem_set hp with hmem | rfl
        · have := hs.slots p hmem
          omega
        · rw [hpos]
          omega
      · right
        rw [if_neg hlt]
        exact ⟨s, rfl, hs, hle, by omega⟩)
    (target + 1) c ⟨h, Nat.le_max_left _ _, Nat.le_refl _⟩ (by omega)
  exact ⟨c', hc', hbusy, by omega⟩

/-! ## Searching -/

theorem quick_ok {b : List U8} {a : WiderArgs} (ha : ArgsOk b a)
    {longest : Nat} (hl : 0 < longest) (r : Nat) :
    ∃ q, quick b a longest r = .ok q := by
  rw [quick, sub_of_le ha.low_le, ok_bind, sub_of_le (by omega),
    ok_bind]
  cases checkedSub (r + longest) (a.ip - a.lowLimit + 1) with
  | none => exact ⟨_, rfl⟩
  | some rp => exact ⟨_, rfl⟩

theorem widen_ok {b : List U8} {a : WiderArgs} (ha : ArgsOk b a) {r : Nat}
    (hr : r < a.ip) (hw : a.windowStart ≤ r) (hd : a.ip - r ≤ maxDistance)
    (heq : BytesEq b a.ip r minMatch) :
    ∃ m, widen b a r = .ok m ∧ GoodMatch b a.windowStart a.highLimit m ∧
      a.lowLimit ≤ m.start ∧ m.start ≤ a.ip ∧
      a.ip + minMatch ≤ m.start + m.len := by
  obtain ⟨hlow, hip, hhigh⟩ := ha
  obtain ⟨n, hn, hle, hfwd⟩ := countForward_ok (b := b)
    (a := a.ip + minMatch) (r := r + minMatch) hip (by omega) hhigh
  have hall : BytesEq b a.ip r (minMatch + n) := heq.append hfwd
  rw [widen, sub_of_le hlow, ok_bind, hn, ok_bind]
  by_cases hback : 0 < a.ip - a.lowLimit
  · obtain ⟨k, hk, hka, hkr, hbk⟩ := countBack_ok (b := b) (a := a.ip)
      (r := r) hlow hw (by omega) (by omega)
    simp only [if_pos hback, hk, ok_bind]
    rw [sub_of_le (by omega : k ≤ a.ip), sub_of_le (by omega : k ≤ r)]
    simp only [ok_bind]
    refine ⟨_, rfl, ⟨?_, ?_, ?_, ?_, ?_⟩, ?_, ?_, ?_⟩ <;> simp only
    · omega
    · omega
    · omega
    · omega
    · have := hbk.append (n := minMatch + n) (by
        rwa [show a.ip - k + k = a.ip by omega,
          show r - k + k = r by omega])
      rwa [Nat.add_comm] at this
    · omega
    · omega
    · omega
  · simp only [if_neg hback]
    exact ⟨_, rfl, ⟨hw, hr, hd, by simp only; omega, hall⟩,
      hlow, Nat.le_refl _, by simp only; omega⟩

/-- One candidate keeps the best match a match of the search. -/
theorem tryCandidate_ok {b : List U8} {a : WiderArgs} (ha : ArgsOk b a)
    {pattern : U32} (hp : read4 b a.ip = .ok pattern) {r longest₀ : Nat}
    {s : WiderState} (hr : r < a.ip) (hw : a.windowStart ≤ r)
    (hd : a.ip - r ≤ maxDistance) (hpos : 0 < longest₀)
    (hl : longest₀ ≤ s.longest)
    (hs : ∀ m, s.best = some m → Found b a longest₀ m) :
    ∃ l best, tryCandidate b a pattern r s = .ok (l, best) ∧
      longest₀ ≤ l ∧ ∀ m, best = some m → Found b a longest₀ m := by
  obtain ⟨q, hq⟩ := quick_ok ha (by omega : 0 < s.longest) r
  obtain ⟨hlow, hip, hhigh⟩ := ha
  have hread := read4_of_le b r (by simp only [minMatch] at hip; omega)
  rw [tryCandidate, hq, ok_bind]
  cases q with
  | false => exact ⟨_, _, rfl, hl, hs⟩
  | true =>
    simp only [if_true, hread, ok_bind]
    by_cases hv : fromLeBytes 32 ((b.drop r).take 4) = pattern
    · rw [hv] at hread
      obtain ⟨m, hm, hgood, h₁, h₂, h₃⟩ := widen_ok ⟨hlow, hip, hhigh⟩ hr hw
        hd (read4_eq hp hread)
      simp only [if_pos hv, hm, ok_bind]
      by_cases hlonger : s.longest < m.len
      · rw [if_pos hlonger]
        refine ⟨_, _, rfl, by omega, ?_⟩
        intro m' hm'
        cases hm'
        exact ⟨hgood, h₁, h₂, h₃, by omega⟩
      · rw [if_neg hlonger]
        exact ⟨_, _, rfl, hl, hs⟩
    · rw [if_neg hv]
      exact ⟨_, _, rfl, hl, hs⟩

/-- The walk along the chain, which can hold anything. -/
theorem widerLoop_ok {b : List U8} {a : WiderArgs} (pos : Nat)
    (ha : ArgsOk b a) {pattern : U32} (hp : read4 b a.ip = .ok pattern)
    {c : Lz4HcCompressor} (hc : c.chainTable.length = chainSize)
    {longest : Nat} (hpos : pos < c.base + a.ip) (hl : 0 < longest) :
    ∃ best, iterate (widerPass b a pattern
        (c.base + max a.windowStart (a.ip - maxDistance)) c)
        (c.maxAttempts + 1) ⟨pos, c.maxAttempts, longest, none⟩ = .ok best ∧
      ∀ m, best = some m → Found b a longest m := by
  refine iterate_ok _
    (fun s : WiderState => s.pos < c.base + a.ip ∧ longest ≤ s.longest ∧
      ∀ m, s.best = some m → Found b a longest m)
    (fun s => s.attempts)
    (fun best : Option Match => ∀ m, best = some m → Found b a longest m)
    ?_ _ _ ⟨hpos, Nat.le_refl _, fun m hm => by cases hm⟩
    (Nat.lt_succ_self _)
  rintro s ⟨hs, hlong, hbest⟩
  unfold widerPass
  by_cases hgo : c.base + max a.windowStart (a.ip - maxDistance) ≤ s.pos ∧
      0 < s.attempts
  · obtain ⟨l, best, htry, hl', hbest'⟩ := tryCandidate_ok ha hp
      (r := s.pos - c.base) (s := s) (by omega) (by omega) (by omega) hl hlong
      hbest
    have hm : s.pos &&& chainMask < c.chainTable.length := by
      rw [hc]
      exact and_chainMask_lt _
    rw [if_pos hgo, sub_of_le (by omega), ok_bind, htry,
      ok_bind]
    simp only [List.getElem?_eq_getElem hm, expect_some,
      ok_bind]
    split_ifs with hdelta
    · exact Or.inr ⟨_, rfl, hbest'⟩
    · exact Or.inl ⟨_, rfl, ⟨by simp only; omega, hl', hbest'⟩,
        by simp only; omega⟩
  · rw [if_neg hgo]
    exact Or.inr ⟨_, rfl, hbest⟩

/-- `wider_match`: the tables are brought up to `ip`, and a match that is
returned is a good one, longer than `longest`. -/
theorem widerMatch_ok {b : List U8} {a : WiderArgs} (ha : ArgsOk b a)
    {c : Lz4HcCompressor} (hc : Busy c) (hnext : c.nextToUpdate ≤ a.ip)
    (hb : b.length < rebaseLimit) {longest : Nat} (hl : 0 < longest) :
    ∃ best c', widerMatch b a longest c = .ok (best, c') ∧ Busy c' ∧
      c'.nextToUpdate = a.ip ∧ ∀ m, best = some m → Found b a longest m := by
  have hip := ha.ip_le
  have hhigh := ha.high_le
  simp only [minMatch] at hip
  obtain ⟨c', hins, hbusy, hnext'⟩ := insert_ok a.ip (b := b) hc
    (by omega) (by omega)
  have hread := read4_of_le b a.ip (by omega)
  generalize fromLeBytes 32 ((b.drop a.ip).take 4) = pattern at hread
  have hh : hash pattern < c'.hashTable.length := by
    rw [hbusy.hash_size]
    exact hash_lt pattern
  have hslot := hbusy.slots _ (List.getElem_mem hh)
  obtain ⟨best, hloop, hbest⟩ := widerLoop_ok ((c'.hashTable[hash pattern]).toNat) ha hread hbusy.chain_size (by omega) hl
  rw [widerMatch, hins, ok_bind]
  simp only [hread, ok_bind]
  rw [List.getElem?_eq_getElem hh, expect_some, ok_bind,
    hloop, ok_bind]
  exact ⟨best, c', rfl, hbusy, by omega, hbest⟩

end Lz4HcCompressor

end LuceneRust.Codecs.Lz4Hc
