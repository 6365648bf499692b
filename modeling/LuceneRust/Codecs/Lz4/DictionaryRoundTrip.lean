import LuceneRust.Codecs.Lz4.HashTables
import Mathlib.Data.Nat.Find

/-!
# The LZ4 round trip with a preset dictionary

`compressWithDictionary_roundTrips` is the result for both tables.  For the
high-compression table it says exactly which windows are served.

The other direction is about a buffer on which the scan arrives at the first
offset that is not served (`Lure`).

* `Tracks` is what the table knows on the way: the newest entry of its hash is
  the offset right below the scan.
* `get_unserved` asks the table there.  The candidate is that offset, cast to
  an `i32`: a negative one is no index of the buffer, and the others lie below
  the window.
* `compressMain_ne_ok` puts the two together.  Up to `2 ^ 31` the matches are
  real, but none of them leads across it.
-/

namespace LuceneRust.Codecs.Lz4

open RustSem Store

/-- Every offset that the search for matches may ask the table for is served.
A text of at most nine bytes has none of them. -/
def HcServes (dictOff dictLen len : Nat) : Prop :=
  ∀ off, dictOff + dictLen ≤ off →
    off + lastLiterals + minMatch < dictOff + dictLen + len →
    HighCompressionHashTable.Served dictOff off

namespace HighCompressionHashTable

variable {bytes : List U8} {dictOff first stop upto off : Nat}
  {t t' : HighCompressionHashTable}

/-! ## What the table knows of a scan -/

/-- A table during a scan that is not past `upto`: the last offset that was
added is the entry of its hash. -/
structure Tracks (bytes : List U8) (dictOff upto : Nat)
    (t : HighCompressionHashTable) : Prop where
  wf : Wf t
  base : t.base = dictOff
  next_le : t.next ≤ upto
  newest : dictOff < t.next → ∀ v, read4 bytes (t.next - 1) = .ok v →
    t.hashTable[hash v hashLogHc]? = some (BitVec.ofNat 32 (t.next - 1))

theorem Tracks.setAttempts (h : Tracks bytes dictOff upto t) (n : Nat) :
    Tracks bytes dictOff upto { t with attempts := n } :=
  ⟨h.wf.setCounters _ n, h.base, h.next_le, h.newest⟩

theorem addHash_newest (hwf : Wf t) (h : addHash bytes t off = .ok t') {v : U32}
    (hv : read4 bytes off = .ok v) :
    t'.hashTable[hash v hashLogHc]? = some (BitVec.ofNat 32 off) := by
  obtain ⟨w, hw, h⟩ := bind_eq_ok.1 h
  cases hv.symm.trans hw
  obtain ⟨prev, -, h⟩ := bind_eq_ok.1 h
  obtain ⟨u, -, h⟩ := bind_eq_ok.1 h
  cases h
  simp only
  rw [List.getElem?_set_self]
  rw [hwf.hash_size]
  exact hash_lt v (by decide)

theorem catchUpPass_tracks {x : HighCompressionHashTable ⊕ HighCompressionHashTable}
    (ht : Tracks bytes dictOff upto t) (hoff : off ≤ upto)
    (h : catchUpPass bytes off t = .ok x) :
    Sum.elim (Tracks bytes dictOff upto)
      (fun s => Tracks bytes dictOff upto s ∧ off ≤ s.next) x := by
  unfold catchUpPass at h
  split_ifs at h with hlt
  · obtain ⟨t', hadd, h⟩ := bind_eq_ok.1 h
    have hf := addHash_frame hadd
    cases h
    refine ⟨(hf.wf ht.wf).setCounters _ _, hf.base.trans ht.base, ?_, ?_⟩
    · simp only [hf.next]
      omega
    · intro _ v hv
      simp only [Nat.add_sub_cancel, hf.next] at hv ⊢
      exact addHash_newest ht.wf hadd hv
  · cases h
    exact ⟨ht, by omega⟩

theorem catchUp_tracks {fuel : Nat} (ht : Tracks bytes dictOff upto t)
    (hoff : off ≤ upto) (h : iterate (catchUpPass bytes off) fuel t = .ok t') :
    Tracks bytes dictOff upto t' ∧ off ≤ t'.next :=
  iterate_inv (Tracks bytes dictOff upto) _
    (fun _ _ hs hx => catchUpPass_tracks hs hoff hx) fuel t ht t' h

/-- After `reset` and `init_dictionary` the last offset of the dictionary is
the newest one. -/
theorem initDictionary_tracks {dictLen : Nat} (hwf : Wf t) (hbase : t.base = dictOff)
    (hnext : t.next = dictOff) (hle : dictOff + dictLen ≤ upto)
    (h : initDictionary t bytes dictLen = .ok t') : Tracks bytes dictOff upto t' := by
  obtain ⟨hwf', hbase'⟩ := initDictionary_frame h hwf
  obtain ⟨u, -, h⟩ := bind_eq_ok.1 h
  obtain ⟨t₁, hadds, h⟩ := bind_eq_ok.1 h
  have hframe : ∀ (l : List Nat) (s : HighCompressionHashTable),
      l.foldlM (fun t i => addHash bytes t (t.base + i)) t = .ok s →
      Wf s ∧ s.base = dictOff ∧ s.next = dictOff := by
    intro l s hs
    refine foldlM_inv (fun s => Wf s ∧ s.base = dictOff ∧ s.next = dictOff) ?_ l t s
      ⟨hwf, hbase, hnext⟩ hs
    rintro s i s' ⟨hws, hbs, hns⟩ hadd
    have hf := addHash_frame hadd
    exact ⟨hf.wf hws, hf.base.trans hbs, hf.next.trans hns⟩
  obtain ⟨-, -, hn₁⟩ := hframe _ _ hadds
  cases h
  refine ⟨hwf', hbase'.trans hbase, by simp only; omega, ?_⟩
  intro hlt v hv
  simp only [hn₁] at hlt hv ⊢
  obtain ⟨d, rfl⟩ : ∃ d, dictLen = d + 1 := ⟨dictLen - 1, by omega⟩
  rw [List.range_succ, List.foldlM_append] at hadds
  obtain ⟨t₂, h₂, hlast⟩ := bind_eq_ok.1 hadds
  obtain ⟨hwf₂, hb₂, -⟩ := hframe _ _ h₂
  rw [List.foldlM_cons] at hlast
  obtain ⟨t₃, hadd, hlast⟩ := bind_eq_ok.1 hlast
  cases hlast
  rw [hb₂] at hadd
  exact addHash_newest hwf₂ hadd hv

theorem previous_tracks (stop : Nat) (hstop : stop ≤ bytes.length) :
    PreviousOk HighCompressionHashTable bytes dictOff stop
      (Tracks bytes dictOff upto) := by
  intro t c ht _ hlen
  simp only [lastLiterals, minMatch] at hlen
  obtain ⟨r, n, hprev, hr⟩ := previous_ok bytes c ht.wf (by omega)
  rw [ht.base] at hr
  exact ⟨r, _, hprev, ht.setAttempts n, hr⟩

/-! ## Asking the table -/

theorem get_tracks {r : Option Nat × HighCompressionHashTable}
    (ht : Tracks bytes dictOff upto t) (hoff : off ≤ upto)
    (h : get t bytes off = .ok r) : Tracks bytes dictOff upto r.2 := by
  obtain ⟨t', v, slot, n, hcatch, -, -, hr, -⟩ := get_cases h
  rw [hr]
  exact (catchUp_tracks ht hoff hcatch).1.setAttempts n

/-- Behind a boundary the table answers nothing. -/
theorem get_boundary {r : Option Nat × HighCompressionHashTable}
    (ht : Tracks bytes dictOff upto t) (hoff : off ≤ upto) (hbig : 2 ^ 31 ≤ off)
    (hserved : Served dictOff off) (h : get t bytes off = .ok r) : r.1 = none := by
  obtain ⟨t', v, slot, n, hcatch, -, -, -, ⟨-, hr⟩ | ⟨hslot, hloop⟩⟩ := get_cases h
  · exact hr
  · have hcast := hserved.cast_le hbig
    have hbase := (catchUp_tracks ht hoff hcatch).1.base
    have hleave : getPass bytes v t'.chainTable (asI32 (windowStart t'.base off))
        (slot.toInt, 0) = .ok (.inr (none, 0)) := by
      rw [hbase, getPass, if_neg (by omega)]
    rw [iterate_leave hleave, Outcome.ok.injEq, Prod.mk.injEq] at hloop
    exact hloop.1.symm

theorem read4_panic {i : Nat} (h : bytes.length < i + 4) : read4 bytes i = .panic := by
  rw [read4, slice_eq_none (by omega)]
  rfl

/-- At an offset that is not served the offset below it is a candidate,
although the cast has changed it. -/
theorem get_unserved {v : U32} {r : Option Nat × HighCompressionHashTable}
    (ht : Tracks bytes dictOff off t) (hoff : dictOff ≤ off)
    (hunserved : ¬ Served dictOff off) (hlen : bytes.length < 2 ^ 63)
    (hv : read4 bytes off = .ok v) (hbelow : read4 bytes (off - 1) = .ok v)
    (hcandidate : 0 ≤ asI32 (off - 1) → read4 bytes (asI32 (off - 1)).toNat = .ok v)
    (h : get t bytes off = .ok r) :
    0 ≤ asI32 (off - 1) ∧ r.1 = some (asI32 (off - 1)).toNat := by
  have hmax : maxDistance = 65536 := by decide
  obtain ⟨hbig, hne, hnone⟩ : 2 ^ 31 ≤ off ∧ off ≠ dictOff ∧
      ∀ x, x % 2 ^ 32 = 2 ^ 31 → x ≤ off → x ≤ windowStart dictOff off := by
    rw [Served, not_or, not_or, not_exists] at hunserved
    refine ⟨Nat.not_lt.1 hunserved.1, hunserved.2.1, fun x hx hle => ?_⟩
    exact Nat.not_lt.1 fun hlt => hunserved.2.2 x ⟨hx, hlt, hle⟩
  -- The boundary that the whole window lies behind.
  obtain ⟨x, hx, hle, hlt⟩ : ∃ x, x % 2 ^ 32 = 2 ^ 31 ∧ x ≤ off ∧ off < x + 2 ^ 32 :=
    ⟨off - (off - 2 ^ 31) % 2 ^ 32, by omega, by omega, by omega⟩
  have hxm := hnone x hx hle
  have hm : windowStart dictOff off ≤ off - 1 := by
    rw [windowStart]
    omega
  have hcastm := asI32_of_page hx hxm (by omega)
  have hcast := asI32_of_page hx hle hlt
  have hcastc := asI32_of_page (n := off - 1) hx (by omega) (by omega)
  obtain ⟨t', w, slot, n, hcatch, hw, hslot, -, hor⟩ := get_cases h
  cases hv.symm.trans hw
  obtain ⟨ht', hnext⟩ := catchUp_tracks ht (Nat.le_refl _) hcatch
  have hnext' : t'.next = off := Nat.le_antisymm ht'.next_le hnext
  have hnewest := ht'.newest (by omega) v (by rw [hnext']; exact hbelow)
  rw [hslot, hnext'] at hnewest
  have hcand : slot.toInt = asI32 (off - 1) := by
    rw [Option.some.inj hnewest, asI32]
  rw [hcand, ht'.base] at hor
  obtain ⟨hstale, -⟩ | ⟨-, hloop⟩ := hor
  · omega
  · by_cases hneg : asI32 (off - 1) < 0
    · have hidx : bytes.length < i32AsUsize (asI32 (off - 1)) + 4 := by
        simp only [i32AsUsize, usizeSize]
        omega
      rw [iterate_panic] at hloop
      · cases hloop
      · simp only [getPass]
        rw [if_pos ⟨by omega, by decide⟩, read4_panic hidx, panic_bind]
    · have hpos := Int.not_lt.1 hneg
      refine ⟨hpos, ?_⟩
      have hidx : i32AsUsize (asI32 (off - 1)) = (asI32 (off - 1)).toNat :=
        i32AsUsize_of_nonneg hpos (by omega)
      rw [iterate_leave (r := (some (asI32 (off - 1)).toNat, 0)), Outcome.ok.injEq,
        Prod.mk.injEq] at hloop
      · exact hloop.1.symm
      · simp only [getPass]
        rw [if_pos ⟨by omega, by decide⟩, hidx, hcandidate hpos, ok_bind, if_pos rfl]

/-! ## A scan that does not come back -/

/-- A buffer on which the scan from `first` arrives at `o`, the first offset
that is not served.

The four bytes at `o` are those at the offset below it, and at the offset that
the cast makes of that one, if it is an offset at all.  No match from below
`2 ^ 31` leads across it. -/
structure Lure (bytes : List U8) (dictOff first stop o : Nat) : Prop where
  dict_le : dictOff ≤ first
  first_le : first ≤ o
  lt_stop : o + lastLiterals + minMatch < stop
  stop_le : stop ≤ bytes.length
  length_lt : bytes.length < 2 ^ 63
  served : ∀ off, first ≤ off → off < o → Served dictOff off
  unserved : ¬ Served dictOff o
  repeats : ∃ v, read4 bytes o = .ok v ∧ read4 bytes (o - 1) = .ok v ∧
    (0 ≤ asI32 (o - 1) → read4 bytes (asI32 (o - 1)).toNat = .ok v)
  outside : 0 ≤ asI32 (o - 1) → (asI32 (o - 1)).toNat < dictOff
  held : ∀ off c n, dictOff ≤ off → off < 2 ^ 31 → c < off → BytesEq bytes off c n →
    off + n ≤ 2 ^ 31

namespace Lure

variable {o matchLimit limit : Nat}

theorem big (h : Lure bytes dictOff first stop o) : 2 ^ 31 ≤ o :=
  Nat.not_lt.1 fun hlt => h.unserved (Or.inl hlt)

/-- A match that the scan finds lies below `2 ^ 31`. -/
theorem findMatchPass (h : Lure bytes dictOff first stop o) (hml : o < matchLimit)
    {s : Nat × HighCompressionHashTable}
    {x : (Nat × HighCompressionHashTable) ⊕ (Option Nat × Nat × HighCompressionHashTable)}
    (hfirst : off ≤ s.1) (hoff : first ≤ off) (hle : s.1 ≤ o)
    (ht : Tracks bytes dictOff o s.2)
    (hx : Lz4.findMatchPass bytes dictOff matchLimit s = .ok x) :
    Sum.elim (fun s => off ≤ s.1 ∧ s.1 ≤ o ∧ Tracks bytes dictOff o s.2)
      (fun r => Tracks bytes dictOff o r.2.2 ∧ off ≤ r.2.1 ∧ r.2.1 < 2 ^ 31 ∧
        ∃ c, r.1 = some c ∧ dictOff ≤ c ∧ c < r.2.1 ∧ r.2.1 - c < maxDistance ∧
          BytesEq bytes r.2.1 c minMatch) x := by
  obtain ⟨x₀, t⟩ := s
  have hdict := h.dict_le
  have hstop := h.stop_le
  have hlt := h.lt_stop
  have hbig := h.big
  simp only [lastLiterals, minMatch] at hlt
  simp only at hfirst hle ht
  simp only [Lz4.findMatchPass] at hx
  rw [if_neg (by omega)] at hx
  obtain ⟨⟨r, t'⟩, hget, hx⟩ := bind_eq_ok.1 hx
  have ht' := get_tracks ht hle hget
  by_cases hsmall : x₀ < 2 ^ 31
  · have hin : x₀ + 4 ≤ bytes.length := by omega
    obtain ⟨r₂, t₂, hget₂, -, hr⟩ := get_ok (Or.inl hsmall) ⟨ht.wf, ht.base⟩ (by omega) hin
    cases hget.symm.trans hget₂
    cases r with
    | none =>
      cases hx
      exact ⟨by simp only; omega, by simp only; omega, ht'⟩
    | some c =>
      obtain ⟨u, -, hx⟩ := bind_eq_ok.1 hx
      cases hx
      exact ⟨ht', hfirst, hsmall, c, rfl, hr c rfl⟩
  · by_cases heq : x₀ = o
    · -- The candidate is outside the window, and an assertion says so.
      subst heq
      obtain ⟨v, hv, hbelow, hcandidate⟩ := h.repeats
      obtain ⟨hpos, hr⟩ := get_unserved ht (by omega) h.unserved h.length_lt hv hbelow
        hcandidate hget
      simp only at hr
      subst hr
      obtain ⟨u, hu, -⟩ := bind_eq_ok.1 hx
      have hout := h.outside hpos
      have := (guardOk_eq_ok hu).1
      omega
    · have hnone := get_boundary ht hle (by omega) (h.served x₀ (by omega) (by omega)) hget
      simp only at hnone
      subst hnone
      cases hx
      exact ⟨by simp only; omega, by simp only; omega, ht'⟩

/-- The scan goes on below `2 ^ 31`, or right after the dictionary. -/
theorem compressPass (h : Lure bytes dictOff first stop o)
    (hlimit : limit + lastLiterals = stop) (hml : matchLimit + minMatch = limit)
    {s : CompressState HighCompressionHashTable}
    {x : CompressState HighCompressionHashTable ⊕ CompressState HighCompressionHashTable}
    (hs : first ≤ s.off ∧ s.off ≤ max first (2 ^ 31) ∧ Tracks bytes dictOff o s.ht)
    (hx : Lz4.compressPass bytes dictOff limit matchLimit s = .ok x) :
    Sum.elim (fun s => first ≤ s.off ∧ s.off ≤ max first (2 ^ 31) ∧
      Tracks bytes dictOff o s.ht) (fun _ => False) x := by
  obtain ⟨hfirst, hle, ht⟩ := hs
  have hbig := h.big
  have hfo := h.first_le
  have hdict := h.dict_le
  have hlt := h.lt_stop
  simp only [lastLiterals, minMatch] at hlt hlimit hml
  rw [Lz4.compressPass, if_pos (by omega)] at hx
  obtain ⟨⟨found, off', t'⟩, hfind, hx⟩ := bind_eq_ok.1 hx
  obtain ⟨ht', hoff', hsmall, c, hc, h₁, h₂, h₃, h₄⟩ := iterate_inv
    (fun p : Nat × HighCompressionHashTable =>
      s.off ≤ p.1 ∧ p.1 ≤ o ∧ Tracks bytes dictOff o p.2) _
    (fun p y hp hy => h.findMatchPass (by omega) hp.1 hfirst hp.2.1 hp.2.2 hy)
    _ (s.off, s.ht) ⟨Nat.le_refl _, by simp only; omega, ht⟩ _ hfind
  simp only at ht' hoff' hsmall hc h₂ h₃ h₄
  subst hc
  obtain ⟨m, hm, ht'', hmatch⟩ := bestMatch_ok (previous_tracks stop h.stop_le) h.stop_le
    (show limit + lastLiterals = stop from hlimit) (by simp only [minMatch]; omega) ht' h₁ h₂ h₃ h₄
  simp only [hm, ok_bind] at hx
  obtain ⟨out, -, hx⟩ := bind_eq_ok.1 hx
  cases hx
  have hheld := h.held off' m.matchRef m.matchLen (by omega) hsmall hmatch.ref_lt hmatch.eq
  exact ⟨by simp only; omega, by simp only; omega, ht''⟩

/-- A compression of such a buffer never returns. -/
theorem compressMain_ne_ok {dictLen len : Nat}
    (h : Lure bytes dictOff (dictOff + dictLen) (dictOff + dictLen + len) o)
    (hwf : Wf t) (out : List U8) (s : CompressState HighCompressionHashTable) :
    compressMain bytes dictOff dictLen len out t ≠ .ok s := by
  intro hmain
  have hlt := h.lt_stop
  have hfo := h.first_le
  have hlen : lastLiterals + minMatch < len := by omega
  rw [compressMain] at hmain
  simp only [if_pos hlen] at hmain
  obtain ⟨t₁, h₁, hmain⟩ := bind_eq_ok.1 hmain
  obtain ⟨t₂, h₂, hmain⟩ := bind_eq_ok.1 hmain
  obtain ⟨hwf₁, hb₁, hn₁⟩ := reset_wf hwf h₁
  have ht₂ : Tracks bytes dictOff o t₂ := initDictionary_tracks hwf₁ hb₁ hn₁ hfo h₂
  simp only [lastLiterals, minMatch] at hlt hlen
  exact iterate_inv
    (fun s : CompressState HighCompressionHashTable => dictOff + dictLen ≤ s.off ∧
      s.off ≤ max (dictOff + dictLen) (2 ^ 31) ∧ Tracks bytes dictOff o s.ht)
    (fun _ => False)
    (fun s x hs hx => h.compressPass (by simp only [lastLiterals]; omega)
      (by simp only [lastLiterals, minMatch]; omega) hs hx)
    _ ⟨dictOff + dictLen, dictOff + dictLen, out, t₂⟩
    ⟨Nat.le_refl _, by simp only; omega, ht₂⟩ s hmain

end Lure

theorem not_roundTrips_of_lure {dictLen len o : Nat}
    (h : Lure bytes dictOff (dictOff + dictLen) (dictOff + dictLen + len) o)
    (hwf : Wf t) : ¬ RoundTrips bytes dictOff dictLen len t := by
  intro hround
  obtain ⟨block, t', hc, -⟩ := hround []
  obtain ⟨u, -, hc⟩ := bind_eq_ok.1 hc
  obtain ⟨s, hmain, -⟩ := bind_eq_ok.1 hc
  exact h.compressMain_ne_ok hwf [] s hmain

/-! ## There is such a buffer -/

theorem read4_replicate {n i : Nat} (h : i + 4 ≤ n) :
    read4 (List.replicate n 0) i = .ok 0 := by
  rw [read4_of_le _ _ (by simpa using h), List.drop_replicate,
    List.take_replicate, Nat.min_eq_left (by omega)]
  rfl

theorem read4_set {q i : Nat} (b : U8) (h : q < i) :
    read4 (bytes.set q b) i = read4 bytes i := by
  rw [read4, read4, slice, slice, List.length_set, List.drop_set_of_lt h]

theorem asI32_lt (n : Nat) : asI32 n < 2 ^ 31 := BitVec.toInt_lt

/-- A window that starts at `2 ^ 31` or later: equal bytes. -/
theorem lure_replicate {o : Nat} (hbig : 2 ^ 31 ≤ dictOff) (hstop : stop < 2 ^ 63)
    (hdict : dictOff ≤ first) (hfirst : first ≤ o)
    (hlt : o + lastLiterals + minMatch < stop)
    (hserved : ∀ off, first ≤ off → off < o → Served dictOff off)
    (hunserved : ¬ Served dictOff o) :
    Lure (List.replicate stop 0) dictOff first stop o where
  dict_le := hdict
  first_le := hfirst
  lt_stop := hlt
  stop_le := by rw [List.length_replicate]
  length_lt := by rwa [List.length_replicate]
  served := hserved
  unserved := hunserved
  repeats := by
    have hcast := asI32_lt (o - 1)
    simp only [lastLiterals, minMatch] at hlt
    refine ⟨0, read4_replicate (by omega), read4_replicate (by omega), fun hpos => ?_⟩
    exact read4_replicate (by omega)
  outside := by
    have hcast := asI32_lt (o - 1)
    intro hpos
    omega
  held := fun off c n hoff hsmall _ _ => by omega

/-- A window that starts below `2 ^ 31`: one byte at `2 ^ 31` differs from all
the others, and ends every match. -/
theorem lure_set {o : Nat} (hsmall : dictOff < 2 ^ 31) (hstop : stop < 2 ^ 63)
    (hdict : dictOff ≤ first) (hlen : first ≤ dictOff + maxDistance) (hfirst : first ≤ o)
    (hlt : o + lastLiterals + minMatch < stop)
    (hserved : ∀ off, first ≤ off → off < o → Served dictOff off)
    (hunserved : ¬ Served dictOff o) :
    Lure ((List.replicate stop 0).set (2 ^ 31) 1) dictOff first stop o := by
  have hmax : maxDistance = 65536 := by decide
  have hend := hlt
  simp only [lastLiterals, minMatch] at hend
  -- The first offset whose whole window lies behind `2 ^ 31`.
  have hle : o ≤ 2 ^ 31 + 65535 := by
    by_contra hgt
    obtain hs | hs | ⟨x, hx, hm, hxo⟩ := hserved (2 ^ 31 + 65535) (by omega) (by omega)
    · omega
    · omega
    · rw [windowStart] at hm
      omega
  have hge : 2 ^ 31 + 65535 ≤ o := by
    by_contra hgt
    refine hunserved ?_
    by_cases hlow : o < 2 ^ 31
    · exact Or.inl hlow
    · refine Or.inr (Or.inr ⟨2 ^ 31, by omega, ?_, by omega⟩)
      rw [windowStart]
      omega
  have hneg : asI32 (o - 1) < 0 := by
    have := asI32_of_page (n := o - 1) (x := 2 ^ 31) (by omega) (by omega) (by omega)
    omega
  have hread : ∀ i, 2 ^ 31 < i → i + 4 ≤ stop →
      read4 ((List.replicate stop 0).set (2 ^ 31) 1) i = .ok 0 := fun i hi hle =>
    (read4_set 1 hi).trans (read4_replicate hle)
  refine ⟨hdict, hfirst, hlt, by simp, by simpa using hstop, hserved, hunserved,
    ⟨0, hread o (by omega) (by omega), hread (o - 1) (by omega) (by omega),
      fun hpos => by omega⟩, fun hpos => by omega, ?_⟩
  intro off c n _ hoff hc heq
  by_contra hn
  have hbyte := heq (2 ^ 31 - off) (by omega)
  rw [Nat.add_sub_of_le (by omega), List.getElem?_set_self (by simp; omega),
    List.getElem?_set_ne (by omega), List.getElem?_replicate_of_lt (by omega)] at hbyte
  cases hbyte

/-- Where some offset is not served, a buffer leads the scan to the first one. -/
theorem exists_lure {dictLen len : Nat} (hdict : dictLen ≤ maxDistance)
    (hstop : dictOff + dictLen + len < 2 ^ 63) (h : ¬ HcServes dictOff dictLen len) :
    ∃ bytes o, bytes.length = dictOff + dictLen + len ∧
      Lure bytes dictOff (dictOff + dictLen) (dictOff + dictLen + len) o := by
  classical
  have hex : ∃ off, dictOff + dictLen ≤ off ∧
      off + lastLiterals + minMatch < dictOff + dictLen + len ∧ ¬ Served dictOff off := by
    simpa only [HcServes, not_forall, exists_prop] using h
  obtain ⟨hfirst, hlt, hunserved⟩ := Nat.find_spec hex
  have hserved : ∀ off, dictOff + dictLen ≤ off → off < Nat.find hex →
      Served dictOff off := by
    intro off hoff hless
    by_contra hno
    exact Nat.find_min hex hless ⟨hoff, by omega, hno⟩
  rcases Nat.lt_or_ge dictOff (2 ^ 31) with hsmall | hbig
  · exact ⟨_, _, by rw [List.length_set, List.length_replicate],
      lure_set hsmall hstop (by omega) (by omega) hfirst hlt hserved hunserved⟩
  · exact ⟨_, _, List.length_replicate,
      lure_replicate hbig hstop (by omega) hfirst hlt hserved hunserved⟩

end HighCompressionHashTable

/-! ## The round trip -/

/-- The round trip from every reachable state of a table.  The fast table
has no condition.  The high-compression table needs `HcServes`, which speaks of
the three arguments alone: without it there is a buffer, no longer than a Rust
buffer can be, on which a new table panics. -/
theorem compressWithDictionary_roundTrips (dictOff dictLen len : Nat)
    (hdict : dictLen ≤ maxDistance) :
    (∀ (bytes : List U8) (ht : FastCompressionHashTable),
      dictOff + dictLen + len ≤ bytes.length →
      Reachable FastCompressionHashTable.new ht →
      RoundTrips bytes dictOff dictLen len ht) ∧
    (dictOff + dictLen + len < 2 ^ 63 →
      ((∀ (bytes : List U8) (ht : HighCompressionHashTable),
        dictOff + dictLen + len ≤ bytes.length →
        Reachable HighCompressionHashTable.new ht →
        RoundTrips bytes dictOff dictLen len ht) ↔ HcServes dictOff dictLen len)) := by
  refine ⟨fun bytes ht hlen _ => ?_, fun hstop =>
    ⟨fun hround => ?_, fun hserves bytes ht hlen hreach => ?_⟩⟩
  · exact roundTrips_of_spec
      (fun _ => ⟨_, FastCompressionHashTable.spec (Nat.le_add_right _ _) hlen⟩) hlen hdict
      trivial
  · by_contra hn
    obtain ⟨bytes, o, hbytes, hlure⟩ := HighCompressionHashTable.exists_lure hdict hstop hn
    exact HighCompressionHashTable.not_roundTrips_of_lure hlure
      HighCompressionHashTable.wf_new (hround bytes _ hbytes.ge .new)
  · have hwf := hreach.keeps HighCompressionHashTable.keeps_wf
      HighCompressionHashTable.wf_new
    exact roundTrips_of_spec
      (fun _ => ⟨_, HighCompressionHashTable.spec hserves (Nat.le_add_right _ _) hlen⟩)
      hlen hdict hwf

/-- A text of twelve bytes after a dictionary of four, with a new table. -/
theorem compressWithDictionary_roundTrips_small :
    (4 ≤ maxDistance ∧ 0 + 4 + 12 < 2 ^ 63 ∧ HcServes 0 4 12) ∧
    RoundTrips (List.replicate 16 (7 : U8)) 0 4 12
      FastCompressionHashTable.new ∧
    RoundTrips (List.replicate 16 (7 : U8)) 0 4 12
      HighCompressionHashTable.new := by
  have hserves : HcServes 0 4 12 := fun off _ hlt => Or.inl (by omega)
  have h := compressWithDictionary_roundTrips 0 4 12 (by decide)
  exact ⟨⟨by decide, by decide, hserves⟩, h.1 _ _ (by decide) .new,
    (h.2 (by decide)).2 hserves _ _ (by decide) .new⟩

/-- Eleven equal bytes at offset `2 ^ 31` of a buffer: a new
high-compression table panics. -/
theorem compressWithDictionary_panics :
    (0 ≤ maxDistance ∧
      2 ^ 31 + 0 + 11 ≤ (List.replicate (2 ^ 31 + 11) (0 : U8)).length ∧
      Reachable HighCompressionHashTable.new HighCompressionHashTable.new) ∧
    ¬ RoundTrips (List.replicate (2 ^ 31 + 11) 0) (2 ^ 31) 0 11
      HighCompressionHashTable.new := by
  refine ⟨⟨Nat.zero_le _, by rw [List.length_replicate], .new⟩, ?_⟩
  have hlure : HighCompressionHashTable.Lure (List.replicate (2 ^ 31 + 11) 0) (2 ^ 31)
      (2 ^ 31 + 0) (2 ^ 31 + 0 + 11) (2 ^ 31 + 1) := by
    refine HighCompressionHashTable.lure_replicate (Nat.le_refl _) (by decide) (by decide)
      (by decide) (by decide) (fun off h h' => Or.inr (Or.inl (by omega))) ?_
    rintro (h | h | ⟨x, hx, hm, hle⟩)
    · omega
    · omega
    · have : x = 2 ^ 31 := by omega
      rw [HighCompressionHashTable.windowStart] at hm
      omega
  exact HighCompressionHashTable.not_roundTrips_of_lure hlure
    HighCompressionHashTable.wf_new

end LuceneRust.Codecs.Lz4
