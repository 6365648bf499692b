import LuceneRust.Codecs.Lz4.CompressSpec

/-!
# The two hash tables of the LZ4 compressor

That both tables satisfy `TableSpec`.

* `FastCompressionHashTable.spec` has no condition on the state.
* `HighCompressionHashTable.spec` asks for `Wf`, which every call keeps
  (`keeps_wf`), and that every offset that is scanned is `Served`.
-/

namespace LuceneRust.Codecs.Lz4

open RustSem Store

theorem hash_lt (v : U32) {bits : Nat} (h : bits ≤ 32) :
    hash v bits < 1 <<< bits := by
  have hv := (v * 0x9E3779B1#32).isLt
  rw [hash, BitVec.toNat_ushiftRight, Nat.shiftRight_eq_div_pow, Nat.one_shiftLeft]
  refine Nat.div_lt_of_lt_mul ?_
  rwa [← Nat.pow_add, Nat.sub_add_cancel h]

/-! ## The fast table -/

namespace FastCompressionHashTable

/-- During a compression the table has a slot for every hash. -/
structure Busy (dictOff : Nat) (t : FastCompressionHashTable) : Prop where
  base : t.base = dictOff
  hashLog : t.hashLog ≤ 32
  size : 1 <<< t.hashLog ≤ t.table.length

theorem reset_ok (t : FastCompressionHashTable) (bytes : List U8)
    (off len : Nat) :
    ∃ t', reset t bytes off len = .ok t' ∧ Busy off t' := by
  have key : ∀ bits log : Nat, log = 4 ∨ log = 5 →
      ∃ t', (if t.table.length < 1 <<< (memoryUsage + 3 - log) ∨
          t.bitsPerOffset < bits then
          (.ok ⟨List.replicate (1 <<< (memoryUsage + 3 - log)) 0,
            memoryUsage + 3 - log, bits, off⟩ : Result _)
        else .ok ⟨t.table, memoryUsage + 3 - log, t.bitsPerOffset, off⟩) =
          .ok t' ∧ Busy off t' := by
    intro bits log hlog
    have hle : memoryUsage + 3 - log ≤ 32 := by
      simp only [memoryUsage]
      omega
    split_ifs with hgrow
    · exact ⟨_, rfl, rfl, hle, by simp⟩
    · exact ⟨_, rfl, rfl, hle, by simp only; omega⟩
  unfold reset
  split_ifs with hshort
  · exact key 16 4 (Or.inl rfl)
  · exact key 32 5 (Or.inr rfl)

theorem addDictionary_ok {bytes : List U8} {dictOff i : Nat}
    {t : FastCompressionHashTable} (h : Busy dictOff t)
    (hi : dictOff + i + 4 ≤ bytes.length) :
    ∃ t', addDictionary bytes t i = .ok t' ∧ Busy dictOff t' := by
  obtain ⟨hbase, hlog, hsize⟩ := h
  have hh := hash_lt (fromLeBytes 32 ((bytes.drop (dictOff + i)).take 4)) hlog
  rw [addDictionary, hbase, read4_of_le _ _ hi, ok_bind]
  dsimp only
  rw [guardOk_pos (by omega), ok_bind]
  exact ⟨_, rfl, rfl, hlog, by simpa using hsize⟩

theorem get_ok {bytes : List U8} {dictOff off : Nat}
    {t : FastCompressionHashTable} (h : Busy dictOff t)
    (hoff : dictOff ≤ off) (hlen : off + 4 ≤ bytes.length) :
    ∃ r t', get t bytes off = .ok (r, t') ∧ Busy dictOff t' ∧
      ∀ c, r = some c → dictOff ≤ c ∧ c < off ∧ off - c < maxDistance ∧
        BytesEq bytes off c minMatch := by
  obtain ⟨hbase, hlog, hsize⟩ := h
  have hread := read4_of_le _ _ hlen
  generalize fromLeBytes 32 ((bytes.drop off).take 4) = v at hread
  have hh : hash v t.hashLog < t.table.length := by
    have := hash_lt v hlog
    omega
  have hbusy : Busy dictOff { t with
      table := t.table.set (hash v t.hashLog) (BitVec.ofNat 32 (off - t.base)) } :=
    ⟨hbase, hlog, by simpa using hsize⟩
  rw [get, hread, ok_bind]
  dsimp only
  rw [List.getElem?_eq_getElem hh, checkedSub_of_le (by omega)]
  simp only [expect_some, ok_bind]
  split_ifs with hc
  · rw [read4_of_le _ _ (by omega), ok_bind]
    refine ⟨_, _, rfl, hbusy, ?_⟩
    intro c hsome
    split_ifs at hsome with heq
    cases hsome
    refine ⟨by omega, hc.1, hc.2, read4_eq hread ?_⟩
    rw [read4_of_le _ _ (by omega), heq]
  · exact ⟨none, _, rfl, hbusy, fun c hc => by cases hc⟩

/-- A fast table serves every window, from every state. -/
theorem spec {bytes : List U8} {dictOff first stop : Nat}
    (hfirst : dictOff ≤ first) (hstop : stop ≤ bytes.length) :
    TableSpec FastCompressionHashTable bytes dictOff first stop (fun _ => True)
      (Busy dictOff) where
  start := by
    rintro t dictLen len - rfl hsum hlen
    simp only [lastLiterals, minMatch] at hlen
    obtain ⟨t₁, h₁, hb₁⟩ := reset_ok t bytes dictOff (dictLen + len)
    obtain ⟨t₂, h₂, hb₂⟩ := foldlM_ok (f := addDictionary bytes)
      (Busy dictOff) (List.range dictLen)
      (fun t i ht hi => addDictionary_ok ht
        (by rw [List.mem_range] at hi; omega)) t₁ hb₁
    exact ⟨t₁, t₂, h₁, h₂, hb₂⟩
  get := by
    intro t off hb hoff hlen
    simp only [lastLiterals, minMatch] at hlen
    exact get_ok hb (by omega) (by omega)
  previous := fun t c hb _ _ => ⟨none, t, rfl, hb, fun c' hc' => by cases hc'⟩
  idle := fun _ _ => trivial

end FastCompressionHashTable

/-! ## The high-compression table -/

theorem asI32_of_lt {n : Nat} (h : n < 2 ^ 31) : asI32 n = n := by
  rw [asI32, BitVec.toInt_eq_toNat_cond, BitVec.toNat_ofNat,
    Nat.mod_eq_of_lt (by omega), if_pos (by omega)]

/-- The offsets from a boundary to the next one keep their distances under the
cast, and are negative up to the middle. -/
theorem asI32_of_page {n x : Nat} (hx : x % 2 ^ 32 = 2 ^ 31) (h : x ≤ n)
    (h' : n < x + 2 ^ 32) : asI32 n = (n : Int) - x - 2 ^ 31 := by
  rw [asI32, BitVec.toInt_eq_toNat_cond, BitVec.toNat_ofNat]
  split_ifs with hlow
  · omega
  · omega

/-- A boundary between two offsets of one window turns them around. -/
theorem asI32_le_of_boundary {m n x : Nat} (hx : x % 2 ^ 32 = 2 ^ 31) (hm : m < x)
    (hn : x ≤ n) (hd : n - m < maxDistance) : asI32 n ≤ asI32 m := by
  have hmax : maxDistance = 65536 := by decide
  have hcast := asI32_of_page hx hn (by omega)
  by_cases hfirst : x = 2 ^ 31
  · have hlow : asI32 m = m := asI32_of_lt (by omega)
    omega
  · have hlow := asI32_of_page (n := m) (x := x - 2 ^ 32) (by omega) (by omega) (by omega)
    omega

theorem i32AsUsize_of_nonneg {c : Int} (h : 0 ≤ c) (h' : c < 2 ^ 31) :
    i32AsUsize c = c.toNat := by
  rw [i32AsUsize, Int.emod_eq_of_lt h (by simp only [usizeSize]; omega)]

theorem and_hcMask_lt (n : Nat) : n &&& hcMask < maxDistance := by
  have : n &&& hcMask ≤ hcMask := Nat.and_le_right
  have hpos : hcMask < maxDistance := by decide
  omega

namespace HighCompressionHashTable

/-- The invariant of a table between and during compressions.  That the
distances are positive is what makes the walk along a chain end. -/
structure Wf (t : HighCompressionHashTable) : Prop where
  hash_size : t.hashTable.length = hashTableSizeHc
  chain_size : t.chainTable.length = maxDistance
  chain_pos : ∀ d ∈ t.chainTable, d ≠ 0
  base_le : t.base ≤ t.stop

/-- Neither counter is part of the invariant. -/
theorem Wf.setCounters {t : HighCompressionHashTable} (h : Wf t)
    (next attempts : Nat) :
    Wf { t with next := next, attempts := attempts } :=
  ⟨h.hash_size, h.chain_size, h.chain_pos, h.base_le⟩

theorem wf_new : Wf new where
  hash_size := by simp [new]
  chain_size := by simp [new]
  chain_pos := by
    intro d hd
    rw [List.eq_of_mem_replicate hd]
    decide
  base_le := Nat.le_refl _

/-- What `add_hash` does not touch. -/
structure Frame (t t' : HighCompressionHashTable) : Prop where
  wf : Wf t → Wf t'
  base : t'.base = t.base
  next : t'.next = t.next

/-- A distance that `add_hash` stores is positive. -/
theorem ofInt_ne_zero {δ : Int} (h : 0 < δ) (h' : δ < maxDistance) :
    BitVec.ofInt 16 δ ≠ 0 := by
  have hmax : (maxDistance : Int) = 65536 := by decide
  intro heq
  have := congrArg BitVec.toNat heq
  rw [BitVec.toNat_ofInt] at this
  simp at this
  omega

theorem addHash_frame {bytes : List U8} {t t' : HighCompressionHashTable}
    {off : Nat} (h : addHash bytes t off = .ok t') : Frame t t' := by
  obtain ⟨v, -, h⟩ := Outcome.bind_eq_ok.1 h
  obtain ⟨prev, -, h⟩ := Outcome.bind_eq_ok.1 h
  obtain ⟨u, -, h⟩ := Outcome.bind_eq_ok.1 h
  simp only [Outcome.ok.injEq] at h
  subst h
  refine ⟨fun hwf => ⟨by simpa using hwf.hash_size,
    by simpa using hwf.chain_size, ?_, hwf.base_le⟩, rfl, rfl⟩
  intro d hd
  rcases List.mem_or_eq_of_mem_set hd with hmem | heq
  · exact hwf.chain_pos d hmem
  · rw [heq]
    have hmax : (maxDistance : Int) = 65536 := by decide
    split_ifs with hδ
    · exact ofInt_ne_zero (by omega) (by omega)
    · exact ofInt_ne_zero (by omega) (by omega)

theorem addHash_ok {t : HighCompressionHashTable} (bytes : List U8)
    (off : Nat) (hwf : Wf t) (hoff : off + 4 ≤ bytes.length) :
    ∃ t', addHash bytes t off = .ok t' := by
  have hread := read4_of_le _ _ hoff
  generalize fromLeBytes 32 ((bytes.drop off).take 4) = v at hread
  have hh : hash v hashLogHc < t.hashTable.length := by
    rw [hwf.hash_size]
    exact hash_lt v (by decide)
  have hm : off &&& hcMask < t.chainTable.length := by
    rw [hwf.chain_size]
    exact and_hcMask_lt off
  rw [addHash, hread, ok_bind]
  dsimp only
  rw [List.getElem?_eq_getElem hh, expect_some, ok_bind,
    guardOk_pos hm, ok_bind]
  exact ⟨_, rfl⟩

/-! ### `reset` -/

theorem fillChain_ok {chain : List U16} {lo hi : Nat} (h : lo ≤ hi)
    (hhi : hi ≤ chain.length) :
    fillChain chain lo hi =
      .ok (splice chain lo (List.replicate (hi - lo) 0xFFFF)) := by
  rw [fillChain, guardOk_pos ⟨h, hhi⟩, ok_bind]

theorem fillChain_pos {chain chain' : List U16} {lo hi : Nat}
    (h : fillChain chain lo hi = .ok chain') (hpos : ∀ d ∈ chain, d ≠ 0) :
    chain'.length = chain.length ∧ ∀ d ∈ chain', d ≠ 0 := by
  obtain ⟨u, hu, h⟩ := Outcome.bind_eq_ok.1 h
  obtain ⟨hlo, hhi⟩ := guardOk_eq_ok hu
  simp only [Outcome.ok.injEq] at h
  subst h
  refine ⟨splice_length (by simp; omega), ?_⟩
  intro d hd
  simp only [splice, List.mem_append] at hd
  rcases hd with hd | hd | hd
  · exact hpos d (List.mem_of_mem_take hd)
  · rw [List.eq_of_mem_replicate hd]
    decide
  · exact hpos d (List.mem_of_mem_drop hd)

theorem clearTouched_pos {t : HighCompressionHashTable} {chain : List U16}
    (h : clearTouched t = .ok chain) (hpos : ∀ d ∈ t.chainTable, d ≠ 0) :
    chain.length = t.chainTable.length ∧ ∀ d ∈ chain, d ≠ 0 := by
  simp only [clearTouched] at h
  generalize (if t.stop = 0 then 0
    else ((t.stop - 1) &&& hcMask) + 1) = endOffset at h
  split_ifs at h with hlt
  · exact fillChain_pos h hpos
  · obtain ⟨c, hc, h⟩ := Outcome.bind_eq_ok.1 h
    obtain ⟨h₁, h₂⟩ := fillChain_pos hc hpos
    obtain ⟨h₃, h₄⟩ := fillChain_pos h h₂
    exact ⟨h₃.trans h₁, h₄⟩

theorem clearTouched_ok {t : HighCompressionHashTable} (hwf : Wf t) :
    ∃ chain, clearTouched t = .ok chain := by
  have hstart := and_hcMask_lt t.base
  have hend : (if t.stop = 0 then 0
      else ((t.stop - 1) &&& hcMask) + 1) ≤ maxDistance := by
    have := and_hcMask_lt (t.stop - 1)
    split_ifs <;> omega
  simp only [clearTouched]
  generalize (if t.stop = 0 then 0
    else ((t.stop - 1) &&& hcMask) + 1) = endOffset at hend ⊢
  by_cases hlt : t.base &&& hcMask < endOffset
  · rw [if_pos hlt, fillChain_ok (by omega) (by rw [hwf.chain_size]; exact hend)]
    exact ⟨_, rfl⟩
  · rw [if_neg hlt, fillChain_ok (Nat.zero_le _)
      (by rw [hwf.chain_size]; exact hend), ok_bind]
    have hlen : (splice t.chainTable 0
        (List.replicate (endOffset - 0) 0xFFFF)).length = maxDistance := by
      rw [splice_length (by simp [hwf.chain_size]; omega), hwf.chain_size]
    rw [fillChain_ok (by rw [hlen]; omega) (Nat.le_refl _)]
    exact ⟨_, rfl⟩

theorem reset_wf {t t' : HighCompressionHashTable} {bytes : List U8}
    {off len : Nat} (hwf : Wf t) (h : reset t bytes off len = .ok t') :
    Wf t' ∧ t'.base = off ∧ t'.next = off := by
  obtain ⟨used, -, h⟩ := Outcome.bind_eq_ok.1 h
  split_ifs at h with hshort
  · obtain ⟨chain, hc, h⟩ := Outcome.bind_eq_ok.1 h
    obtain ⟨hlen, hpos⟩ := clearTouched_pos hc hwf.chain_pos
    simp only [Outcome.ok.injEq] at h
    subst h
    exact ⟨⟨hwf.hash_size, hlen.trans hwf.chain_size, hpos,
      Nat.le_add_right _ _⟩, rfl, rfl⟩
  · simp only [Outcome.ok.injEq] at h
    subst h
    refine ⟨⟨by simpa using hwf.hash_size, by simpa using hwf.chain_size, ?_,
      Nat.le_add_right _ _⟩, rfl, rfl⟩
    intro d hd
    rw [List.eq_of_mem_replicate hd]
    decide

theorem reset_ok {t : HighCompressionHashTable} (hwf : Wf t)
    (bytes : List U8) (off len : Nat) :
    ∃ t', reset t bytes off len = .ok t' := by
  rw [reset, checkedSub_of_le hwf.base_le, expect_some,
    ok_bind]
  split_ifs with hshort
  · obtain ⟨chain, hc⟩ := clearTouched_ok hwf
    rw [hc, ok_bind]
    exact ⟨_, rfl⟩
  · exact ⟨_, rfl⟩

/-! ### Indexing -/

theorem initDictionary_frame {t t' : HighCompressionHashTable}
    {bytes : List U8} {dictLen : Nat}
    (h : initDictionary t bytes dictLen = .ok t') (hwf : Wf t) :
    Wf t' ∧ t'.base = t.base := by
  obtain ⟨u, -, h⟩ := Outcome.bind_eq_ok.1 h
  obtain ⟨t₁, h₁, h⟩ := Outcome.bind_eq_ok.1 h
  have hinv : Wf t₁ ∧ t₁.base = t.base := by
    refine foldlM_inv (fun s : HighCompressionHashTable =>
      Wf s ∧ s.base = t.base) ?_ _ t t₁ ⟨hwf, rfl⟩ h₁
    rintro s i s' ⟨hs, hb⟩ hadd
    have hf := addHash_frame hadd
    exact ⟨hf.wf hs, hf.base.trans hb⟩
  cases h
  exact ⟨hinv.1.setCounters _ _, hinv.2⟩

theorem initDictionary_ok {t : HighCompressionHashTable} (bytes : List U8)
    (dictLen : Nat) (hwf : Wf t) (hnext : t.next = t.base)
    (hlen : t.base + dictLen + 3 ≤ bytes.length) :
    ∃ t', initDictionary t bytes dictLen = .ok t' := by
  obtain ⟨t₁, h₁, -⟩ := foldlM_ok
    (f := fun s i => addHash bytes s (s.base + i))
    (fun s : HighCompressionHashTable => Wf s ∧ s.base = t.base)
    (List.range dictLen)
    (by
      rintro s i ⟨hs, hb⟩ hi
      rw [List.mem_range] at hi
      obtain ⟨s', hs'⟩ := addHash_ok bytes (s.base + i) hs
        (by omega)
      have hf := addHash_frame hs'
      exact ⟨s', hs', hf.wf hs, hf.base.trans hb⟩)
    t ⟨hwf, rfl⟩
  rw [initDictionary, guardOk_pos hnext, ok_bind, h₁,
    ok_bind]
  exact ⟨_, rfl⟩

theorem catchUpPass_frame {t : HighCompressionHashTable} {bytes : List U8}
    {off : Nat} {x : HighCompressionHashTable ⊕ HighCompressionHashTable}
    (base : Nat) (ht : Wf t ∧ t.base = base)
    (h : catchUpPass bytes off t = .ok x) :
    Sum.elim (fun s => Wf s ∧ s.base = base)
      (fun s => Wf s ∧ s.base = base) x := by
  unfold catchUpPass at h
  split_ifs at h with hlt
  · obtain ⟨t', hadd, h⟩ := Outcome.bind_eq_ok.1 h
    have hf := addHash_frame hadd
    cases h
    exact ⟨(hf.wf ht.1).setCounters _ _, hf.base.trans ht.2⟩
  · cases h
    exact ht

theorem catchUp_ok {t : HighCompressionHashTable} {bytes : List U8}
    {off : Nat} (hwf : Wf t) (hoff : off + 3 ≤ bytes.length) :
    ∃ t', iterate (catchUpPass bytes off) (off + 1) t = .ok t' ∧ Wf t' ∧
      t'.base = t.base := by
  refine iterate_ok _ (fun s => Wf s ∧ s.base = t.base)
    (fun s => off - s.next) (fun s => Wf s ∧ s.base = t.base) ?_ (off + 1) t
    ⟨hwf, rfl⟩ (by omega)
  intro s hs
  by_cases hlt : s.next < off
  · left
    obtain ⟨s', hadd⟩ := addHash_ok bytes s.next hs.1
      (by omega)
    have hf := addHash_frame hadd
    have hpass : catchUpPass bytes off s =
        .ok (.inl { s' with next := s'.next + 1 }) := by
      rw [catchUpPass, if_pos hlt, hadd, ok_bind]
    refine ⟨_, hpass, catchUpPass_frame _ hs hpass, ?_⟩
    have := hf.next
    simp only
    omega
  · exact Or.inr ⟨s, by rw [catchUpPass, if_neg hlt], hs⟩

/-! ### Searching -/

/-- The candidates of `get`: every one that is looked at lies between `min`
and `off`. -/
theorem getLoop_ok {v : U32} {chain : List U16} {min : Nat} {candidate : Int}
    (bytes : List U8) (off : Nat) (hchain : chain.length = maxDistance)
    (hoff : off + 3 ≤ bytes.length) (hmin : min < 2 ^ 31)
    (hcand : candidate < off) (hcand' : candidate < 2 ^ 31) :
    ∃ r, iterate (getPass bytes v chain min) (maxAttempts + 1)
        (candidate, 0) = .ok r ∧
      ∀ c, r.1 = some c → min ≤ c ∧ c < off ∧ read4 bytes c = .ok v := by
  refine iterate_ok _
    (fun s : Int × Nat => s.1 < off ∧ s.1 < 2 ^ 31)
    (fun s => maxAttempts - s.2)
    (fun r : Option Nat × Nat => ∀ c, r.1 = some c →
      min ≤ c ∧ c < off ∧ read4 bytes c = .ok v) ?_ _ _ ⟨hcand, hcand'⟩
    (by simp only; omega)
  rintro ⟨c, n⟩ ⟨hc, hc'⟩
  simp only at hc hc'
  simp only [getPass]
  by_cases hgo : (min : Int) ≤ c ∧ n < maxAttempts
  · have hr : i32AsUsize c = c.toNat := i32AsUsize_of_nonneg (by omega) hc'
    have hlt : c.toNat < off := by omega
    have hread := read4_of_le bytes c.toNat (by omega)
    rw [if_pos hgo, hr, hread, ok_bind]
    by_cases heq : fromLeBytes 32 ((bytes.drop c.toNat).take 4) = v
    · right
      rw [if_pos heq]
      refine ⟨_, rfl, ?_⟩
      intro c' hc'
      cases hc'
      exact ⟨by omega, hlt, by rw [hread, heq]⟩
    · left
      have hm : c.toNat &&& hcMask < chain.length := by
        rw [hchain]
        exact and_hcMask_lt _
      have hd := (chain.get ⟨_, hm⟩).isLt
      rw [if_neg heq, List.getElem?_eq_getElem hm, expect_some,
        ok_bind]
      simp only [List.get_eq_getElem] at hd
      rw [guardOk_pos (by omega), ok_bind]
      exact ⟨_, rfl, ⟨by simp only; omega, by simp only; omega⟩,
        by simp only; omega⟩
  · right
    rw [if_neg hgo]
    exact ⟨_, rfl, fun c hc => by cases hc⟩

/-- The lower end of the search window of `off`. -/
def windowStart (dictOff off : Nat) : Nat :=
  max dictOff (off + 1 - min maxDistance (off + 1))

/-- An offset where the casts to `i32` do no harm, whatever the table holds:
it fits an `i32`, or nothing lies before it in its window, or the window
crosses an `x` where the casts start again at the least `i32`, and then the
search ends before its first candidate. -/
def Served (dictOff off : Nat) : Prop :=
  off < 2 ^ 31 ∨ off = dictOff ∨
    ∃ x, x % 2 ^ 32 = 2 ^ 31 ∧ windowStart dictOff off < x ∧ x ≤ off

theorem Served.cast_le {dictOff off : Nat} (h : Served dictOff off)
    (hbig : 2 ^ 31 ≤ off) : asI32 off ≤ asI32 (windowStart dictOff off) := by
  have hmax : maxDistance = 65536 := by decide
  rcases h with hsmall | rfl | ⟨x, hx, hm, hle⟩
  · omega
  · have hstart : windowStart off off = off := by
      rw [windowStart]
      omega
    exact Int.le_of_eq (congrArg asI32 hstart.symm)
  · exact asI32_le_of_boundary hx hm hle (by rw [windowStart]; omega)

/-- The state of the table during a compression of the window. -/
def Busy (dictOff : Nat) (t : HighCompressionHashTable) : Prop :=
  Wf t ∧ t.base = dictOff

/-- What a call of `get` that returns has done. -/
theorem get_cases {bytes : List U8} {off : Nat} {t : HighCompressionHashTable}
    {r : Option Nat × HighCompressionHashTable} (h : get t bytes off = .ok r) :
    ∃ t' v slot n, iterate (catchUpPass bytes off) (off + 1) t = .ok t' ∧
      read4 bytes off = .ok v ∧ t'.hashTable[hash v hashLogHc]? = some slot ∧
      r.2 = { t' with attempts := n } ∧
      (asI32 off ≤ slot.toInt ∧ r.1 = none ∨ slot.toInt < asI32 off ∧
        iterate (getPass bytes v t'.chainTable (asI32 (windowStart t'.base off)))
          (maxAttempts + 1) (slot.toInt, 0) = .ok (r.1, n)) := by
  obtain ⟨t', hcatch, h⟩ := bind_eq_ok.1 h
  obtain ⟨v, hv, h⟩ := bind_eq_ok.1 h
  obtain ⟨slot, hslot, h⟩ := bind_eq_ok.1 h
  refine ⟨t', v, slot, ?_⟩
  split_ifs at h with hstale
  · cases h
    exact ⟨0, hcatch, hv, expect_eq_ok hslot, rfl, Or.inl ⟨hstale, rfl⟩⟩
  · obtain ⟨⟨c, n⟩, hloop, h⟩ := bind_eq_ok.1 h
    cases h
    exact ⟨n, hcatch, hv, expect_eq_ok hslot, rfl,
      Or.inr ⟨Int.not_le.1 hstale, hloop⟩⟩

theorem get_ok {bytes : List U8} {dictOff off : Nat}
    {t : HighCompressionHashTable} (hserved : Served dictOff off)
    (hb : Busy dictOff t) (hoff : dictOff ≤ off) (hlen : off + 4 ≤ bytes.length) :
    ∃ r t', get t bytes off = .ok (r, t') ∧ Busy dictOff t' ∧
      ∀ c, r = some c → dictOff ≤ c ∧ c < off ∧ off - c < maxDistance ∧
        BytesEq bytes off c minMatch := by
  obtain ⟨hwf, hbase⟩ := hb
  have hmax : maxDistance = 65536 := by decide
  obtain ⟨t', hcatch, hwf', hbase'⟩ :=
    catchUp_ok hwf (by omega : off + 3 ≤ bytes.length)
  have hread := read4_of_le bytes off (by omega)
  generalize fromLeBytes 32 ((bytes.drop off).take 4) = v at hread
  have hh : hash v hashLogHc < t'.hashTable.length := by
    rw [hwf'.hash_size]
    exact hash_lt v (by decide)
  rw [get, hcatch, ok_bind, hread, ok_bind]
  dsimp only
  rw [List.getElem?_eq_getElem hh, expect_some, ok_bind]
  have hb' : t'.base = dictOff := hbase'.trans hbase
  have hbusy : ∀ n, Busy dictOff { t' with attempts := n } := fun n =>
    ⟨hwf'.setCounters _ n, hb'⟩
  generalize t'.hashTable[hash v hashLogHc] = slot
  by_cases hstale : asI32 off ≤ slot.toInt
  · rw [if_pos hstale]
    exact ⟨none, _, rfl, hbusy 0, fun c hc => by cases hc⟩
  · rw [if_neg hstale]
    rcases Nat.lt_or_ge off (2 ^ 31) with hsmall | hbig
    · rw [asI32_of_lt hsmall] at hstale
      have hminlt : max t'.base (off + 1 - min maxDistance (off + 1)) < 2 ^ 31 := by
        omega
      have hbelow : slot.toInt < off := by omega
      obtain ⟨⟨r, n⟩, hloop, hr⟩ := getLoop_ok bytes off (v := v) hwf'.chain_size (by omega)
        hminlt hbelow (by omega)
      rw [asI32_of_lt hminlt, hloop, ok_bind]
      refine ⟨r, _, rfl, hbusy n, ?_⟩
      intro c hc
      obtain ⟨h₁, h₂, h₃⟩ := hr c hc
      exact ⟨by omega, h₂, by omega, read4_eq hread h₃⟩
    · -- The lower end of the window is not below `off`, and there is no candidate.
      have hcast := hserved.cast_le hbig
      rw [windowStart, ← hb'] at hcast
      have hleave : iterate (getPass bytes v t'.chainTable
          (asI32 (max t'.base (off + 1 - min maxDistance (off + 1)))))
          (maxAttempts + 1) (slot.toInt, 0) = .ok (none, 0) :=
        iterate_leave (by simp only [getPass]; rw [if_neg (by omega)])
      rw [hleave, ok_bind]
      exact ⟨none, _, rfl, hbusy 0, fun c hc => by cases hc⟩

theorem previous_ok (bytes : List U8) (c : Nat)
    {t : HighCompressionHashTable} (hwf : Wf t) (hlen : c + 4 ≤ bytes.length) :
    ∃ r n, previous t bytes c = .ok (r, { t with attempts := n }) ∧
      ∀ c', r = some c' → t.base ≤ c' ∧ c' < c ∧
        BytesEq bytes c c' minMatch := by
  have hread := read4_of_le _ _ hlen
  generalize fromLeBytes 32 ((bytes.drop c).take 4) = v at hread
  have hm : c &&& hcMask < t.chainTable.length := by
    rw [hwf.chain_size]
    exact and_hcMask_lt _
  have hpos : 0 < (t.chainTable[c &&& hcMask]).toNat := by
    have := hwf.chain_pos _ (List.getElem_mem hm)
    rw [Nat.pos_iff_ne_zero]
    intro h0
    exact this (BitVec.eq_of_toNat_eq (by simpa using h0))
  rw [previous, hread, ok_bind, List.getElem?_eq_getElem hm,
    expect_some, ok_bind]
  obtain ⟨⟨r, n⟩, hloop, hr⟩ := iterate_ok (previousPass bytes v t.chainTable t.base)
    (fun s : Int × Nat => s.1 < c) (fun s => maxAttempts - s.2)
    (fun r : Option Nat × Nat => ∀ c', r.1 = some c' →
      t.base ≤ c' ∧ c' < c ∧ read4 bytes c' = .ok v)
    (by
      rintro ⟨cand, n⟩ hc
      simp only at hc
      simp only [previousPass]
      by_cases hgo : (t.base : Int) ≤ cand ∧ n < maxAttempts
      · have hlt : cand.toNat < c := by omega
        have hread' := read4_of_le bytes cand.toNat (by omega)
        rw [if_pos hgo, hread', ok_bind]
        by_cases heq : fromLeBytes 32 ((bytes.drop cand.toNat).take 4) = v
        · right
          rw [if_pos heq]
          refine ⟨_, rfl, ?_⟩
          intro c' hc'
          cases hc'
          exact ⟨by omega, hlt, by rw [hread', heq]⟩
        · left
          have hm' : cand.toNat &&& hcMask < t.chainTable.length := by
            rw [hwf.chain_size]
            exact and_hcMask_lt _
          rw [if_neg heq, List.getElem?_eq_getElem hm', expect_some,
            ok_bind]
          exact ⟨_, rfl, by simp only; omega, by simp only; omega⟩
      · right
        rw [if_neg hgo]
        exact ⟨_, rfl, fun c' hc' => by cases hc'⟩)
    (maxAttempts + 1) ((c : Int) - (t.chainTable[c &&& hcMask]).toNat, t.attempts)
    (by simp only; omega) (by simp only; omega)
  rw [hloop, ok_bind]
  refine ⟨r, n, rfl, ?_⟩
  intro c' hc'
  obtain ⟨h₁, h₂, h₃⟩ := hr c' hc'
  exact ⟨h₁, h₂, read4_eq hread h₃⟩

/-- A high-compression table serves a window whose offsets are. -/
theorem spec {bytes : List U8} {dictOff first stop : Nat}
    (hserved : ∀ off, first ≤ off → off + lastLiterals + minMatch < stop →
      Served dictOff off)
    (hfirst : dictOff ≤ first) (hstop : stop ≤ bytes.length) :
    TableSpec HighCompressionHashTable bytes dictOff first stop Wf
      (Busy dictOff) where
  start := by
    rintro t dictLen len hwf rfl hsum hlen
    simp only [lastLiterals, minMatch] at hlen
    obtain ⟨t₁, h₁⟩ := reset_ok hwf bytes dictOff (dictLen + len)
    obtain ⟨hwf₁, hb₁, hn₁⟩ := reset_wf hwf h₁
    obtain ⟨t₂, h₂⟩ := initDictionary_ok bytes dictLen
      hwf₁ (hn₁.trans hb₁.symm) (by omega)
    obtain ⟨hwf₂, hb₂⟩ := initDictionary_frame h₂ hwf₁
    exact ⟨t₁, t₂, h₁, h₂, hwf₂, hb₂.trans hb₁⟩
  get := by
    intro t off hb hoff hlen
    have hlen' := hlen
    simp only [lastLiterals, minMatch] at hlen'
    exact get_ok (hserved off hoff hlen) hb (by omega) (by omega)
  previous := by
    rintro t c ⟨hwf, rfl⟩ - hlen
    simp only [lastLiterals, minMatch] at hlen
    obtain ⟨r, n, hprev, hr⟩ := previous_ok bytes c hwf (by omega)
    exact ⟨r, _, hprev, ⟨hwf.setCounters _ n, rfl⟩, hr⟩
  idle := fun _ hb => hb.1

/-- Every call of the table keeps `Wf`. -/
theorem keeps_wf : Keeps HighCompressionHashTable Wf where
  reset := fun hwf h => (reset_wf hwf h).1
  initDictionary := fun hwf h => (initDictionary_frame h hwf).1
  get := by
    intro t bytes off r hwf h
    obtain ⟨t', v, slot, n, hcatch, -, -, hr, -⟩ := get_cases h
    obtain ⟨hwf', -⟩ := iterate_inv _ _
      (fun s x hs hx => catchUpPass_frame t.base hs hx) _ t
      ⟨hwf, rfl⟩ t' hcatch
    rw [hr]
    exact hwf'.setCounters _ n
  previous := by
    intro t bytes off r hwf h
    obtain ⟨v, -, h⟩ := Outcome.bind_eq_ok.1 h
    obtain ⟨d, -, h⟩ := Outcome.bind_eq_ok.1 h
    obtain ⟨⟨r, n⟩, -, h⟩ := Outcome.bind_eq_ok.1 h
    cases h
    exact hwf.setCounters _ n

end HighCompressionHashTable

end LuceneRust.Codecs.Lz4
