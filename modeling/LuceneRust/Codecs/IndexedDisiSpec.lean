import LuceneRust.Codecs.IndexedDisi

/-!
# What an `IndexedDISI` decoder accepts

* `takeBitPass_eq`: the loop over the bits of a word takes them in order.
* `decodePass_safe`: one block adds documents above those before it.
* `decodeDocIdsBelow_safe`: whatever the bytes are, the decoder ends, and the
  documents that it returns are in order and below the bound.
-/

namespace LuceneRust.Codecs.IndexedDisi

open RustSem WordTape
open Store (SliceInput)

/-! ## Reads -/

/-- A read of `n` bytes that returns moves the cursor by them. -/
theorem readN_safe (inp : SliceInput) (n : Nat) :
    (inp.readN n).Safe fun r => n ≤ inp.rest.length ∧ r.2 = inp.advance n := by
  by_cases h : n ≤ inp.rest.length
  · rw [SliceInput.readN_of_le h]
    exact ⟨h, rfl⟩
  · rw [SliceInput.readN_short (Nat.lt_of_not_le h)]
    trivial

theorem readU16_safe (inp : SliceInput) :
    inp.readU16.Safe fun r => 2 ≤ inp.rest.length ∧ r.2 = inp.advance 2 :=
  (readN_safe inp 2).bind fun _ h => h

theorem readI64_safe (inp : SliceInput) :
    inp.readI64.Safe fun r => 8 ≤ inp.rest.length ∧ r.2 = inp.advance 8 :=
  (readN_safe inp 8).bind fun _ h => h

theorem skip_safe (inp : SliceInput) (n : Nat) :
    (inp.skip n).Safe fun inp' => inp' = inp.advance n := by
  by_cases h : n ≤ inp.rest.length
  · rw [SliceInput.skip_of_le h]
    rfl
  · rw [SliceInput.skip_short (Nat.lt_of_not_le h)]
    trivial

theorem length_rest_advance (inp : SliceInput) (n : Nat) :
    (inp.advance n).rest.length = inp.rest.length - n := by
  rw [SliceInput.rest_advance, List.length_drop]

/-! ## Documents in order -/

section

variable {maxDoc last last' : Int} {docs : List Int} {inp inp' : SliceInput}

/-- The documents so far are in order and below the bound, and `last` is not
below any of them. -/
structure Taken (maxDoc : Int) (docs : List Int) (last : Int) : Prop where
  sorted : docs.Pairwise (· < ·)
  range : ∀ d ∈ docs, 0 ≤ d ∧ d < maxDoc
  below : ∀ d ∈ docs, d ≤ last
  last : -1 ≤ last

/-- More documents, above those before them. -/
theorem Taken.append (h : Taken maxDoc docs last) {more : List Int}
    (hsorted : more.Pairwise (· < ·)) (hlast : last ≤ last')
    (hmore : ∀ d ∈ more, last < d ∧ d ≤ last' ∧ d < maxDoc) :
    Taken maxDoc (docs ++ more) last' := by
  have hneg := h.last
  refine ⟨List.pairwise_append.2 ⟨h.sorted, hsorted, fun d hd d' hd' => ?_⟩, fun d hd => ?_,
    fun d hd => ?_, by omega⟩
  · exact (h.below d hd).trans_lt (hmore d' hd').1
  · rcases List.mem_append.1 hd with hd | hd
    · exact h.range d hd
    · have hd' := hmore d hd
      exact ⟨by omega, hd'.2.2⟩
  · rcases List.mem_append.1 hd with hd | hd
    · exact (h.below d hd).trans hlast
    · exact (hmore d hd).2.1

/-- What a part of the decoder leaves of a state. -/
def Goes (maxDoc : Int) (inp : SliceInput) (s : DecodeState) : Prop :=
  Taken maxDoc s.1 s.2.1 ∧ s.2.2.rest.length ≤ inp.rest.length

theorem checkDocs_safe (maxDoc first end' last : Int) :
    (checkDocs maxDoc first end' last).Safe fun _ => last < first ∧ end' < maxDoc := by
  rw [checkDocs]
  split
  next => trivial
  next h =>
    rw [not_or, not_le, not_le] at h
    exact h

theorem takeSparse_safe (block : Nat) : ∀ (n : Nat) {docs : List Int} {last : Int}
    {inp : SliceInput}, Taken maxDoc docs last →
    (takeSparse maxDoc block n (docs, last, inp)).Safe fun r => Goes maxDoc inp r.2
  | 0, _, _, _, h => ⟨h, Nat.le_refl _⟩
  | n + 1, docs, last, inp, h => by
    rw [takeSparse]
    refine (readU16_safe inp).bind ?_
    rintro ⟨low, _⟩ ⟨-, rfl⟩
    dsimp only
    split
    next => exact ⟨h, by rw [length_rest_advance]; omega⟩
    next =>
      refine (checkDocs_safe ..).bind fun _ hcheck => ?_
      generalize (((block <<< 16) ||| low.toNat : Nat) : Int) = doc at hcheck ⊢
      have hnext := h.append (List.pairwise_singleton _ doc) hcheck.1.le fun d hd => by
        rw [List.mem_singleton.1 hd]
        exact ⟨hcheck.1, le_refl _, hcheck.2⟩
      refine (takeSparse_safe block n hnext).mono fun r hr => ⟨hr.1, ?_⟩
      have hrest := hr.2
      rw [length_rest_advance] at hrest
      omega

/-- The bits of a word are between its first and its last one. -/
theorem wordBits_range {word : U64} {k : Nat} (h : k ∈ wordBits word) :
    word.ctz.toNat ≤ k ∧ k ≤ 63 - word.clz.toNat := by
  have hbit := mem_wordBits.1 h
  have hk := wordBits_lt h
  have hne : word ≠ 0#64 := by
    rintro rfl
    rw [BitVec.getLsbD_zero] at hbit
    cases hbit
  obtain ⟨-, -, -, hbelow⟩ := firstAt_ctz hne
  obtain ⟨-, -, -, habove⟩ := lastAt_clz hne
  constructor
  · by_contra hlt
    rw [hbelow k (Nat.zero_le k) (by omega)] at hbit
    cases hbit
  · by_contra hlt
    rw [habove k (by omega) hk] at hbit
    cases hbit

/-- The loop over the bits of a word takes them in order. -/
theorem iterate_takeBitPass (start : Int) : ∀ (n : Nat) (word : U64) (docs : List Int),
    (wordBits word).length < n → iterate (takeBitPass start) n (word, docs) =
      .ok (docs ++ (wordBits word).map fun k : Nat => start + (k : Int))
  | 0, _, _, hn => absurd hn (Nat.not_lt_zero _)
  | n + 1, word, docs, hn => by
    by_cases hzero : word = 0#64
    · subst hzero
      rw [wordBits_zero, List.map_nil, List.append_nil]
      exact iterate_leave rfl
    · have hcons := wordBits_cons hzero
      rw [hcons, List.length_cons] at hn
      have hpass : takeBitPass start (word, docs) =
          .ok (.inl (word &&& (word - 1#64), docs ++ [start + (word.ctz.toNat : Int)])) :=
        if_pos hzero
      rw [iterate_continue hpass, iterate_takeBitPass start n _ _ (by omega), hcons, List.map_cons,
        List.append_assoc, List.singleton_append]

theorem length_wordBits_lt (word : U64) : (wordBits word).length < 65 :=
  Nat.lt_succ_of_le ((List.length_filter_le _ _).trans (List.length_range ..).le)

theorem takeDense_safe (base : Int) : ∀ (is : List Nat) {docs : List Int} {last : Int}
    {inp : SliceInput}, Taken maxDoc docs last →
    (takeDense maxDoc base is (docs, last, inp)).Safe (Goes maxDoc inp)
  | [], _, _, _, h => ⟨h, Nat.le_refl _⟩
  | i :: is, docs, last, inp, h => by
    have hgo : ∀ {docs' : List Int} {last' : Int}, Taken maxDoc docs' last' →
        (takeDense maxDoc base is (docs', last', inp.advance 8)).Safe (Goes maxDoc inp) := by
      intro docs' last' h'
      refine (takeDense_safe base is h').mono fun s hs => ⟨hs.1, ?_⟩
      have hrest := hs.2
      rw [length_rest_advance] at hrest
      omega
    rw [takeDense]
    refine (readI64_safe inp).bind ?_
    rintro ⟨word, _⟩ ⟨-, rfl⟩
    dsimp only
    split
    next => exact hgo h
    next hne =>
      refine (checkDocs_safe ..).bind fun _ hcheck => ?_
      rw [iterate_takeBitPass _ _ _ _ (length_wordBits_lt word), ok_bind]
      obtain ⟨hclz, hle, -⟩ := lastAt_clz hne
      have hfirst := wordBits_range (mem_wordBits.2 (firstAt_ctz hne).2.2.1)
      refine hgo (h.append (List.pairwise_map.2 ((wordBits_sorted word).imp fun hlt => ?_)) ?_ ?_)
      · omega
      · omega
      · intro d hd
        obtain ⟨k, hk, rfl⟩ := List.mem_map.1 hd
        have hrange := wordBits_range hk
        omega

/-- A whole block, above the documents before it. -/
theorem Taken.all (h : Taken maxDoc docs last) {base : Int} (hlast : last < base)
    (hmax : base + blockSize - 1 < maxDoc) :
    Taken maxDoc (docs ++ (List.range blockSize).map fun i : Nat => base + (i : Int))
      (base + blockSize - 1) := by
  have hpos : 0 < blockSize := by decide
  refine h.append (List.pairwise_map.2 (List.pairwise_lt_range.imp fun hlt => ?_)) ?_ ?_
  · omega
  · omega
  · intro d hd
    obtain ⟨k, hk, rfl⟩ := List.mem_map.1 hd
    rw [List.mem_range] at hk
    omega

/-- One block, or the end. -/
theorem decodePass_safe (power : U8) (h : Taken maxDoc docs last) :
    (decodePass power maxDoc (docs, last, inp)).Safe (Sum.elim
      (fun s => Taken maxDoc s.1 s.2.1 ∧ s.2.2.rest.length < inp.rest.length)
      fun docs => ∃ last, Taken maxDoc docs last) := by
  rw [decodePass]
  refine (readU16_safe inp).bind ?_
  rintro ⟨block, _⟩ ⟨hlen, rfl⟩
  refine (readU16_safe _).bind ?_
  rintro ⟨n, _⟩ ⟨-, rfl⟩
  have hrest : (inp.advance 2).rest.length < inp.rest.length := by
    rw [length_rest_advance]
    omega
  have hrest' : ((inp.advance 2).advance 2).rest.length ≤ (inp.advance 2).rest.length := by
    rw [length_rest_advance]
    omega
  dsimp only
  split
  next =>
    refine (takeSparse_safe _ _ h).bind fun r hr => ?_
    obtain ⟨reached, docs', last', inp'⟩ := r
    dsimp only
    split
    next => exact ⟨last', hr.1⟩
    next => exact ⟨hr.1, hr.2.trans_lt (hrest'.trans_lt hrest)⟩
  next =>
    split
    next =>
      exact (checkDocs_safe ..).bind fun _ hcheck =>
        ⟨h.all hcheck.1 hcheck.2, hrest'.trans_lt hrest⟩
    next =>
      have hrank : (denseRankBytes power).Safe fun _ => True := by
        rw [denseRankBytes]
        split
        · trivial
        · split <;> trivial
      refine hrank.bind fun rank _ => (skip_safe _ rank).bind fun inp' hskip => ?_
      subst hskip
      have hrest'' : (((inp.advance 2).advance 2).advance rank).rest.length ≤
          ((inp.advance 2).advance 2).rest.length := by
        rw [length_rest_advance]
        exact Nat.sub_le _ _
      generalize List.range denseBlockLongs = is
      exact (takeDense_safe _ is h).bind fun s hs =>
        ⟨hs.1, hs.2.trans_lt (hrest''.trans_lt (hrest'.trans_lt hrest))⟩

end

/-- The documents in order and below the bound are at most as many as the
bound. -/
theorem length_le_of_sorted : ∀ {docs : List Int} {lo maxDoc : Int},
    docs.Pairwise (· < ·) → (∀ d ∈ docs, lo ≤ d ∧ d < maxDoc) → docs.length ≤ (maxDoc - lo).toNat
  | [], _, _, _, _ => Nat.zero_le _
  | d :: docs, lo, maxDoc, hsorted, hrange => by
    rw [List.pairwise_cons] at hsorted
    rw [List.forall_mem_cons] at hrange
    have hrest : docs.length ≤ (maxDoc - (d + 1)).toNat := length_le_of_sorted hsorted.2
      fun d' hd' => ⟨hsorted.1 d' hd', (hrange.2 d' hd').2⟩
    rw [List.length_cons]
    omega

/-- Whatever the bytes are, the decoder ends, and a list that it returns is in
order and within the segment. -/
theorem decodeDocIdsBelow_safe (data : List U8) (power : U8) (maxDoc : Int) :
    (decodeDocIdsBelow data power maxDoc).Safe fun docs =>
      docs.Pairwise (· < ·) ∧ (∀ d ∈ docs, 0 ≤ d ∧ d < maxDoc) ∧ docs.length ≤ maxDoc.toNat := by
  have hstart : Taken maxDoc [] (-1) := ⟨List.Pairwise.nil, nofun, nofun, le_refl _⟩
  have hloop := iterate_safe (fun s : DecodeState => Taken maxDoc s.1 s.2.1)
    (fun s => s.2.2.rest.length) (fun docs => ∃ last, Taken maxDoc docs last)
    (fun s hs => decodePass_safe power hs) (data.length + 1) ([], -1, SliceInput.new data) hstart
    (by rw [SliceInput.rest_new]; exact Nat.lt_succ_self _)
  refine hloop.mono fun docs hdocs => ?_
  obtain ⟨last, h⟩ := hdocs
  refine ⟨h.sorted, h.range, (length_le_of_sorted h.sorted h.range).trans ?_⟩
  rw [Int.sub_zero]

end LuceneRust.Codecs.IndexedDisi
