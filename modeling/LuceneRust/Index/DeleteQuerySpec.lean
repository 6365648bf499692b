import LuceneRust.Index.DeleteQuery
import Mathlib.Tactic.Common

/-!
# A delete query resolves to what it means

`Satisfies` is the boolean meaning of a `DeleteQuery` for one document.
`resolveDeleteQuery_exact` says that below the bound the resolved doc ids are
the live documents that satisfy the query.

The induction carries `Answers`.  It says nothing of the doc ids from the bound
on: the leaves return them, and `MatchAll` and `Not` do not.  A list that
answers is ascending, and that is what the binary searches of `All` and `Not`
need.

* `TermSpan` walks stop early.  `Cuts` is what a classifier has to obey so that
  no matching term is cut off: `prefixSpan_cuts` and `rangeSpan_cuts`.
-/

namespace LuceneRust.Index

open RustSem
open Util (FixedBitSet)

/-! ## Segments -/

/-- A segment as it is opened: its dictionaries are in ascending order, its
postings are ascending doc ids of the segment, and its live docs have a bit for
each document. -/
structure DeleteSegment extends DeleteSegmentView where
  maxDoc_lt : maxDoc < 2 ^ 31
  terms_ascending : ∀ field terms, fields field = some terms →
    terms.Pairwise fun a b => a.bytes < b.bytes
  docs_ascending : ∀ field terms, fields field = some terms →
    ∀ entry ∈ terms, entry.docs.Pairwise (· < ·)
  docs_lt : ∀ field terms, fields field = some terms →
    ∀ entry ∈ terms, ∀ d ∈ entry.docs, 0 ≤ d ∧ d < maxDoc
  liveDocs_length : ∀ bits, liveDocs = some bits → bits.numBits = maxDoc

namespace DeleteSegment

variable (s : DeleteSegment)

/-- The document is not deleted. -/
def Alive (d : Int) : Prop := ∀ bits, s.liveDocs = some bits → bits.get d.toNat = .ok true

/-- A live document of the segment. -/
def Candidate (d : Int) : Prop := 0 ≤ d ∧ d < s.maxDoc ∧ s.Alive d

/-- The document has the term in the field. -/
def HasTerm (field : String) (term : List U8) (d : Int) : Prop :=
  ∃ terms, s.fields field = some terms ∧ ∃ entry ∈ terms, entry.bytes = term ∧ d ∈ entry.docs

/-- The term is between the bounds. -/
def InRange (lower upper : Option (List U8)) (includeLower includeUpper : Bool)
    (t : List U8) : Prop :=
  (∀ lo, lower = some lo → lo < t ∨ includeLower = true ∧ lo = t) ∧
    ∀ hi, upper = some hi → t < hi ∨ includeUpper = true ∧ t = hi

mutual

/-- The meaning of a query for a document. -/
def Satisfies (d : Int) : DeleteQuery → Prop
  | .term term => s.HasTerm term.field term.bytes d
  | .matchAll => True
  | .prefixOf field bytes => ∃ t, bytes <+: t ∧ s.HasTerm field t d
  | .termRange field lower upper includeLower includeUpper =>
    ∃ t, InRange lower upper includeLower includeUpper t ∧ s.HasTerm field t d
  | .any clauses => SatisfiesSome d clauses
  | .all clauses => clauses ≠ [] ∧ SatisfiesEvery d clauses
  | .not inner => ¬ Satisfies d inner

/-- Some clause has the document. -/
def SatisfiesSome (d : Int) : List DeleteQuery → Prop
  | [] => False
  | clause :: clauses => Satisfies d clause ∨ SatisfiesSome d clauses

/-- Every clause has the document. -/
def SatisfiesEvery (d : Int) : List DeleteQuery → Prop
  | [] => True
  | clause :: clauses => Satisfies d clause ∧ SatisfiesEvery d clauses

end

theorem satisfies_any {d : Int} {clauses : List DeleteQuery} :
    s.Satisfies d (.any clauses) ↔ ∃ clause ∈ clauses, s.Satisfies d clause := by
  rw [Satisfies]
  induction clauses with
  | nil => simp [SatisfiesSome]
  | cons clause clauses ih => simp [SatisfiesSome, ih]

theorem satisfies_all {d : Int} {clauses : List DeleteQuery} :
    s.Satisfies d (.all clauses) ↔
      clauses ≠ [] ∧ ∀ clause ∈ clauses, s.Satisfies d clause := by
  have hevery : s.SatisfiesEvery d clauses ↔ ∀ clause ∈ clauses, s.Satisfies d clause := by
    induction clauses with
    | nil => simp [SatisfiesEvery]
    | cons clause clauses ih => simp [SatisfiesEvery, ih]
  rw [Satisfies, hevery]

/-! ## Live documents -/

theorem getBit_ok (bits : FixedBitSet) {idx : Nat} (h : idx < bits.numBits) :
    ∃ b, getBit bits idx = .ok b ∧ (b = true ↔ bits.get idx = .ok true) := by
  have hword : idx / 64 < bits.words.length := by
    rw [bits.room]
    exact Util.lt_bits2words h
  have hget : ∃ b, bits.get idx = .ok b := by
    unfold FixedBitSet.get
    rw [guardOk_pos h, ok_bind, List.getElem?_eq_getElem hword,
      expect_some, ok_bind]
    exact ⟨_, rfl⟩
  obtain ⟨b, hb⟩ := hget
  unfold getBit
  rw [hb]
  exact ⟨b, rfl, by simp⟩

theorem live_ok {d : Int} (h0 : 0 ≤ d) (h : d < s.maxDoc) :
    ∃ b, s.live d = .ok b ∧ (b = true ↔ s.Alive d) := by
  unfold DeleteSegmentView.live Alive
  cases hl : s.liveDocs with
  | none => exact ⟨true, rfl, by simp⟩
  | some bits =>
    have hlen := s.liveDocs_length bits hl
    obtain ⟨b, hb, hiff⟩ := getBit_ok bits (by omega : d.toNat < bits.numBits)
    exact ⟨b, hb, by simpa using hiff⟩

/-- The filter over doc ids of the segment. -/
theorem liveDocsWhere_ok (keep : Int → Bool) : ∀ docs : List Int,
    (∀ d ∈ docs, 0 ≤ d ∧ d < s.maxDoc) →
      ∃ out, s.liveDocsWhere keep docs = .ok out ∧ out.Sublist docs ∧
        ∀ d, d ∈ out ↔ d ∈ docs ∧ s.Alive d ∧ keep d = true := by
  intro docs
  induction docs with
  | nil => exact fun _ => ⟨[], rfl, .slnil, by simp⟩
  | cons d docs ih =>
    intro h
    obtain ⟨h0, hlt⟩ := h d List.mem_cons_self
    obtain ⟨b, hb, hiff⟩ := s.live_ok h0 hlt
    obtain ⟨out, hout, hsub, hmem⟩ := ih fun e he => h e (List.mem_cons_of_mem _ he)
    unfold DeleteSegmentView.liveDocsWhere
    rw [hb, ok_bind, hout, ok_bind]
    refine ⟨_, rfl, ?_, ?_⟩
    · split
      · exact hsub.cons_cons d
      · exact hsub.cons d
    · intro e
      rw [List.mem_cons]
      split
      next hkeep =>
        rw [Bool.and_eq_true, hiff] at hkeep
        rw [List.mem_cons, hmem]
        constructor
        · intro he
          rcases he with rfl | he
          · exact ⟨Or.inl rfl, hkeep⟩
          · exact ⟨Or.inr he.1, he.2⟩
        · intro ⟨he, hrest⟩
          rcases he with rfl | he
          · exact Or.inl rfl
          · exact Or.inr ⟨he, hrest⟩
      next hkeep =>
        rw [Bool.and_eq_true, hiff] at hkeep
        rw [hmem]
        constructor
        · exact fun he => ⟨Or.inr he.1, he.2⟩
        · intro ⟨he, hrest⟩
          rcases he with rfl | he
          · exact absurd hrest hkeep
          · exact ⟨he, hrest⟩

/-- `resolve_term_doc_ids` filters the postings in the same way. -/
theorem liveTermDocs_eq {bits : FixedBitSet} (hl : s.liveDocs = some bits) :
    ∀ docs : List Int, (∀ d ∈ docs, 0 ≤ d ∧ d < s.maxDoc) →
      liveTermDocs bits docs = s.liveDocsWhere (fun _ => true) docs := by
  intro docs
  induction docs with
  | nil => exact fun _ => rfl
  | cons d docs ih =>
    intro h
    obtain ⟨h0, hlt⟩ := h d List.mem_cons_self
    have hlen := s.liveDocs_length bits hl
    unfold liveTermDocs DeleteSegmentView.liveDocsWhere DeleteSegmentView.live
    rw [ih fun e he => h e (List.mem_cons_of_mem _ he), hl, if_pos (by omega)]
    simp only [Bool.and_true]

theorem asI32_of_lt {n : Nat} (h : n < 2 ^ 31) : asI32 n = n := by
  unfold asI32
  rw [BitVec.toInt_eq_toNat_of_lt (by rw [BitVec.toNat_ofNat]; omega), BitVec.toNat_ofNat]
  omega

theorem mem_docRange {n : Nat} (h : n < 2 ^ 31) {d : Int} :
    d ∈ DeleteSegmentView.docRange n ↔ 0 ≤ d ∧ d < n := by
  unfold DeleteSegmentView.docRange
  rw [asI32_of_lt h, Int.toNat_natCast, List.mem_map]
  constructor
  · intro ⟨k, hk, heq⟩
    rw [List.mem_range] at hk
    subst heq
    exact ⟨Int.natCast_nonneg k, Int.ofNat_lt.2 hk⟩
  · intro ⟨h0, hlt⟩
    exact ⟨d.toNat, List.mem_range.2 (by omega), Int.toNat_of_nonneg h0⟩

theorem docRange_pairwise (n : Nat) : (DeleteSegmentView.docRange n).Pairwise (· < ·) := by
  unfold DeleteSegmentView.docRange
  rw [List.pairwise_map]
  exact List.pairwise_lt_range.imp fun h => Int.ofNat_lt.2 h

/-! ## One term -/

/-- An ascending dictionary has one entry for a term. -/
theorem entry_unique {terms : List TermEntry} (h : terms.Pairwise fun a b => a.bytes < b.bytes)
    {a b : TermEntry} (ha : a ∈ terms) (hb : b ∈ terms) (heq : a.bytes = b.bytes) : a = b := by
  induction terms with
  | nil => cases ha
  | cons e terms ih =>
    obtain ⟨hlt, htail⟩ := List.pairwise_cons.1 h
    rcases List.mem_cons.1 ha with rfl | ha'
    · rcases List.mem_cons.1 hb with rfl | hb'
      · rfl
      · exact absurd (heq ▸ hlt b hb') (List.lt_irrefl _)
    · rcases List.mem_cons.1 hb with rfl | hb'
      · exact absurd (heq ▸ hlt a ha') (List.lt_irrefl _)
      · exact ih htail ha' hb'

theorem resolveTermDocIds_ok (field : String) (term : List U8) :
    ∃ docs, s.resolveTermDocIds field term = .ok docs ∧ docs.Pairwise (· < ·) ∧
      ∀ d, d ∈ docs ↔ s.Candidate d ∧ s.HasTerm field term d := by
  unfold DeleteSegmentView.resolveTermDocIds HasTerm
  cases hf : s.fields field with
  | none => exact ⟨[], rfl, .nil, by simp⟩
  | some terms =>
    dsimp only
    cases hfind : terms.find? fun entry => entry.bytes == term with
    | none =>
      refine ⟨[], rfl, .nil, ?_⟩
      intro d
      apply iff_of_false (List.not_mem_nil)
      intro ⟨_, terms', hterms', entry, hentry, hbytes, _⟩
      cases hterms'
      exact List.find?_eq_none.1 hfind entry hentry (by simp [hbytes])
    | some entry =>
      have hentry := List.mem_of_find?_eq_some hfind
      have hbytes : entry.bytes = term := by simpa using List.find?_some hfind
      have hlt := s.docs_lt field terms hf entry hentry
      have hasc := s.docs_ascending field terms hf entry hentry
      have hterm : ∀ d, d ∈ entry.docs ↔ ∃ terms', some terms = some terms' ∧
          ∃ e ∈ terms', e.bytes = term ∧ d ∈ e.docs := by
        intro d
        constructor
        · exact fun hd => ⟨terms, rfl, entry, hentry, hbytes, hd⟩
        · intro ⟨terms', hterms', e, he, heb, hd⟩
          cases hterms'
          have heq := entry_unique (s.terms_ascending field terms hf) he hentry
            (heb.trans hbytes.symm)
          exact heq ▸ hd
      dsimp only
      cases hl : s.liveDocs with
      | none =>
        refine ⟨entry.docs, rfl, hasc, ?_⟩
        intro d
        rw [← hterm d]
        unfold Candidate Alive
        rw [hl]
        constructor
        · exact fun hd => ⟨⟨(hlt d hd).1, (hlt d hd).2, by simp⟩, hd⟩
        · exact fun h => h.2
      | some bits =>
        dsimp only
        rw [s.liveTermDocs_eq hl _ hlt]
        obtain ⟨out, hout, hsub, hmem⟩ := s.liveDocsWhere_ok (fun _ => true) entry.docs hlt
        refine ⟨out, hout, hasc.sublist hsub, ?_⟩
        intro d
        rw [hmem, ← hterm d]
        constructor
        · exact fun h => ⟨⟨(hlt d h.1).1, (hlt d h.1).2, h.2.1⟩, h.1⟩
        · exact fun h => ⟨h.2, h.1.2.2, rfl⟩

/-! ## The walks over a dictionary -/

/-- A classifier of `resolve_term_span` keeps what is in the span, and nothing in
the span is behind a term where it stops. -/
structure Cuts (classify : List U8 → TermSpan) (span : List U8 → Prop) : Prop where
  take : ∀ t, classify t = .take ↔ span t
  stop : ∀ t, classify t = .stop → ∀ t', t < t' → ¬ span t'

/-- The walk keeps the terms of the span. -/
theorem Cuts.mem_matchedTerms {classify : List U8 → TermSpan} {span : List U8 → Prop}
    (h : Cuts classify span) {terms : List TermEntry}
    (hasc : terms.Pairwise fun a b => a.bytes < b.bytes) {t : List U8} :
    t ∈ matchedTerms classify terms ↔ span t ∧ ∃ entry ∈ terms, entry.bytes = t := by
  induction terms with
  | nil => simp [matchedTerms]
  | cons e terms ih =>
    obtain ⟨hlt, htail⟩ := List.pairwise_cons.1 hasc
    have hhead := h.take e.bytes
    rw [matchedTerms]
    cases hc : classify e.bytes with
    | take =>
      have hspan := hhead.1 hc
      dsimp only
      rw [List.mem_cons, ih htail, List.exists_mem_cons_iff]
      constructor
      · intro ht
        rcases ht with rfl | ⟨hspan', hmem⟩
        · exact ⟨hspan, Or.inl rfl⟩
        · exact ⟨hspan', Or.inr hmem⟩
      · intro ⟨hspan', hmem⟩
        rcases hmem with rfl | hmem
        · exact Or.inl rfl
        · exact Or.inr ⟨hspan', hmem⟩
    | skip =>
      dsimp only
      rw [ih htail, List.exists_mem_cons_iff]
      constructor
      · exact fun ht => ⟨ht.1, Or.inr ht.2⟩
      · intro ⟨hspan', hmem⟩
        rcases hmem with rfl | hmem
        · rw [hhead.2 hspan'] at hc
          cases hc
        · exact ⟨hspan', hmem⟩
    | stop =>
      -- no later term is in the span
      apply iff_of_false (List.not_mem_nil)
      intro ⟨hspan', hmem⟩
      rcases List.exists_mem_cons_iff _ _ _ |>.1 hmem with rfl | ⟨e', he', rfl⟩
      · rw [hhead.2 hspan'] at hc
        cases hc
      · exact h.stop _ hc _ (hlt e' he') hspan'

theorem termsDocIds_ok (field : String) : ∀ terms : List (List U8),
    ∃ docs, s.termsDocIds field terms = .ok docs ∧
      ∀ d, d ∈ docs ↔ ∃ t ∈ terms, s.Candidate d ∧ s.HasTerm field t d := by
  intro terms
  induction terms with
  | nil => exact ⟨[], rfl, by simp⟩
  | cons t terms ih =>
    obtain ⟨docs, hdocs, -, hmem⟩ := s.resolveTermDocIds_ok field t
    obtain ⟨out, hout, hmem'⟩ := ih
    unfold DeleteSegmentView.termsDocIds
    rw [hdocs, ok_bind, hout, ok_bind]
    refine ⟨_, rfl, ?_⟩
    intro d
    rw [List.mem_append, hmem, hmem', List.exists_mem_cons_iff]

theorem resolveTermSpan_ok {classify : List U8 → TermSpan} {span : List U8 → Prop}
    (h : Cuts classify span) (field : String) :
    ∃ docs, s.resolveTermSpan field classify = .ok docs ∧ docs.Pairwise (· < ·) ∧
      ∀ d, d ∈ docs ↔ s.Candidate d ∧ ∃ t, span t ∧ s.HasTerm field t d := by
  unfold DeleteSegmentView.resolveTermSpan
  cases hf : s.fields field with
  | none => exact ⟨[], rfl, .nil, by simp [HasTerm, hf]⟩
  | some terms =>
    obtain ⟨docs, hdocs, hmem⟩ := s.termsDocIds_ok field (matchedTerms classify terms)
    obtain ⟨hasc, hmem'⟩ := dedup_sortUnstable docs
    dsimp only
    rw [hdocs, ok_bind]
    refine ⟨_, rfl, hasc, ?_⟩
    intro d
    rw [hmem', hmem]
    constructor
    · intro ⟨t, ht, hcand, hterm⟩
      exact ⟨hcand, t, ((h.mem_matchedTerms (s.terms_ascending field terms hf)).1 ht).1, hterm⟩
    · intro ⟨hcand, t, hspan, hterm⟩
      refine ⟨t, ?_, hcand, hterm⟩
      obtain ⟨terms', hf', entry, hentry, hbytes, -⟩ := hterm
      cases hf.symm.trans hf'
      exact (h.mem_matchedTerms (s.terms_ascending field terms hf)).2
        ⟨hspan, entry, hentry, hbytes⟩

/-- A term above a prefix that does not start with it is above all that do. -/
theorem not_prefix_of_lt {bytes : List U8} : ∀ {t t' : List U8}, bytes < t → ¬ bytes <+: t →
    t < t' → ¬ bytes <+: t' := by
  induction bytes with
  | nil => exact fun _ h => absurd (List.nil_prefix) h
  | cons b bytes ih =>
    intro t t' hlt hnot hlt' hpre
    cases t with
    | nil => exact absurd hlt (List.not_lt_nil _)
    | cons c t =>
      cases t' with
      | nil => exact absurd hlt' (List.not_lt_nil _)
      | cons c' t' =>
        obtain ⟨heq, hpre'⟩ := List.cons_prefix_cons.1 hpre
        subst heq
        rcases List.cons_lt_cons_iff.1 hlt with hbc | ⟨rfl, htail⟩
        · rcases List.cons_lt_cons_iff.1 hlt' with hcb | ⟨rfl, _⟩
          · exact absurd hbc (by bv_omega)
          · exact absurd hbc (by bv_omega)
        · rcases List.cons_lt_cons_iff.1 hlt' with hcb | ⟨_, htail'⟩
          · exact absurd hcb (by bv_omega)
          · exact ih htail (fun h => hnot (List.cons_prefix_cons.2 ⟨rfl, h⟩)) htail' hpre'

theorem prefixSpan_cuts (bytes : List U8) : Cuts (prefixSpan bytes) (bytes <+: ·) := by
  apply Cuts.mk
  · intro t
    unfold prefixSpan
    split
    next h => exact iff_of_true rfl (List.isPrefixOf_iff_prefix.1 h)
    next h =>
      rw [List.isPrefixOf_iff_prefix] at h
      apply iff_of_false _ h
      split <;> exact TermSpan.noConfusion
  · intro t hstop t' hlt
    unfold prefixSpan at hstop
    split at hstop
    · cases hstop
    next hnot =>
      rw [List.isPrefixOf_iff_prefix] at hnot
      split at hstop
      next hgt => exact not_prefix_of_lt hgt hnot hlt
      · cases hstop

theorem belowLower_iff {lower : Option (List U8)} {includeLower : Bool} {t : List U8} :
    belowLower lower includeLower t = false ↔
      ∀ lo, lower = some lo → lo < t ∨ includeLower = true ∧ lo = t := by
  unfold belowLower
  cases lower with
  | none => simp
  | some lo =>
    simp only [Option.some.injEq, forall_eq']
    cases includeLower with
    | true => simp [List.le_iff_lt_or_eq]
    | false => simp

theorem aboveUpper_iff {upper : Option (List U8)} {includeUpper : Bool} {t : List U8} :
    aboveUpper upper includeUpper t = false ↔
      ∀ hi, upper = some hi → t < hi ∨ includeUpper = true ∧ t = hi := by
  unfold aboveUpper
  cases upper with
  | none => simp
  | some hi =>
    simp only [Option.some.injEq, forall_eq']
    cases includeUpper with
    | true => simp [List.le_iff_lt_or_eq]
    | false => simp

theorem rangeSpan_cuts (lower upper : Option (List U8)) (includeLower includeUpper : Bool) :
    Cuts (rangeSpan lower upper includeLower includeUpper)
      (InRange lower upper includeLower includeUpper) := by
  apply Cuts.mk
  · intro t
    unfold rangeSpan InRange
    rw [← belowLower_iff, ← aboveUpper_iff]
    cases belowLower lower includeLower t <;> cases aboveUpper upper includeUpper t <;> simp
  · intro t hstop t' hlt hin
    have hbelow : aboveUpper upper includeUpper t = false := by
      rw [aboveUpper_iff]
      intro hi hupper
      rcases hin.2 hi hupper with h | ⟨-, rfl⟩
      · exact Or.inl (List.lt_trans hlt h)
      · exact Or.inl hlt
    unfold rangeSpan at hstop
    rw [hbelow] at hstop
    cases h : belowLower lower includeLower t <;> simp [h] at hstop

/-! ## The clauses -/

/-- The resolved doc ids are ascending, and below the bound they are the live
documents with the property. -/
structure Answers (bound : Nat) (sat : Int → Prop) (docs : List Int) : Prop where
  ascending : docs.Pairwise (· < ·)
  mem : ∀ d : Int, d < bound → (d ∈ docs ↔ s.Candidate d ∧ sat d)

variable {s} in
theorem Answers.of_sorted {bound : Nat} {sat : Int → Prop} {docs : List Int}
    (h : ∀ d : Int, d < bound → (d ∈ docs ↔ s.Candidate d ∧ sat d)) :
    s.Answers bound sat (dedup (sortUnstable docs)) := by
  obtain ⟨hasc, hmem⟩ := dedup_sortUnstable docs
  exact ⟨hasc, fun d hd => (hmem d).trans (h d hd)⟩

/-- `MatchAll` and `Not`: what a filter of all live documents answers. -/
theorem liveDocsWhere_answers (bound : Nat) {keep : Int → Bool} {sat : Int → Prop}
    (h : ∀ d : Int, d < bound → s.Candidate d → (keep d = true ↔ sat d)) :
    ∃ docs, s.liveDocsWhere keep (DeleteSegmentView.docRange (min bound s.maxDoc)) = .ok docs ∧
      s.Answers bound sat docs := by
  have hlt : min bound s.maxDoc < 2 ^ 31 := by
    have := s.maxDoc_lt
    omega
  obtain ⟨docs, hdocs, hsub, hmem⟩ := s.liveDocsWhere_ok keep
    (DeleteSegmentView.docRange (min bound s.maxDoc)) (fun d hd => by
      rw [mem_docRange hlt] at hd
      omega)
  refine ⟨docs, hdocs, (docRange_pairwise _).sublist hsub, ?_⟩
  intro d hd
  rw [hmem, mem_docRange hlt]
  constructor
  · intro ⟨hrange, halive, hkeep⟩
    have hcand : s.Candidate d := ⟨hrange.1, by omega, halive⟩
    exact ⟨hcand, (h d hd hcand).1 hkeep⟩
  · intro ⟨hcand, hsat⟩
    have hlt' := hcand.2.1
    exact ⟨⟨hcand.1, by omega⟩, hcand.2.2, (h d hd hcand).2 hsat⟩

mutual

/-- Every shape of query answers its meaning. -/
theorem resolveDeleteQuery_answers (bound : Nat) : ∀ query : DeleteQuery,
    ∃ docs, s.resolveDeleteQuery bound query = .ok docs ∧
      s.Answers bound (s.Satisfies · query) docs
  | .term term => by
    obtain ⟨docs, hdocs, hasc, hmem⟩ := s.resolveTermDocIds_ok term.field term.bytes
    rw [DeleteSegmentView.resolveDeleteQuery]
    exact ⟨docs, hdocs, hasc, fun d _ => by rw [hmem, Satisfies]⟩
  | .matchAll => by
    rw [DeleteSegmentView.resolveDeleteQuery]
    exact s.liveDocsWhere_answers bound fun d _ _ => by simp [Satisfies]
  | .prefixOf field bytes => by
    obtain ⟨docs, hdocs, hasc, hmem⟩ := s.resolveTermSpan_ok (prefixSpan_cuts bytes) field
    rw [DeleteSegmentView.resolveDeleteQuery]
    exact ⟨docs, hdocs, hasc, fun d _ => by rw [hmem, Satisfies]⟩
  | .termRange field lower upper includeLower includeUpper => by
    obtain ⟨docs, hdocs, hasc, hmem⟩ :=
      s.resolveTermSpan_ok (rangeSpan_cuts lower upper includeLower includeUpper) field
    rw [DeleteSegmentView.resolveDeleteQuery]
    exact ⟨docs, hdocs, hasc, fun d _ => by rw [hmem, Satisfies]⟩
  | .any clauses => by
    obtain ⟨docs, hdocs, hmem⟩ := resolveAny_answers bound clauses
    rw [DeleteSegmentView.resolveDeleteQuery, hdocs, ok_bind]
    exact ⟨_, rfl, Answers.of_sorted fun d hd => by rw [hmem d hd, Satisfies]⟩
  | .all clauses => by
    obtain ⟨docs, hdocs, hans⟩ := resolveAll_answers bound clauses
    rw [DeleteSegmentView.resolveDeleteQuery]
    exact ⟨docs, hdocs, hans.ascending, fun d hd => by rw [hans.mem d hd, Satisfies]⟩
  | .not inner => by
    obtain ⟨excluded, hexcluded, hans⟩ := resolveDeleteQuery_answers bound inner
    obtain ⟨hasc, hmem⟩ := dedup_sortUnstable excluded
    rw [DeleteSegmentView.resolveDeleteQuery, hexcluded, ok_bind]
    apply s.liveDocsWhere_answers bound
    intro d hd hcand
    rw [Bool.not_eq_true', Bool.eq_false_iff, Ne, binarySearch_iff hasc, hmem, hans.mem d hd,
      Satisfies]
    exact not_congr (and_iff_right hcand)

theorem resolveAny_answers (bound : Nat) : ∀ clauses : List DeleteQuery,
    ∃ docs, s.resolveAny bound clauses = .ok docs ∧
      ∀ d : Int, d < bound → (d ∈ docs ↔ s.Candidate d ∧ s.SatisfiesSome d clauses)
  | [] => ⟨[], by rw [DeleteSegmentView.resolveAny], by simp [SatisfiesSome]⟩
  | clause :: clauses => by
    obtain ⟨docs, hdocs, hans⟩ := resolveDeleteQuery_answers bound clause
    obtain ⟨out, hout, hmem⟩ := resolveAny_answers bound clauses
    rw [DeleteSegmentView.resolveAny, hdocs, ok_bind, hout, ok_bind]
    refine ⟨_, rfl, fun d hd => ?_⟩
    rw [List.mem_append, hans.mem d hd, hmem d hd, SatisfiesSome, and_or_left]

theorem resolveAll_answers (bound : Nat) : ∀ clauses : List DeleteQuery,
    ∃ docs, s.resolveAll bound clauses = .ok docs ∧
      s.Answers bound (fun d => clauses ≠ [] ∧ s.SatisfiesEvery d clauses) docs
  | [] => ⟨[], by rw [DeleteSegmentView.resolveAll], .nil, by simp⟩
  | first :: clauses => by
    obtain ⟨out, hout, hans⟩ := resolveDeleteQuery_answers bound first
    obtain ⟨hasc, hmem'⟩ := dedup_sortUnstable out
    obtain ⟨docs, hdocs, hsub, hmem⟩ :=
      retainClauses_answers bound clauses (dedup (sortUnstable out)) fun d hd hmem =>
        ((hans.mem d hd).1 ((hmem' d).1 hmem)).1
    rw [DeleteSegmentView.resolveAll, hout, ok_bind]
    refine ⟨docs, hdocs, hasc.sublist hsub, fun d hd => ?_⟩
    rw [hmem d hd, hmem', hans.mem d hd, SatisfiesEvery, and_assoc]
    simp

theorem retainClauses_answers (bound : Nat) : ∀ (clauses : List DeleteQuery) (out : List Int),
    (∀ d : Int, d < bound → d ∈ out → s.Candidate d) →
      ∃ docs, s.retainClauses bound clauses out = .ok docs ∧ docs.Sublist out ∧
        ∀ d : Int, d < bound → (d ∈ docs ↔ d ∈ out ∧ s.SatisfiesEvery d clauses)
  | [], out => fun _ =>
    ⟨out, by rw [DeleteSegmentView.retainClauses], .refl out, by simp [SatisfiesEvery]⟩
  | clause :: clauses, out => fun hcand => by
    obtain ⟨next, hnext, hans⟩ := resolveDeleteQuery_answers bound clause
    obtain ⟨hasc, hmem'⟩ := dedup_sortUnstable next
    have hkeep : ∀ d : Int, d < bound →
        (d ∈ out.filter (fun d => binarySearch (dedup (sortUnstable next)) d) ↔
          d ∈ out ∧ s.Satisfies d clause) := by
      intro d hd
      rw [List.mem_filter, binarySearch_iff hasc, hmem', hans.mem d hd]
      exact and_congr_right fun hmem => and_iff_right (hcand d hd hmem)
    obtain ⟨docs, hdocs, hsub, hmem⟩ := retainClauses_answers bound clauses
      (out.filter fun d => binarySearch (dedup (sortUnstable next)) d) fun d hd hmem =>
        hcand d hd ((hkeep d hd).1 hmem).1
    rw [DeleteSegmentView.retainClauses, hnext, ok_bind]
    refine ⟨docs, hdocs, hsub.trans List.filter_sublist, fun d hd => ?_⟩
    rw [hmem d hd, hkeep d hd, SatisfiesEvery, and_assoc]

end

/-- A query resolves to its meaning: below the bound, and without repetition, the
resolved doc ids are the live documents of the segment that satisfy it. -/
theorem resolveDeleteQuery_exact (query : DeleteQuery) (maxDocBound : Nat) :
    ∃ docs, s.resolveDeleteQuery maxDocBound query = .ok docs ∧ docs.Nodup ∧
      ∀ d : Int, (d ∈ docs ∧ d < maxDocBound) ↔
        (0 ≤ d ∧ d < (min maxDocBound s.maxDoc : Nat)) ∧ s.Alive d ∧ s.Satisfies d query := by
  obtain ⟨docs, hdocs, hans⟩ := s.resolveDeleteQuery_answers maxDocBound query
  refine ⟨docs, hdocs, hans.ascending.imp fun h => ne_of_lt h, ?_⟩
  intro d
  constructor
  · intro ⟨hmem, hd⟩
    obtain ⟨hcand, hsat⟩ := (hans.mem d hd).1 hmem
    have := hcand.2.1
    exact ⟨⟨hcand.1, by omega⟩, hcand.2.2, hsat⟩
  · intro ⟨hrange, halive, hsat⟩
    have hd : d < maxDocBound := by omega
    exact ⟨(hans.mem d hd).2 ⟨⟨hrange.1, by omega, halive⟩, hsat⟩, hd⟩

/-- Three documents, with three terms in one field. -/
def sampleTerms : List TermEntry := [⟨[1#8], [0]⟩, ⟨[1#8, 2#8], [1]⟩, ⟨[2#8], [0, 2]⟩]

/-- A segment with these terms and no deletes. -/
def sample : DeleteSegment where
  maxDoc := 3
  liveDocs := none
  fields := fun field => if field = "id" then some sampleTerms else none
  maxDoc_lt := by decide
  terms_ascending := by
    intro field terms h
    split at h <;> cases h
    decide
  docs_ascending := by
    intro field terms h
    split at h <;> cases h
    decide
  docs_lt := by
    intro field terms h
    split at h <;> cases h
    decide
  liveDocs_length := by
    intro bits h
    cases h

/-- The documents without a term that starts with byte 1, but with one in a range. -/
def sampleQuery : DeleteQuery :=
  .all [.termRange "id" (some [1#8]) none false true, .not (.prefixOf "id" [1#8])]

example : sample.resolveDeleteQuery 3 sampleQuery = .ok [2] := by decide

theorem resolveDeleteQuery_exact_sample : ∃ docs,
    sample.resolveDeleteQuery 2 sampleQuery = .ok docs ∧ docs.Nodup ∧
      ∀ d : Int, (d ∈ docs ∧ d < 2) ↔
        (0 ≤ d ∧ d < (min 2 sample.maxDoc : Nat)) ∧ sample.Alive d ∧
          sample.Satisfies d sampleQuery :=
  sample.resolveDeleteQuery_exact sampleQuery 2

end DeleteSegment

end LuceneRust.Index
