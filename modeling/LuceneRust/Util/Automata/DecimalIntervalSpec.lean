import LuceneRust.Util.Automata.BuilderNodes
import LuceneRust.Util.Automata.DecimalNumerals
import LuceneRust.Util.Automata.RemoveDeadStates

/-!
# What a decimal interval accepts

The specifications of the constructors of `make_decimal_interval`.

* `anyOfRightLength_spec`, `atLeast_spec`, `atMost_spec` and `between_spec`
  give the strings that the new state is for.
* `Entries` is what the initial states are for: a numeral whose first zeros
  are left out.
-/

namespace LuceneRust.Util.Automata

open RustSem

variable {x y : List Char} {b b' : Builder} {L L' : Meaning} {P : Nat → Prop}
  {K K₁ : List Int → Prop} {lo n n' m q : Nat} {c d : Int} {zeros : Bool} {ps initials : List Nat}

/-- The labels of a numeral from the position `n` on. -/
def labels (x : List Char) (n : Nat) : List Int :=
  (x.drop n).map digitLabel

theorem length_labels (x : List Char) (n : Nat) : (labels x n).length = x.length - n := by
  rw [labels, List.length_map, List.length_drop]

theorem labels_length (x : List Char) : labels x x.length = [] := by
  rw [labels, List.drop_length, List.map_nil]

/-- The digit at the position `n`. -/
theorem digit_spec (hn : n < x.length) :
    ∃ c, digit x n = .ok c ∧ labels x n = c :: labels x (n + 1) := by
  refine ⟨digitLabel x[n], ?_, ?_⟩
  · unfold digit
    rw [List.getElem?_eq_getElem hn]
    rfl
  · unfold labels
    rw [List.drop_eq_getElem_cons hn, List.map_cons]

theorem digits_labels (hx : Digits (labels x 0)) (n : Nat) : Digits (labels x n) := by
  intro c hc
  apply hx
  unfold labels at hc ⊢
  rw [List.drop_zero]
  exact List.map_subset _ (List.drop_subset n x) hc

/-! ## The initial states of an interval -/

/-- The states `ps`, from `lo` on and below `n`, are for the strings of `K`,
of `len` digits, from behind some of their first zeros on. -/
structure Entries (L : Meaning) (lo n : Nat) (zeros : Bool) (K : List Int → Prop) (len : Nat)
    (ps : List Nat) : Prop where
  ge : ∀ p ∈ ps, lo ≤ p
  lt : ∀ p ∈ ps, p < n
  sound : ∀ p ∈ ps, ∃ k < len, ∀ s, L p s ↔ K (List.replicate k 48 ++ s)
  complete : zeros = true → ∀ k < len, ∀ s, K (List.replicate k 48 ++ s) → ∃ p ∈ ps, L p s
  none : zeros = false → ps = []

theorem Entries.zero (L : Meaning) (lo n : Nat) (zeros : Bool) (K : List Int → Prop) :
    Entries L lo n zeros K 0 [] where
  ge _ hp := nomatch hp
  lt _ hp := nomatch hp
  sound _ hp := nomatch hp
  complete _ _ hk := nomatch hk
  none _ := rfl

theorem Entries.grown (h : Entries L lo n zeros K m ps) (hn : n ≤ n')
    (hL : ∀ q < n, L' q = L q) : Entries L' lo n' zeros K m ps where
  ge := h.ge
  lt p hp := (h.lt p hp).trans_le hn
  sound p hp := by
    rw [hL p (h.lt p hp)]
    exact h.sound p hp
  complete hz k hk s hs := by
    rcases h.complete hz k hk s hs with ⟨p, hp, hps⟩
    refine ⟨p, hp, ?_⟩
    rw [hL p (h.lt p hp)]
    exact hps
  none := h.none

/-- A state in front of the entries of the state behind its zero. -/
theorem Entries.node (h : Entries L lo n (zeros && d == digitLabel '0') K₁ m ps) (hlo : q ≤ lo)
    (hq : q < n) (hroot : L q = K) (hzero : ∀ s, K (48 :: s) ↔ d = 48 ∧ K₁ s) :
    Entries L q n zeros K (m + 1) ((if zeros then [q] else []) ++ ps) where
  ge p hp := by
    rcases List.mem_append.1 hp with hp | hp
    · split at hp
      · rw [List.mem_singleton.1 hp]
      · cases hp
    · exact hlo.trans (h.ge p hp)
  lt p hp := by
    rcases List.mem_append.1 hp with hp | hp
    · split at hp
      · rw [List.mem_singleton.1 hp]
        exact hq
      · cases hp
    · exact h.lt p hp
  sound p hp := by
    rcases List.mem_append.1 hp with hp | hp
    · split at hp
      · rw [List.mem_singleton.1 hp, hroot]
        exact ⟨0, Nat.succ_pos m, fun s => Iff.rfl⟩
      · cases hp
    · have hd : d = 48 := by
        by_contra hne
        have hfalse : (zeros && d == digitLabel '0') = false := by
          have : (d == digitLabel '0') = false := beq_eq_false_iff_ne.2 hne
          rw [this, Bool.and_false]
        rw [h.none hfalse] at hp
        cases hp
      rcases h.sound p hp with ⟨k, hk, hL⟩
      refine ⟨k + 1, by omega, ?_⟩
      intro s
      rw [hL, List.replicate_succ, List.cons_append, hzero]
      simp [hd]
  complete hz k hk s hs := by
    cases k with
    | zero =>
      refine ⟨q, ?_, ?_⟩
      · simp [hz]
      · rw [hroot]
        exact hs
    | succ k =>
      rw [List.replicate_succ, List.cons_append, hzero] at hs
      have hflag : (zeros && d == digitLabel '0') = true := by
        rw [hz, hs.1]
        rfl
      rcases h.complete hflag k (by omega) s hs.2 with ⟨p, hp, hps⟩
      exact ⟨p, List.mem_append_right _ hp, hps⟩
  none hz := by
    have hnil : ps = [] := h.none (by rw [hz, Bool.false_and])
    rw [hz, hnil]
    rfl

/-! ## The constructors -/

theorem createState_eq (b : Builder) : b.createState = (b.createState.1, b.numStates) := rfl

theorem push_initial (zeros : Bool) (initials : List Nat) (q : Nat) :
    (if zeros then initials ++ [q] else initials) = initials ++ if zeros then [q] else [] := by
  cases zeros <;> simp

theorem anyOfRightLength_spec (x : List Char) :
    ∀ (fuel : Nat) {b : Builder} {L : Meaning} {P : Nat → Prop} {n : Nat}, Draft b L P →
      n ≤ x.length → x.length - n < fuel →
      ∃ b' L', anyOfRightLength x fuel b n = .ok (b', b.numStates) ∧
        Drawn b L P (AnyOf (x.length - n)) b' L' := by
  intro fuel
  induction fuel with
  | zero =>
    intro b L P n _ _ hfuel
    exact absurd hfuel (Nat.not_lt_zero _)
  | succ fuel ih =>
    intro b L P n h hn hfuel
    have hnode := Node.create h (AnyOf (x.length - n))
    rw [anyOfRightLength, createState_eq]
    dsimp only
    by_cases hlen : x.length = n
    · have hnil : ∀ s, AnyOf (x.length - n) s ↔ s = [] := by
        intro s
        rw [hlen, Nat.sub_self]
        exact anyOf_zero
      rcases hnode.accept hnil with ⟨b', hb', hdrawn⟩
      rw [if_pos hlen, hb']
      exact ⟨b', _, rfl, hdrawn⟩
    · rcases ih (n := n + 1) hnode.draft (by omega) (by omega) with ⟨b₁, L₁, hcall, hchild⟩
      rw [if_neg hlen, hcall]
      have hedge := (hnode.child hchild).edge hchild.lt hchild.root (digitLabel '0')
        (digitLabel '9')
      have hsplit : x.length - n = x.length - (n + 1) + 1 := by omega
      refine ⟨_, L₁, rfl, hedge.close ?_ ?_⟩
      · rw [hsplit]
        exact not_anyOf_nil
      · intro c s
        rw [hsplit, anyOf_cons, false_or]
        rfl

theorem atMost_spec {y : List Char} (hy : Digits (labels y 0)) :
    ∀ (fuel : Nat) {b : Builder} {L : Meaning} {P : Nat → Prop} {n : Nat}, Draft b L P →
      n ≤ y.length → y.length - n < fuel →
      ∃ b' L', atMost y fuel b n = .ok (b', b.numStates) ∧
        Drawn b L P (AtMost (labels y n)) b' L' := by
  intro fuel
  induction fuel with
  | zero =>
    intro b L P n _ _ hfuel
    exact absurd hfuel (Nat.not_lt_zero _)
  | succ fuel ih =>
    intro b L P n h hn hfuel
    have hnode := Node.create h (AtMost (labels y n))
    rw [atMost, createState_eq]
    dsimp only
    by_cases hlen : y.length = n
    · have hnil : ∀ s, AtMost (labels y n) s ↔ s = [] := by
        intro s
        rw [← hlen, labels_length]
        unfold AtMost
        rw [List.length_nil, anyOf_zero]
        constructor
        · intro hs
          exact hs.1
        · intro hs
          rw [hs]
          exact ⟨rfl, le_refl _⟩
      rcases hnode.accept hnil with ⟨b', hb', hdrawn⟩
      rw [if_pos hlen, hb']
      exact ⟨b', _, rfl, hdrawn⟩
    · rcases digit_spec (show n < y.length by omega) with ⟨c, hc, hcons⟩
      rcases ih (n := n + 1) hnode.draft (by omega) (by omega) with ⟨b₁, L₁, hcall, hchild⟩
      have hdigits : Digits (c :: labels y (n + 1)) := by
        rw [← hcons]
        exact digits_labels hy n
      have hnil : ¬ AtMost (labels y n) [] := by
        rw [hcons]
        intro h
        exact not_anyOf_nil h.1
      rw [if_neg hlen, hc, ok_bind, hcall, ok_bind]
      dsimp only
      have hedge := (hnode.child hchild).edge hchild.lt hchild.root c c
      by_cases hlt : c > digitLabel '0'
      · rcases anyOfRightLength_spec y fuel (n := n + 1) hedge.draft (by omega) (by omega) with
          ⟨b₂, L₂, hcall₂, hchild₂⟩
        rw [if_pos hlt]
        unfold Builder.addTransitionLabel
        rw [hcall₂]
        have hedge₂ := (hedge.child hchild₂).edge hchild₂.lt hchild₂.root (digitLabel '0') (c - 1)
        refine ⟨_, L₂, rfl, hedge₂.close hnil ?_⟩
        intro e s
        rw [hcons, atMost_cons hdigits, false_or, length_labels]
        rfl
      · rw [if_neg hlt]
        refine ⟨_, L₁, rfl, hedge.close hnil ?_⟩
        intro e s
        rw [hcons, atMost_cons hdigits, false_or]
        have hempty : ¬ (48 ≤ e ∧ e ≤ c - 1) := by
          intro he
          have : ¬ c > 48 := hlt
          omega
        rw [or_iff_left fun h => hempty h.1]

theorem atLeast_spec {x : List Char} (hx : Digits (labels x 0)) :
    ∀ (fuel : Nat) {b : Builder} {L : Meaning} {P : Nat → Prop} {n : Nat} (initials : List Nat)
      (zeros : Bool), Draft b L P → n ≤ x.length → x.length - n < fuel →
      ∃ b' L' ps, atLeast x fuel b n initials zeros = .ok (b', initials ++ ps, b.numStates) ∧
        Drawn b L P (AtLeast (labels x n)) b' L' ∧
        Entries L' b.numStates b'.numStates zeros (AtLeast (labels x n)) (x.length - n) ps := by
  intro fuel
  induction fuel with
  | zero =>
    intro b L P n _ _ _ _ hfuel
    exact absurd hfuel (Nat.not_lt_zero _)
  | succ fuel ih =>
    intro b L P n initials zeros h hn hfuel
    have hnode := Node.create h (AtLeast (labels x n))
    rw [atLeast, createState_eq]
    dsimp only
    by_cases hlen : x.length = n
    · have hnil : ∀ s, AtLeast (labels x n) s ↔ s = [] := by
        intro s
        rw [← hlen, labels_length]
        unfold AtLeast
        rw [List.length_nil, anyOf_zero]
        constructor
        · intro hs
          exact hs.1
        · intro hs
          rw [hs]
          exact ⟨rfl, le_refl _⟩
      rcases hnode.accept hnil with ⟨b', hb', hdrawn⟩
      rw [if_pos hlen, hb', hlen, Nat.sub_self]
      exact ⟨b', _, [], by rw [List.append_nil]; rfl, hdrawn, .zero ..⟩
    · rcases digit_spec (show n < x.length by omega) with ⟨c, hc, hcons⟩
      rcases ih (n := n + 1) (initials ++ if zeros then [b.numStates] else [])
          (zeros && c == digitLabel '0') hnode.draft (by omega) (by omega) with
        ⟨b₁, L₁, ps, hcall, hchild, hentries⟩
      have hdigits : Digits (c :: labels x (n + 1)) := by
        rw [← hcons]
        exact digits_labels hx n
      have hnil : ¬ AtLeast (labels x n) [] := by
        rw [hcons]
        intro h
        exact not_anyOf_nil h.1
      have hzero : ∀ s, AtLeast (labels x n) (48 :: s) ↔ c = 48 ∧ AtLeast (labels x (n + 1)) s := by
        intro s
        have h48 := (digits_cons.1 hdigits).1.1
        rw [hcons, atLeast_cons hdigits]
        constructor
        · intro hs
          rcases hs with hs | hs
          · exact ⟨by omega, hs.2⟩
          · omega
        · intro hs
          exact .inl ⟨by omega, hs.2⟩
      have hsplit : x.length - n = x.length - (n + 1) + 1 := by omega
      rw [if_neg hlen, push_initial, hc, ok_bind, hcall, ok_bind]
      dsimp only
      have hedge := (hnode.child hchild).edge hchild.lt hchild.root c c
      by_cases hlt : c < digitLabel '9'
      · rcases anyOfRightLength_spec x fuel (n := n + 1) hedge.draft (by omega) (by omega) with
          ⟨b₂, L₂, hcall₂, hchild₂⟩
        rw [if_pos hlt]
        unfold Builder.addTransitionLabel
        rw [hcall₂]
        have hedge₂ := (hedge.child hchild₂).edge hchild₂.lt hchild₂.root (c + 1) (digitLabel '9')
        have hgrown := hentries.grown hchild₂.grown.le hchild₂.grown.meaning
        refine ⟨_, L₂, (if zeros then [b.numStates] else []) ++ ps, ?_, hedge₂.close hnil ?_, ?_⟩
        · rw [← List.append_assoc]
          rfl
        · intro e s
          rw [hcons, atLeast_cons hdigits, false_or, length_labels]
          rfl
        · rw [hsplit]
          exact hgrown.node hnode.lt.le hedge₂.lt hedge₂.root hzero
      · rw [if_neg hlt]
        refine ⟨_, L₁, (if zeros then [b.numStates] else []) ++ ps, ?_, hedge.close hnil ?_, ?_⟩
        · rw [← List.append_assoc]
          rfl
        · intro e s
          rw [hcons, atLeast_cons hdigits, false_or]
          have hempty : ¬ (c + 1 ≤ e ∧ e ≤ 57) := by
            intro he
            have : ¬ c < 57 := hlt
            omega
          rw [or_iff_left fun h => hempty h.1]
        · rw [hsplit]
          exact hentries.node hnode.lt.le hedge.lt hedge.root hzero

theorem between_spec {x y : List Char} (hx : Digits (labels x 0)) (hy : Digits (labels y 0))
    (hxy : x.length = y.length) :
    ∀ (fuel : Nat) {b : Builder} {L : Meaning} {P : Nat → Prop} {n : Nat} (initials : List Nat)
      (zeros : Bool), Draft b L P → n ≤ x.length → x.length - n < fuel →
      value (labels x n) ≤ value (labels y n) →
      ∃ b' L' ps, between x y fuel b n initials zeros = .ok (b', initials ++ ps, b.numStates) ∧
        Drawn b L P (Between (labels x n) (labels y n)) b' L' ∧
        Entries L' b.numStates b'.numStates zeros (Between (labels x n) (labels y n)) (x.length - n) ps := by
  intro fuel
  induction fuel with
  | zero =>
    intro b L P n _ _ _ _ hfuel
    exact absurd hfuel (Nat.not_lt_zero _)
  | succ fuel ih =>
    intro b L P n initials zeros h hn hfuel hle
    have hnode := Node.create h (Between (labels x n) (labels y n))
    rw [between, createState_eq]
    dsimp only
    by_cases hlen : x.length = n
    · have hnil : ∀ s, Between (labels x n) (labels y n) s ↔ s = [] := by
        intro s
        rw [← hlen, labels_length, hxy, labels_length]
        unfold Between
        rw [List.length_nil, anyOf_zero]
        constructor
        · intro hs
          exact hs.1
        · intro hs
          rw [hs]
          exact ⟨rfl, le_refl _, le_refl _⟩
      rcases hnode.accept hnil with ⟨b', hb', hdrawn⟩
      rw [if_pos hlen, hb', hlen, Nat.sub_self]
      exact ⟨b', _, [], by rw [List.append_nil]; rfl, hdrawn, .zero ..⟩
    · rcases digit_spec (show n < x.length by omega) with ⟨cx, hcx, hconsx⟩
      rcases digit_spec (show n < y.length by omega) with ⟨cy, hcy, hconsy⟩
      have hdx : Digits (cx :: labels x (n + 1)) := by
        rw [← hconsx]
        exact digits_labels hx n
      have hdy : Digits (cy :: labels y (n + 1)) := by
        rw [← hconsy]
        exact digits_labels hy n
      have hlen' : (labels x (n + 1)).length = (labels y (n + 1)).length := by
        rw [length_labels, length_labels, hxy]
      rw [hconsx, hconsy, value_cons_le (digits_cons.1 hdx).2 (digits_cons.1 hdy).2 hlen'] at hle
      have hnil : ¬ Between (labels x n) (labels y n) [] := by
        rw [hconsx]
        intro h
        exact not_anyOf_nil h.1
      have hsplit : x.length - n = x.length - (n + 1) + 1 := by omega
      rw [if_neg hlen, push_initial, hcx, ok_bind, hcy, ok_bind]
      by_cases heq : cx = cy
      · subst heq
        have hzero : ∀ s, Between (labels x n) (labels y n) (48 :: s) ↔
            cx = 48 ∧ Between (labels x (n + 1)) (labels y (n + 1)) s := by
          intro s
          rw [hconsx, hconsy, between_cons_same hdx hdy hlen']
          apply and_congr_left
          intro _
          omega
        rcases ih (n := n + 1) (initials ++ if zeros then [b.numStates] else [])
            (zeros && cx == digitLabel '0') hnode.draft (by omega) (by omega) (by omega) with
          ⟨b₁, L₁, ps, hcall, hchild, hentries⟩
        rw [if_pos rfl, hcall, ok_bind]
        have hedge := (hnode.child hchild).edge hchild.lt hchild.root cx cx
        refine ⟨_, L₁, (if zeros then [b.numStates] else []) ++ ps, ?_, hedge.close hnil ?_, ?_⟩
        · rw [← List.append_assoc]
          rfl
        · intro e s
          rw [hconsx, hconsy, between_cons_same hdx hdy hlen', false_or]
        · rw [hsplit]
          exact hentries.node hnode.lt.le hedge.lt hedge.root hzero
      · have hcxy : cx < cy := by omega
        have hzero : ∀ s, Between (labels x n) (labels y n) (48 :: s) ↔
            cx = 48 ∧ AtLeast (labels x (n + 1)) s := by
          intro s
          have h48 := (digits_cons.1 hdx).1.1
          rw [hconsx, hconsy, between_cons hdx hdy hlen' hcxy]
          constructor
          · intro hs
            rcases hs with (hs | hs) | hs
            · exact ⟨by omega, hs.2⟩
            · omega
            · omega
          · intro hs
            exact .inl (.inl ⟨by omega, hs.2⟩)
        rcases atLeast_spec hx fuel (n := n + 1) (initials ++ if zeros then [b.numStates] else [])
            (zeros && cx == digitLabel '0') hnode.draft (by omega) (by omega) with
          ⟨b₁, L₁, ps, hcall, hchild, hentries⟩
        rw [if_neg heq, hcall, ok_bind]
        dsimp only
        unfold Builder.addTransitionLabel
        have hedge := (hnode.child hchild).edge hchild.lt hchild.root cx cx
        rcases atMost_spec hy fuel (n := n + 1) hedge.draft (by omega) (by omega) with
          ⟨b₂, L₂, hcall₂, hchild₂⟩
        rw [hcall₂, ok_bind]
        dsimp only
        have hedge₂ := (hedge.child hchild₂).edge hchild₂.lt hchild₂.root cy cy
        have hgrown := hentries.grown hchild₂.grown.le hchild₂.grown.meaning
        by_cases hgap : cx + 1 < cy
        · rcases anyOfRightLength_spec x fuel (n := n + 1) hedge₂.draft (by omega) (by omega) with
            ⟨b₃, L₃, hcall₃, hchild₃⟩
          rw [if_pos hgap, hcall₃]
          have hedge₃ := (hedge₂.child hchild₃).edge hchild₃.lt hchild₃.root (cx + 1) (cy - 1)
          have hgrown₃ := hgrown.grown hchild₃.grown.le hchild₃.grown.meaning
          refine ⟨_, L₃, (if zeros then [b.numStates] else []) ++ ps, ?_, hedge₃.close hnil ?_, ?_⟩
          · rw [← List.append_assoc]
            rfl
          · intro e s
            rw [hconsx, hconsy, between_cons hdx hdy hlen' hcxy, false_or, length_labels]
          · rw [hsplit]
            exact hgrown₃.node hnode.lt.le hedge₃.lt hedge₃.root hzero
        · rw [if_neg hgap]
          refine ⟨_, L₂, (if zeros then [b.numStates] else []) ++ ps, ?_, hedge₂.close hnil ?_, ?_⟩
          · rw [← List.append_assoc]
            rfl
          · intro e s
            rw [hconsx, hconsy, between_cons hdx hdy hlen' hcxy, false_or]
            apply or_iff_left
            intro h
            omega
          · rw [hsplit]
            exact hgrown.node hnode.lt.le hedge₂.lt hedge₂.root hzero

end LuceneRust.Util.Automata
