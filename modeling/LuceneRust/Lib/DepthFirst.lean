import Mathlib.Logic.Relation
import Mathlib.Data.List.Infix
import Mathlib.Data.List.Lex
import Mathlib.Order.RelClasses
import Mathlib.Data.List.Basic

/-!
# Depth-first search of a graph with ordered arcs

A graph is given by the list of successors of each vertex.  This module has
what a proof about a depth-first search of it needs, whatever the search
keeps in its bit sets and its stack.

* `Arc`, `Reach` and `OnCycle`: arcs, what can be reached, and the vertices
  on a cycle.
* `Topological`: a list of finished vertices, the last one first, in which
  every arc leads further down the list, self-loops apart.
* `follow` walks along a list of arc numbers, and `Spine` says that a search
  has finished with all the arcs to the left of such a path.
  `Spine.smaller` is the fact that orders the discoveries: the ends of all
  lexicographically smaller paths have been discovered.
* `Discovered` lists the vertices in the order of their discovery, the last
  one first.
-/

namespace DepthFirst

variable {σ : Type*} (succ : σ → List σ) {q r d v w : σ} {p ρ : List ℕ} {l out : List σ}

/-- There is an arc from `q` to `d`. -/
def Arc (q d : σ) : Prop :=
  d ∈ succ q

/-- `d` can be reached from `q`. -/
def Reach (q d : σ) : Prop :=
  Relation.ReflTransGen (Arc succ) q d

/-- `q` is on a cycle. -/
def OnCycle (q : σ) : Prop :=
  Relation.TransGen (Arc succ) q q

/-- `q` is on a cycle with two vertices at least. -/
def OnLongCycle (q : σ) : Prop :=
  ∃ d, d ≠ q ∧ Reach succ q d ∧ Reach succ d q

variable {succ}

theorem OnLongCycle.onCycle (h : OnLongCycle succ q) : OnCycle succ q := by
  rcases h with ⟨d, hne, hqd, hdq⟩
  rcases hqd.cases_head with rfl | ⟨e, hqe, hed⟩
  · exact absurd rfl hne
  · exact Relation.TransGen.head' hqe (hed.trans hdq)

/-! ## Finished vertices -/

/-- Every arc from a vertex of the list leads further down the list, or back
to the vertex itself. -/
def Topological (succ : σ → List σ) : List σ → Prop
  | [] => True
  | v :: l => (∀ d ∈ succ v, d = v ∨ d ∈ l) ∧ Topological succ l

theorem Topological.closed (h : Topological succ out) (hq : q ∈ out) (hd : d ∈ succ q) : d ∈ out := by
  induction out with
  | nil => cases hq
  | cons v l ih =>
    rcases List.mem_cons.1 hq with rfl | hq
    · rcases h.1 d hd with rfl | hd
      · exact List.mem_cons_self
      · exact List.mem_cons_of_mem _ hd
    · exact List.mem_cons_of_mem _ (ih h.2 hq)

theorem Topological.closed_reach (h : Topological succ out) (hq : q ∈ out) (hd : Reach succ q d) :
    d ∈ out := by
  unfold Reach at hd
  induction hd with
  | refl => exact hq
  | tail _ harc ih => exact h.closed ih harc

/-- The source of an arc stands before its destination. -/
theorem Topological.sublist (h : Topological succ out) (hq : q ∈ out) (hd : d ∈ succ q)
    (hne : d ≠ q) : [q, d].Sublist out := by
  induction out with
  | nil => cases hq
  | cons v l ih =>
    rcases List.mem_cons.1 hq with rfl | hq
    · have hdl : d ∈ l := (h.1 d hd).resolve_left hne
      exact (List.singleton_sublist.2 hdl).cons_cons q
    · exact (ih h.2 hq).cons v

/-- Among finished vertices there is no cycle but self-loops. -/
theorem Topological.not_onLongCycle (h : Topological succ out) (hnodup : out.Nodup) (hq : q ∈ out) :
    ¬ OnLongCycle succ q := by
  intro ⟨d, hne, hqd, hdq⟩
  -- the first vertex of the cycle in the list cannot be reached from the rest
  induction out with
  | nil => cases hq
  | cons v l ih =>
    rw [List.nodup_cons] at hnodup
    have hback : ∀ x y, x ∈ l → Reach succ x y → y ∈ l := by
      intro x y hx hxy
      exact h.2.closed_reach hx hxy
    by_cases hqv : q = v
    · subst hqv
      -- leaving `q` for another vertex goes into `l`
      have hdl : ∀ e, Reach succ q e → e = q ∨ e ∈ l := by
        intro e he
        unfold Reach at he
        induction he with
        | refl => exact .inl rfl
        | tail _ harc ihe =>
          rcases ihe with rfl | hmem
          · exact h.1 _ harc
          · exact .inr (h.2.closed hmem harc)
      rcases hdl d hqd with hd | hd
      · exact hne hd
      · exact hnodup.1 (hback d q hd hdq)
    · exact ih h.2 hnodup.2 ((List.mem_cons.1 hq).resolve_left hqv)

/-! ## Paths -/

/-- The end of the path from `q` that takes the arcs with these numbers, none
of them a self-loop. -/
def follow [DecidableEq σ] (succ : σ → List σ) (q : σ) : List ℕ → Option σ
  | [] => some q
  | i :: p =>
    match (succ q)[i]? with
    | none => none
    | some d => if d = q then none else follow succ d p

attribute [local simp] Topological follow

variable [DecidableEq σ]

theorem follow_cons (i : ℕ) :
    follow succ q (i :: p) = some w ↔
      ∃ d, (succ q)[i]? = some d ∧ d ≠ q ∧ follow succ d p = some w := by
  rw [follow]
  cases h : (succ q)[i]? with
  | none => simp
  | some d => simp

theorem follow_reach (h : follow succ q p = some w) : Reach succ q w := by
  induction p generalizing q with
  | nil =>
    rw [follow, Option.some.injEq] at h
    rw [h]
    exact .refl
  | cons i p ih =>
    rcases (follow_cons i).1 h with ⟨d, hd, -, hp⟩
    exact .head (List.mem_of_getElem? hd) (ih hp)

theorem follow_snoc {i : ℕ} (h : follow succ q p = some v) (hd : (succ v)[i]? = some d)
    (hne : d ≠ v) : follow succ q (p ++ [i]) = some d := by
  induction p generalizing q with
  | nil =>
    rw [follow, Option.some.injEq] at h
    subst h
    exact (follow_cons i).2 ⟨d, hd, hne, rfl⟩
  | cons j p ih =>
    rcases (follow_cons j).1 h with ⟨e, he, hne', hp⟩
    exact (follow_cons j).2 ⟨e, he, hne', ih hp⟩

/-- A path that is not empty has a last arc. -/
theorem follow_snoc_cases {i : ℕ} (h : follow succ q (p ++ [i]) = some d) :
    ∃ v, follow succ q p = some v ∧ (succ v)[i]? = some d ∧ d ≠ v := by
  induction p generalizing q with
  | nil =>
    rcases (follow_cons i).1 h with ⟨e, he, hne, hend⟩
    rw [follow, Option.some.injEq] at hend
    subst hend
    exact ⟨q, rfl, he, hne⟩
  | cons j p ih =>
    rcases (follow_cons j).1 h with ⟨e, he, hne, hp⟩
    rcases ih hp with ⟨v, hv, hd⟩
    exact ⟨v, (follow_cons j).2 ⟨e, he, hne, hv⟩, hd⟩

theorem Topological.follow (h : Topological succ out) (hq : q ∈ out)
    (hp : follow succ q p = some w) : w ∈ out :=
  h.closed_reach hq (follow_reach hp)

/-- The vertices that a path from `q` goes through. -/
def along (succ : σ → List σ) (q : σ) : List ℕ → List σ
  | [] => [q]
  | i :: p =>
    match (succ q)[i]? with
    | none => [q]
    | some d => q :: along succ d p

attribute [local simp] along

/-- The vertices of a path are reached from its start and reach its end. -/
theorem reach_of_mem_along (hp : follow succ q p = some w) (hv : v ∈ along succ q p) :
    Reach succ q v ∧ Reach succ v w := by
  induction p generalizing q with
  | nil =>
    rw [follow, Option.some.injEq] at hp
    rw [along, List.mem_singleton] at hv
    subst hp hv
    exact ⟨.refl, .refl⟩
  | cons i p ih =>
    have hqw := follow_reach hp
    rcases (follow_cons i).1 hp with ⟨d, hd, -, hp'⟩
    rw [along, hd] at hv
    rcases List.mem_cons.1 hv with rfl | hv
    · exact ⟨.refl, hqw⟩
    · rcases ih hp' hv with ⟨hdv, hvw⟩
      exact ⟨.head (List.mem_of_getElem? hd) hdv, hvw⟩

/-- A search has gone down the path from `q`, and to the left of it all arcs
lead to finished vertices. -/
def Spine (succ : σ → List σ) (out : List σ) (q : σ) : List ℕ → Prop
  | [] => True
  | i :: p =>
    ∃ d, (succ q)[i]? = some d ∧ d ≠ q ∧ (∀ j < i, ∀ e, (succ q)[j]? = some e → e = q ∨ e ∈ out) ∧
      Spine succ out d p

omit [DecidableEq σ] in
theorem Spine.mono {out' : List σ} (h : Spine succ out q p) (hsub : ∀ v ∈ out, v ∈ out') :
    Spine succ out' q p := by
  induction p generalizing q with
  | nil => trivial
  | cons i p ih =>
    rcases h with ⟨d, hd, hne, hleft, hp⟩
    refine ⟨d, hd, hne, ?_, ih hp⟩
    intro j hj e he
    exact (hleft j hj e he).imp_right (hsub e)

/-- Going down one more arc. -/
theorem Spine.snoc {i : ℕ} (h : Spine succ out q p) (hv : DepthFirst.follow succ q p = some v)
    (hd : (succ v)[i]? = some d) (hne : d ≠ v)
    (hleft : ∀ j < i, ∀ e, (succ v)[j]? = some e → e = v ∨ e ∈ out) :
    Spine succ out q (p ++ [i]) := by
  induction p generalizing q with
  | nil =>
    rw [DepthFirst.follow, Option.some.injEq] at hv
    subst hv
    exact ⟨d, hd, hne, hleft, trivial⟩
  | cons j p ih =>
    rcases h with ⟨e, he, hne', hl, hp⟩
    rcases (follow_cons j).1 hv with ⟨e', he', -, hp'⟩
    rw [he, Option.some.injEq] at he'
    subst he'
    exact ⟨e, he, hne', hl, ih hp hp'⟩

omit [DecidableEq σ] in
/-- Coming back up one arc. -/
theorem Spine.dropLast {i : ℕ} (h : Spine succ out q (p ++ [i])) : Spine succ out q p := by
  induction p generalizing q with
  | nil => trivial
  | cons j p ih =>
    rcases h with ⟨d, hd, hne, hleft, hp⟩
    exact ⟨d, hd, hne, hleft, ih hp⟩

theorem along_snoc {i : ℕ} (hv : follow succ q p = some v) (hd : (succ v)[i]? = some d) :
    along succ q (p ++ [i]) = along succ q p ++ [d] := by
  induction p generalizing q with
  | nil =>
    rw [follow, Option.some.injEq] at hv
    subst hv
    simp [along, hd]
  | cons j p ih =>
    rcases (follow_cons j).1 hv with ⟨e, he, -, hp⟩
    rw [List.cons_append, along, along, he]
    dsimp only
    rw [ih hp, List.cons_append]

omit [DecidableEq σ] in
theorem along_ne_nil : along succ q p ≠ [] := by
  cases p with
  | nil => simp [along]
  | cons i p =>
    rw [along]
    split <;> simp

/-- The ends of all smaller paths have been discovered: they are finished, or
they are on the path before its end. -/
theorem Spine.smaller (h : Spine succ out q ρ) (htop : Topological succ out)
    (hp : DepthFirst.follow succ q p = some w) (hlt : p < ρ) :
    w ∈ out ∨ w ∈ (along succ q ρ).dropLast := by
  induction ρ generalizing q p with
  | nil => exact absurd hlt (List.not_lt_nil p)
  | cons i ρ ih =>
    rcases h with ⟨d, hd, hne, hleft, hρ⟩
    rw [along, hd]
    dsimp only
    rw [List.dropLast_cons_of_ne_nil along_ne_nil]
    cases p with
    | nil =>
      rw [DepthFirst.follow, Option.some.injEq] at hp
      right
      rw [hp]
      exact List.mem_cons_self
    | cons j p =>
      rcases (follow_cons j).1 hp with ⟨e, he, hne', hp'⟩
      rcases List.cons_lt_cons_iff.1 hlt with hji | ⟨rfl, hlt'⟩
      · left
        exact htop.follow ((hleft j hji e he).resolve_left hne') hp'
      · rw [hd, Option.some.injEq] at he
        subst he
        exact (ih hρ hp' hlt').imp_right (List.mem_cons_of_mem _)

/-! ## The order of discovery -/

/-- The vertices in the order of their discovery from `q`, the last one
first: each was discovered along a path, and the ends of all smaller paths
before it. -/
def Discovered (succ : σ → List σ) (q : σ) : List σ → Prop
  | [] => True
  | v :: l =>
    (∃ ρ, follow succ q ρ = some v ∧ ∀ p w, follow succ q p = some w → p < ρ → w ∈ l) ∧
      Discovered succ q l

/-- `d` was discovered before `v`. -/
def FoundBefore (disc : List σ) (d v : σ) : Prop :=
  ∃ l, (v :: l).IsSuffix disc ∧ d ∈ l

omit [DecidableEq σ] in
theorem FoundBefore.cons (h : FoundBefore l d v) : FoundBefore (w :: l) d v := by
  rcases h with ⟨l', hl', hd⟩
  exact ⟨l', hl'.trans (List.suffix_cons w l), hd⟩

omit [DecidableEq σ] in
theorem foundBefore_of_sublist (h : [v, d].Sublist l) : FoundBefore l d v := by
  induction l with
  | nil => cases h
  | cons w l ih =>
    cases h with
    | cons _ h => exact (ih h).cons
    | cons_cons _ h => exact ⟨l, List.suffix_refl _, List.singleton_sublist.1 h⟩

omit [DecidableEq σ] in
theorem FoundBefore.not_symm (h : FoundBefore l d v) (hnodup : l.Nodup) : ¬ FoundBefore l v d := by
  intro h'
  rcases h with ⟨l₁, hl₁, hd⟩
  rcases h' with ⟨l₂, hl₂, hv⟩
  have h₁ : (v :: l₁).Nodup := hnodup.sublist hl₁.sublist
  have h₂ : (d :: l₂).Nodup := hnodup.sublist hl₂.sublist
  rcases List.suffix_or_suffix_of_suffix hl₁ hl₂ with hs | hs
  · rcases List.suffix_cons_iff.1 hs with heq | hs
    · have hdv : d = v := (List.cons.inj heq.symm).1
      rw [hdv] at hd
      exact (List.nodup_cons.1 h₁).1 hd
    · exact (List.nodup_cons.1 h₂).1 (hs.subset (List.mem_cons_of_mem _ hd))
  · rcases List.suffix_cons_iff.1 hs with heq | hs
    · have hdv : d = v := (List.cons.inj heq).1
      rw [hdv] at hd
      exact (List.nodup_cons.1 h₁).1 hd
    · exact (List.nodup_cons.1 h₁).1 (hs.subset (List.mem_cons_of_mem _ hv))

theorem Discovered.suffix {l' : List σ} (h : Discovered succ q l) (hs : l'.IsSuffix l) :
    Discovered succ q l' := by
  induction l with
  | nil =>
    rw [List.suffix_nil] at hs
    rw [hs]
    trivial
  | cons v l ih =>
    rcases List.suffix_cons_iff.1 hs with rfl | hs
    · exact h
    · exact ih h.2 hs

/-- A path to `d` is smaller than every path to `v`. -/
def PathBefore (succ : σ → List σ) (q d v : σ) : Prop :=
  ∃ p, follow succ q p = some d ∧ ∀ p', follow succ q p' = some v → p < p'

/-- The order of discovery is the order of the smallest paths. -/
theorem Discovered.pathBefore_iff (h : Discovered succ q l) (hnodup : l.Nodup) (hd : d ∈ l)
    (hv : v ∈ l) (hne : d ≠ v) : PathBefore succ q d v ↔ FoundBefore l d v := by
  have hsplit : ∀ x ∈ l, ∃ l', (x :: l').IsSuffix l := by
    intro x hx
    rcases List.append_of_mem hx with ⟨s, t, rfl⟩
    exact ⟨t, List.suffix_append s _⟩
  constructor
  · intro ⟨p, hp, hmin⟩
    rcases hsplit v hv with ⟨l', hl'⟩
    rcases (h.suffix hl').1 with ⟨ρ, hρ, hsmall⟩
    exact ⟨l', hl', hsmall p d hp (hmin ρ hρ)⟩
  · intro hbefore
    rcases hsplit d hd with ⟨l', hl'⟩
    rcases (h.suffix hl').1 with ⟨ρ, hρ, hsmall⟩
    refine ⟨ρ, hρ, ?_⟩
    intro p' hp'
    rcases lt_trichotomy ρ p' with hlt | heq | hgt
    · exact hlt
    · rw [← heq, hρ, Option.some.injEq] at hp'
      exact absurd hp' hne
    · exact absurd ⟨l', hl', hsmall p' v hp' hgt⟩ (hbefore.not_symm hnodup)

end DepthFirst
