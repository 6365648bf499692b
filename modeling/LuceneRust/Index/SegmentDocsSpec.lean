import LuceneRust.Index.BufferedUpdatesSpec
import Mathlib.Data.Int.Order.Basic
import Mathlib.Data.List.Dedup

/-!
# What packets do to a segment

* `markDeleted_spec`, `getElem?_foldl_writeValue`: the two kinds of writes,
  row by row.
* `mem_deleted_foldl` and `values_foldl` read the resolution of the packets
  off the edits that they are (`pendingEdit`).
* `applyPackets_spec`: a round that goes through has made the edits (`Applied`),
  and one that fails has left a segment to which they can be made again
  (`Reapplies`).
-/

namespace LuceneRust.Index

open RustSem
open StateHoare
open EditLog (Edit Cell)

variable {δ κ : Type}

/-- The documents that are not live. -/
def deadCount (rows : List (Row δ)) : Nat := rows.countP fun row => !row.live

/-- What a segment in the writer's view looks like.  The generations that come
next have not been used. -/
structure Segment.WellFormed (s : Segment δ) : Prop where
  delCount : s.delCount = deadCount s.rows
  delGen : s.delGen < s.nextDelGen
  nextDelGen : 0 < s.nextDelGen
  fieldInfosGen : s.fieldInfosGen < s.nextFieldInfosGen
  nextFieldInfosGen : 0 < s.nextFieldInfosGen
  docValuesGen : s.docValuesGen < s.nextDocValuesGen
  nextDocValuesGen : 0 < s.nextDocValuesGen

theorem Segment.WellFormed.setBufferedDeletesGen {s : Segment δ} (hs : s.WellFormed) (v : Int) :
    (s.setBufferedDeletesGen v).WellFormed := by
  rw [Segment.setBufferedDeletesGen]
  split
  · exact ⟨hs.1, hs.2, hs.3, hs.4, hs.5, hs.6, hs.7⟩
  · exact hs

theorem deriveNextGen_of_pos {n : Int} (hn : 0 < n) (g : Int) : deriveNextGen n g = n :=
  if_pos (by omega)

namespace Row

/-- The row, dead if `b` says so. -/
def kill (row : Row δ) (b : Bool) : Row δ := { row with live := row.live && !b }

/-- The row with the values of `g`, where it has some. -/
def setValues (row : Row δ) (g : String → Option UpdateValue) : Row δ :=
  { row with values := fun f => (g f).getD (row.values f) }

@[simp] theorem kill_false (row : Row δ) : row.kill false = row := by
  rw [kill]
  simp

theorem kill_of_dead {row : Row δ} (h : row.live = false) (b : Bool) : row.kill b = row := by
  obtain ⟨⟨live, values⟩, doc⟩ := row
  obtain rfl : live = false := h
  rfl

theorem kill_kill (row : Row δ) (a b : Bool) : (row.kill a).kill b = row.kill (a || b) := by
  simp [kill, Bool.and_assoc]

@[simp] theorem setValues_none (row : Row δ) : (row.setValues fun _ => none) = row := rfl

theorem setValues_setValues (row : Row δ) (g h : String → Option UpdateValue) :
    (row.setValues g).setValues h = row.setValues fun f => (h f).or (g f) := by
  rw [setValues, setValues, setValues]
  congr 2
  funext f
  dsimp only
  cases h f <;> rfl

end Row

/-- A segment that has just been written has no deletes and no updates. -/
theorem wellFormed_written (name : String) {rows : List (Row δ)} (v : Int)
    (hrows : ∀ row ∈ rows, row.live = true) :
    Segment.WellFormed
      { segmentName := name, rows := rows, bufferedDeletesGen := v : Segment δ } := by
  have hdead : deadCount rows = 0 := by
    rw [deadCount, List.countP_eq_zero]
    intro row hrow
    rw [hrows row hrow]
    exact Bool.false_ne_true
  have hlt : (-1 : Int) < deriveNextGen 0 (-1) := by decide
  have hpos : (0 : Int) < deriveNextGen 0 (-1) := by decide
  exact ⟨hdead.symm, hlt, hpos, hlt, hpos, hlt, hpos⟩

/-! ## `mark_deleted` -/

theorem getElem?_set_live {rows : List (Row δ)} {id : Nat} {row : Row δ}
    (hrow : rows[id]? = some row) (i : Nat) :
    (rows.set id { row with live := false })[i]? = rows[i]?.map (·.kill (i == id)) := by
  by_cases hi : i = id
  · subst hi
    have hlt := (List.getElem?_eq_some_iff.1 hrow).1
    rw [List.getElem?_set_self hlt, hrow]
    simp [Row.kill]
  · rw [List.getElem?_set_ne (Ne.symm hi)]
    have hne : (i == id) = false := beq_eq_false_iff_ne.2 hi
    rw [hne]
    cases rows[i]? with
    | none => rfl
    | some r => rw [Option.map_some, Row.kill_false]

theorem deadCount_set {rows : List (Row δ)} {id : Nat} {row : Row δ}
    (hrow : rows[id]? = some row) (hlive : row.live = true) :
    deadCount (rows.set id { row with live := false }) = deadCount rows + 1 := by
  induction rows generalizing id with
  | nil => cases hrow
  | cons r rows ih =>
    cases id with
    | zero =>
      obtain rfl : r = row := by simpa using hrow
      simp [deadCount, hlive]
    | succ id =>
      have hrow' : rows[id]? = some row := by simpa using hrow
      have hrec := ih hrow'
      rw [List.set_cons_succ]
      unfold deadCount at hrec ⊢
      rw [List.countP_cons, List.countP_cons, hrec]
      omega

theorem markDeleted_foldlM {rows : List (Row δ)} {n : Nat} {ids : List Nat}
    (hids : ∀ id ∈ ids, id < rows.length) :
    ∃ (rows' : List (Row δ)) (n' : Nat), ids.foldlM markOne (rows, n) = .ok (rows', n')
      ∧ (∀ i : Nat, rows'[i]? = rows[i]?.map fun r => r.kill (ids.contains i))
      ∧ deadCount rows' + n = deadCount rows + n' := by
  induction ids generalizing rows n with
  | nil =>
    refine ⟨rows, n, rfl, fun i => ?_, rfl⟩
    cases rows[i]? with
    | none => rfl
    | some r => rw [List.contains_nil, Option.map_some, Row.kill_false]
  | cons id ids ih =>
    have hlt := hids id List.mem_cons_self
    have hrow : rows[id]? = some rows[id] := List.getElem?_eq_getElem hlt
    rw [List.foldlM_cons]
    by_cases hlive : rows[id].live = true
    · have hone : markOne (rows, n) id =
          .ok (rows.set id { rows[id] with live := false }, n + 1) := by
        simp [markOne, hrow, hlive]
      have hrest : ∀ id' ∈ ids, id' < (rows.set id { rows[id] with live := false }).length := by
        intro id' hid'
        rw [List.length_set]
        exact hids id' (List.mem_cons_of_mem _ hid')
      obtain ⟨rows', n', hrun, hget, hcount⟩ := ih (n := n + 1) hrest
      refine ⟨rows', n', by rw [hone, ok_bind, hrun], fun i => ?_, ?_⟩
      · rw [hget i, getElem?_set_live hrow, Option.map_map]
        congr 1
        funext r
        rw [Function.comp_apply, Row.kill_kill, List.contains_cons]
      · rw [deadCount_set hrow hlive] at hcount
        omega
    · have hone : markOne (rows, n) id = .ok (rows, n) := by
        simp [markOne, hrow, hlive]
      obtain ⟨rows', n', hrun, hget, hcount⟩ :=
        ih (n := n) fun id' hid' => hids id' (List.mem_cons_of_mem _ hid')
      refine ⟨rows', n', by rw [hone, ok_bind, hrun], fun i => ?_, hcount⟩
      rw [hget i]
      by_cases hi : i = id
      · subst hi
        have hdead := Bool.eq_false_iff.2 hlive
        rw [hrow, Option.map_some, Option.map_some, Row.kill_of_dead hdead,
          Row.kill_of_dead hdead]
      · rw [List.contains_cons, beq_eq_false_iff_ne.2 hi, Bool.false_or]

/-- `mark_deleted` of ids in range clears their bits and counts the ones that
were set. -/
theorem markDeleted_spec {rows : List (Row δ)} {ids : List Nat}
    (hids : ∀ id ∈ ids, id < rows.length) :
    ∃ (rows' : List (Row δ)) (n : Nat), markDeleted rows ids = .ok (rows', n)
      ∧ (∀ i : Nat, rows'[i]? = rows[i]?.map fun r => r.kill (ids.contains i))
      ∧ deadCount rows' = deadCount rows + n := by
  obtain ⟨rows', n, hrun, hget, hcount⟩ := markDeleted_foldlM (n := 0) hids
  exact ⟨rows', n, hrun, hget, hcount⟩

theorem length_eq_of_getElem? {α β : Type} {l : List α} {l' : List β} {g : Nat → α → β}
    (h : ∀ i, l'[i]? = l[i]?.map (g i)) : l'.length = l.length := by
  apply Nat.le_antisymm
  · rw [← List.getElem?_eq_none_iff, h, List.getElem?_eq_none_iff.2 le_rfl]
    rfl
  · rw [← List.getElem?_eq_none_iff]
    have hnone := h l'.length
    rw [List.getElem?_eq_none_iff.2 le_rfl] at hnone
    cases hl : l[l'.length]? with
    | none => rfl
    | some a =>
      rw [hl] at hnone
      cases hnone

/-- A segment, later on: documents die, and each change of the live documents
or of the values has a generation of its own. -/
structure Segment.Evolves (s s' : Segment δ) : Prop where
  segmentName : s'.segmentName = s.segmentName
  bufferedDeletesGen : s'.bufferedDeletesGen = s.bufferedDeletesGen
  wellFormed : s'.WellFormed
  length : s'.rows.length = s.rows.length
  delGen : s.delGen ≤ s'.delGen
  nextDelGen : s.nextDelGen ≤ s'.nextDelGen
  docValuesGen : s.docValuesGen ≤ s'.docValuesGen
  nextDocValuesGen : s.nextDocValuesGen ≤ s'.nextDocValuesGen
  doc : ∀ {i : Nat} {row row' : Row δ}, s.rows[i]? = some row → s'.rows[i]? = some row' →
    row'.doc = row.doc ∧ (row'.live = true → row.live = true)
      ∧ (s'.delGen = s.delGen → row'.live = row.live)
      ∧ (s'.docValuesGen = s.docValuesGen → row'.values = row.values)

namespace Segment.Evolves

theorem refl {s : Segment δ} (hs : s.WellFormed) : s.Evolves s where
  segmentName := rfl
  bufferedDeletesGen := rfl
  wellFormed := hs
  length := rfl
  delGen := le_rfl
  nextDelGen := le_rfl
  docValuesGen := le_rfl
  nextDocValuesGen := le_rfl
  doc hrow hrow' := by
    rw [hrow, Option.some_inj] at hrow'
    subst hrow'
    exact ⟨rfl, id, fun _ => rfl, fun _ => rfl⟩

theorem trans {s t u : Segment δ} (h : s.Evolves t) (h' : t.Evolves u) : s.Evolves u where
  segmentName := h'.segmentName.trans h.segmentName
  bufferedDeletesGen := h'.bufferedDeletesGen.trans h.bufferedDeletesGen
  wellFormed := h'.wellFormed
  length := h'.length.trans h.length
  delGen := h.delGen.trans h'.delGen
  nextDelGen := h.nextDelGen.trans h'.nextDelGen
  docValuesGen := h.docValuesGen.trans h'.docValuesGen
  nextDocValuesGen := h.nextDocValuesGen.trans h'.nextDocValuesGen
  doc {i row row'} hrow hrow' := by
    have hlt : i < t.rows.length := by
      rw [h.length]
      exact (List.getElem?_eq_some_iff.1 hrow).1
    have hmid : t.rows[i]? = some t.rows[i] := List.getElem?_eq_getElem hlt
    obtain ⟨hdoc, hlive, hdel, hval⟩ := h.doc hrow hmid
    obtain ⟨hdoc', hlive', hdel', hval'⟩ := h'.doc hmid hrow'
    have hd := h.delGen
    have hd' := h'.delGen
    have hv := h.docValuesGen
    have hv' := h'.docValuesGen
    refine ⟨hdoc'.trans hdoc, fun hl => hlive (hlive' hl), fun he => ?_, fun he => ?_⟩
    · exact (hdel' (by omega)).trans (hdel (by omega))
    · exact (hval' (by omega)).trans (hval (by omega))

end Segment.Evolves

/-- The segment after a round of deletes. -/
structure Segment.Deleted (s s' : Segment δ) (ids : List Nat) : Prop where
  evolves : s.Evolves s'
  rows : ∀ i : Nat, s'.rows[i]? = s.rows[i]?.map fun r => r.kill (ids.contains i)

theorem deletedSegment_spec {s : Segment δ} (hs : s.WellFormed) {ids : List Nat}
    (hids : ∀ id ∈ ids, id < s.rows.length) :
    ∃ s', deletedSegment s ids = .ok s' ∧ s.Deleted s' ids := by
  obtain ⟨rows', n, hrun, hget, hcount⟩ := markDeleted_spec hids
  have hlen : rows'.length = s.rows.length := length_eq_of_getElem? hget
  have hle : s.delCount + n ≤ s.maxDoc := by
    rw [hs.delCount, ← hcount, Segment.maxDoc, ← hlen]
    exact List.countP_le_length
  have hgen := hs.delGen
  have hpos := hs.nextDelGen
  refine ⟨_, by rw [deletedSegment, hrun, ok_bind]; exact if_pos hle, ?_, hget⟩
  have hnext : Segment.nextDelGen
      ({ s with rows := rows', delCount := s.delCount + n } : Segment δ).advanceDelGen =
        s.nextDelGen + 1 := deriveNextGen_of_pos (by change 0 < s.nextDelGen + 1; omega) _
  refine ⟨rfl, rfl, ⟨?_, ?_, ?_, hs.fieldInfosGen, hs.nextFieldInfosGen, hs.docValuesGen,
    hs.nextDocValuesGen⟩, hlen, hgen.le, ?_, le_rfl, le_rfl, ?_⟩
  · rw [Segment.advanceDelGen]
    dsimp only
    rw [hs.delCount, hcount]
  · rw [hnext]
    exact Int.lt_succ _
  · rw [hnext]
    omega
  · rw [hnext]
    omega
  · intro i row row' hrow hrow'
    have hrow'' : rows'[i]? = some row' := hrow'
    rw [hget, hrow, Option.map_some, Option.some_inj] at hrow''
    subst hrow''
    refine ⟨rfl, fun hlive => ?_, fun he => ?_, fun _ => rfl⟩
    · exact (Bool.and_eq_true _ _ ▸ hlive).1
    · have he' : s.nextDelGen = s.delGen := he
      omega

theorem length_markOne {acc acc' : List (Row δ) × Nat} {id : Nat}
    (h : markOne acc id = .ok acc') : id < acc.1.length ∧ acc'.1.length = acc.1.length := by
  rw [markOne] at h
  split at h
  · cases h
  · rename_i row hrow
    refine ⟨(List.getElem?_eq_some_iff.1 hrow).1, ?_⟩
    split at h
    · obtain rfl := Outcome.ok.inj h
      exact List.length_set
    · obtain rfl := Outcome.ok.inj h
      rfl

/-- `mark_deleted` goes through only if the ids are in range. -/
theorem lt_of_markDeleted {acc acc' : List (Row δ) × Nat} {ids : List Nat}
    (h : ids.foldlM markOne acc = .ok acc') : ∀ id ∈ ids, id < acc.1.length := by
  induction ids generalizing acc with
  | nil => exact fun _ h => by cases h
  | cons id ids ih =>
    rw [List.foldlM_cons, bind_eq_ok] at h
    obtain ⟨mid, hone, hrest⟩ := h
    obtain ⟨hlt, hlen⟩ := length_markOne hone
    rw [List.forall_mem_cons]
    exact ⟨hlt, hlen ▸ ih hrest⟩

theorem deletedSegment_evolves {s s' : Segment δ} (hs : s.WellFormed) {ids : List Nat}
    (h : deletedSegment s ids = .ok s') : s.Evolves s' := by
  have hids : ∀ id ∈ ids, id < s.rows.length := by
    rw [deletedSegment, bind_eq_ok] at h
    obtain ⟨r, hmark, -⟩ := h
    exact lt_of_markDeleted hmark
  obtain ⟨s'', hrun, hdel⟩ := deletedSegment_spec hs hids
  obtain rfl : s'' = s' := Outcome.ok.inj (hrun.symm.trans h)
  exact hdel.evolves

/-! ## Doc-values updates -/

/-- The values that the updates have for a field of a document. -/
def valuesOf (us : List ValueUpdate) (i : Nat) (f : String) : List UpdateValue :=
  (us.filter fun u => u.doc = i ∧ u.field = f).map (·.value)

theorem valuesOf_append (us vs : List ValueUpdate) (i : Nat) (f : String) :
    valuesOf (us ++ vs) i f = valuesOf us i f ++ valuesOf vs i f := by
  rw [valuesOf, List.filter_append, List.map_append]
  rfl

theorem valuesOf_flatMap {α : Type} (l : List α) (g : α → List ValueUpdate) (i : Nat)
    (f : String) : valuesOf (l.flatMap g) i f = l.flatMap fun a => valuesOf (g a) i f := by
  induction l with
  | nil => rfl
  | cons a l ih => rw [List.flatMap_cons, List.flatMap_cons, valuesOf_append, ih]

theorem getElem?_writeValue (rows : List (Row δ)) (u : ValueUpdate) (i : Nat) :
    (writeValue rows u)[i]? = rows[i]?.map (·.setValues fun f => (valuesOf [u] i f).getLast?) := by
  rw [writeValue, List.getElem?_modify]
  congr 1
  funext row
  split
  · rename_i hi
    rw [Row.setValues]
    congr 2
    funext f
    by_cases hf : f = u.field
    · subst hf
      simp [valuesOf, hi]
    · simp [valuesOf, Function.update_of_ne hf, Ne.symm hf]
  · rename_i hi
    simp [valuesOf, hi]

/-- The last update of a field of a document has the last word. -/
theorem getElem?_foldl_writeValue (us : List ValueUpdate) (rows : List (Row δ)) (i : Nat) :
    (us.foldl writeValue rows)[i]? =
      rows[i]?.map (·.setValues fun f => (valuesOf us i f).getLast?) := by
  induction us generalizing rows with
  | nil => exact Option.map_id.symm ▸ rfl
  | cons u us ih =>
    rw [List.foldl_cons, ih, getElem?_writeValue, Option.map_map]
    congr 1
    funext row
    rw [Function.comp_apply, Row.setValues_setValues]
    congr 1
    funext f
    rw [show u :: us = [u] ++ us from rfl, valuesOf_append, List.getLast?_append]

/-! ## A round of updates -/

theorem advanceDocValuesGen_evolves {s : Segment δ} (hs : s.WellFormed) :
    s.Evolves s.advanceDocValuesGen ∧ s.docValuesGen < s.advanceDocValuesGen.docValuesGen := by
  have hgen := hs.docValuesGen
  have hpos := hs.nextDocValuesGen
  have hnext : s.advanceDocValuesGen.nextDocValuesGen = s.nextDocValuesGen + 1 :=
    deriveNextGen_of_pos (by change 0 < s.nextDocValuesGen + 1; omega) _
  refine ⟨⟨rfl, rfl, ⟨hs.delCount, hs.delGen, hs.nextDelGen, hs.fieldInfosGen,
    hs.nextFieldInfosGen, ?_, ?_⟩, rfl, le_rfl, le_rfl, hgen.le, ?_, ?_⟩, hgen⟩
  · rw [hnext]
    exact Int.lt_succ _
  · rw [hnext]
    omega
  · rw [hnext]
    omega
  · intro i row row' hrow hrow'
    obtain rfl : row = row' := Option.some_inj.1 (hrow.symm.trans hrow')
    exact ⟨rfl, id, fun _ => rfl, fun _ => rfl⟩

theorem foldl_advanceDocValuesGen_evolves {α : Type} (l : List α) {s : Segment δ}
    (hs : s.WellFormed) :
    s.Evolves (l.foldl (fun s _ => s.advanceDocValuesGen) s)
      ∧ (l.foldl (fun s _ => s.advanceDocValuesGen) s).rows = s.rows
      ∧ (l ≠ [] → s.docValuesGen < (l.foldl (fun s _ => s.advanceDocValuesGen) s).docValuesGen) := by
  induction l generalizing s with
  | nil => exact ⟨.refl hs, rfl, fun h => absurd rfl h⟩
  | cons a l ih =>
    obtain ⟨hone, hlt⟩ := advanceDocValuesGen_evolves hs
    obtain ⟨hrest, hrows, -⟩ := ih hone.wellFormed
    refine ⟨hone.trans hrest, hrows, fun _ => ?_⟩
    have hle := hrest.docValuesGen
    rw [List.foldl_cons]
    omega

theorem deadCount_foldl_writeValue (us : List ValueUpdate) (rows : List (Row δ)) :
    deadCount (us.foldl writeValue rows) = deadCount rows := by
  have hlive : (us.foldl writeValue rows).map (·.live) = rows.map (·.live) := by
    apply List.ext_getElem?
    intro i
    rw [List.getElem?_map, List.getElem?_map, getElem?_foldl_writeValue, Option.map_map]
    rfl
  have hcount : ∀ l : List (Row δ), deadCount l = (l.map (·.live)).countP (!·) := by
    intro l
    rw [List.countP_map]
    rfl
  rw [hcount, hcount, hlive]

theorem updatedSegment_evolves {s : Segment δ} (hs : s.WellFormed) (us : List ValueUpdate) :
    s.Evolves (updatedSegment s us) := by
  obtain ⟨hevolves, hrows, hlt⟩ :=
    foldl_advanceDocValuesGen_evolves (us.map (·.field)).dedup hs
  rw [updatedSegment]
  generalize (us.map (·.field)).dedup.foldl (fun s _ => s.advanceDocValuesGen) s = t
    at hevolves hrows hlt
  have hwf := hevolves.wellFormed
  have hgen := hwf.fieldInfosGen
  have hpos := hwf.nextFieldInfosGen
  have hlen : (us.foldl writeValue t.rows).length = t.rows.length :=
    length_eq_of_getElem? (getElem?_foldl_writeValue us t.rows)
  have hnext : Segment.nextFieldInfosGen
      ({ t with rows := us.foldl writeValue t.rows } : Segment δ).advanceFieldInfosGen =
        t.nextFieldInfosGen + 1 :=
    deriveNextGen_of_pos (by change 0 < t.nextFieldInfosGen + 1; omega) _
  refine ⟨hevolves.segmentName, hevolves.bufferedDeletesGen, ⟨?_, hwf.delGen, hwf.nextDelGen,
    ?_, ?_, hwf.docValuesGen, hwf.nextDocValuesGen⟩, ?_, hevolves.delGen, hevolves.nextDelGen,
    hevolves.docValuesGen, hevolves.nextDocValuesGen, ?_⟩
  · rw [Segment.advanceFieldInfosGen]
    dsimp only
    rw [deadCount_foldl_writeValue]
    exact hwf.delCount
  · rw [hnext]
    exact Int.lt_succ _
  · rw [hnext]
    omega
  · exact hlen.trans (by rw [hrows])
  · intro i row row' hrow hrow'
    have hrow'' : (us.foldl writeValue t.rows)[i]? = some row' := hrow'
    rw [getElem?_foldl_writeValue, hrows, hrow, Option.map_some, Option.some_inj] at hrow''
    subst hrow''
    refine ⟨rfl, id, fun _ => rfl, fun he => ?_⟩
    have he' : t.docValuesGen = s.docValuesGen := he
    -- without a new generation there are no updates
    obtain rfl : us = [] := by
      by_contra hus
      have hfields : (us.map (·.field)).dedup ≠ [] := by
        obtain ⟨u, hu⟩ := List.exists_mem_of_ne_nil us hus
        exact List.ne_nil_of_mem (List.mem_dedup.2 (List.mem_map_of_mem hu))
      have hlt' := hlt hfields
      omega
    rfl

theorem rows_updatedSegment (s : Segment δ) (us : List ValueUpdate) :
    (updatedSegment s us).rows = us.foldl writeValue s.rows := by
  have hrows : ∀ l : List String,
      (l.foldl (fun s _ => s.advanceDocValuesGen) s : Segment δ).rows = s.rows := by
    intro l
    induction l generalizing s with
    | nil => rfl
    | cons a l ih => exact ih s.advanceDocValuesGen
  rw [updatedSegment]
  exact congrArg (us.foldl writeValue) (hrows _)

/-! ## The resolution of the packets -/

theorem mem_liveDocsWith {rows : List (Row δ)} {m : δ → Bool} {i : Nat} :
    i ∈ liveDocsWith rows m ↔
      ∃ row, rows[i]? = some row ∧ row.live = true ∧ m row.doc.content = true := by
  rw [liveDocsWith, List.mem_map]
  constructor
  · rintro ⟨⟨row, j⟩, he, rfl⟩
    obtain ⟨hmem, hcond⟩ := List.mem_filter.1 he
    rw [Bool.and_eq_true] at hcond
    exact ⟨row, List.mem_zipIdx_iff_getElem?.1 hmem, hcond⟩
  · rintro ⟨row, hrow, hlive, hm⟩
    refine ⟨(row, i), List.mem_filter.2 ⟨List.mem_zipIdx_iff_getElem?.2 hrow, ?_⟩, rfl⟩
    rw [Bool.and_eq_true]
    exact ⟨hlive, hm⟩

theorem nodup_liveDocsWith (rows : List (Row δ)) (m : δ → Bool) :
    (liveDocsWith rows m).Nodup := by
  have hall : (rows.zipIdx.map (·.2)).Nodup := by
    rw [List.zipIdx_map_snd]
    exact List.nodup_range'
  exact hall.sublist (List.Sublist.map _ List.filter_sublist)

/-- A row of the segment, with its position in the buffer that became the
segment. -/
structure RowAt (rows : List (Row δ)) (sortMap : Option (List Nat)) (i pos : Nat)
    (row : Row δ) : Prop where
  row : rows[i]? = some row
  pos : ∀ limit, belowLimit sortMap i limit = decide (pos < limit)

section

variable {cfg : IndexingConfig δ κ} {rows : List (Row δ)} {segGen : Int}
  {sortMap : Option (List Nat)} {i pos : Nat} {row : Row δ}

theorem mem_liveDocsWith_of_rowAt (h : RowAt rows sortMap i pos row) (m : δ → Bool) :
    i ∈ liveDocsWith rows m ↔ row.live = true ∧ m row.doc.content = true := by
  rw [mem_liveDocsWith]
  constructor
  · rintro ⟨row', hrow', hlive, hm⟩
    rw [h.row, Option.some_inj] at hrow'
    subst hrow'
    exact ⟨hlive, hm⟩
  · rintro ⟨hlive, hm⟩
    exact ⟨row, h.row, hlive, hm⟩

/-- A packet deletes the documents that it is an edit for. -/
theorem mem_resolveDeletes (h : RowAt rows sortMap i pos row) (p : FrozenBufferedUpdates κ) :
    i ∈ resolveDeletes cfg rows segGen sortMap p ↔
      row.live = true ∧ (p.edit cfg (p.limitFor segGen) pos row.doc.content).killed = true := by
  rw [resolveDeletes, List.mem_append, List.mem_flatMap, List.mem_flatMap,
    FrozenBufferedUpdates.edit, Bool.or_eq_true, List.any_eq_true, List.any_eq_true]
  simp only [List.mem_filter, mem_liveDocsWith_of_rowAt h, h.pos, decide_eq_true_eq,
    Bool.and_eq_true]
  constructor
  · rintro (⟨e, he, ⟨hlive, hm⟩, hlt⟩ | ⟨e, he, ⟨hlive, hm⟩, hlt⟩)
    · exact ⟨hlive, .inl ⟨e, he, hm, hlt⟩⟩
    · exact ⟨hlive, .inr ⟨e, he, hm, hlt⟩⟩
  · rintro ⟨hlive, ⟨e, he, hm, hlt⟩ | ⟨e, he, hm, hlt⟩⟩
    · exact .inl ⟨e, he, ⟨hlive, hm⟩, hlt⟩
    · exact .inr ⟨e, he, ⟨hlive, hm⟩, hlt⟩

/-- The values of one document among those that are written to the documents
of a list without repetitions. -/
theorem valuesOf_map {l : List Nat} (hl : l.Nodup) (g : String) (v : UpdateValue) (i : Nat)
    (f : String) :
    valuesOf (l.map fun d => ⟨g, d, v⟩) i f = if g = f ∧ i ∈ l then [v] else [] := by
  have hfilter : (l.map fun d => (⟨g, d, v⟩ : ValueUpdate)).filter
      (fun u => u.doc = i ∧ u.field = f) =
        (l.filter fun d => d = i ∧ g = f).map fun d => ⟨g, d, v⟩ := by
    rw [List.filter_map]
    rfl
  rw [valuesOf, hfilter]
  by_cases hg : g = f
  · by_cases hi : i ∈ l
    · have hone : (l.filter fun d => d = i ∧ g = f) = [i] := by
        simp only [hg, and_true]
        have hcount := List.Nodup.count hl (a := i)
        rw [if_pos hi] at hcount
        have hbeq := List.filter_beq (l := l) i
        rw [hcount] at hbeq
        have hcongr : (l.filter fun d => decide (d = i)) = l.filter (· == i) := by
          apply List.filter_congr
          intro d _
          rw [beq_eq_decide]
        rw [hcongr, hbeq]
        rfl
      rw [if_pos ⟨hg, hi⟩, hone]
      rfl
    · have hnil : (l.filter fun d => d = i ∧ g = f) = [] := by
        rw [List.filter_eq_nil_iff]
        intro d hd
        simp only [decide_eq_true_eq, not_and]
        rintro rfl
        exact absurd hd hi
      rw [if_neg fun h => hi h.2, hnil]
      rfl
  · have hnil : (l.filter fun d => d = i ∧ g = f) = [] := by
      rw [List.filter_eq_nil_iff]
      intro d _
      simp [hg]
    rw [if_neg fun h => hg h.1, hnil]
    rfl

/-- A packet writes the values that it sets to a document that it does not
delete. -/
theorem valuesOf_resolveField (h : RowAt rows sortMap i pos row) (hlive : row.live = true)
    (p : FrozenBufferedUpdates κ) {deleted : List Nat} (hi : i ∉ deleted) (f : String)
    (e : String × FieldUpdatesBuffer) :
    valuesOf (resolveField cfg rows segGen sortMap p deleted e) i f =
      if (cfg.docValuesType f).isSome then
        if e.1 = f then e.2.valuesSet cfg (p.limitFor segGen) pos row.doc.content else []
      else [] := by
  have hone : ∀ u : BufferedUpdate,
      valuesOf (((liveDocsWith rows (cfg.hasTerm u.term)).filter fun d =>
          belowLimit sortMap d (p.limitFor segGen u.docIdUpto) && !deleted.contains d).map
        fun d => ⟨e.1, d, bufferValue e.2.isNumeric u.value⟩) i f =
      if e.1 = f ∧ cfg.hasTerm u.term row.doc.content = true ∧
          pos < p.limitFor segGen u.docIdUpto then
        [bufferValue e.2.isNumeric u.value] else [] := by
    intro u
    rw [valuesOf_map ((nodup_liveDocsWith rows _).filter _)]
    congr 1
    simp only [List.mem_filter, mem_liveDocsWith_of_rowAt h, h.pos, hlive, true_and,
      Bool.and_eq_true, decide_eq_true_eq, Bool.not_eq_true', List.contains_eq_mem,
      decide_eq_false_iff_not, hi, not_false_eq_true, and_true]
  rw [resolveField]
  by_cases hf : e.1 = f
  · subst hf
    rw [if_pos rfl]
    split
    · rw [valuesOf_flatMap, FieldUpdatesBuffer.valuesSet]
      induction e.2.updates with
      | nil => rfl
      | cons u us ih =>
        rw [List.flatMap_cons, ih, hone u, List.filter_cons]
        by_cases hu : cfg.hasTerm u.term row.doc.content = true ∧
            pos < p.limitFor segGen u.docIdUpto
        · rw [if_pos ⟨rfl, hu⟩, if_pos (by simpa using hu)]
          rfl
        · rw [if_neg fun h => hu h.2, if_neg (by simpa using hu)]
          rfl
    · rfl
  · rw [if_neg hf, ite_self]
    split
    · rw [valuesOf_flatMap, List.flatMap_eq_nil_iff]
      intro u _
      rw [hone u, if_neg fun h => hf h.1]
    · rfl

/-- What the packets of the list do to a document. -/
def packetsEdit (cfg : IndexingConfig δ κ) (segGen : Int) (pos : Nat) (d : δ)
    (ps : List (FrozenBufferedUpdates κ)) : Edit String UpdateValue :=
  (ps.map fun p => p.edit cfg (p.limitFor segGen) pos d).prod

theorem mem_deleted_foldl (h : RowAt rows sortMap i pos row)
    (ps : List (FrozenBufferedUpdates κ)) (r : Resolution) :
    i ∈ (ps.foldl (resolvePacket cfg rows segGen sortMap) r).deleted ↔
      i ∈ r.deleted ∨
        row.live = true ∧ (packetsEdit cfg segGen pos row.doc.content ps).killed = true := by
  induction ps generalizing r with
  | nil => simp [packetsEdit]
  | cons p ps ih =>
    rw [List.foldl_cons, ih, packetsEdit, packetsEdit, List.map_cons, List.prod_cons,
      Edit.killed_mul, Bool.or_eq_true]
    dsimp only [resolvePacket]
    rw [List.mem_append, mem_resolveDeletes h]
    tauto

theorem values_foldl (h : RowAt rows sortMap i pos row) (hlive : row.live = true)
    {ps : List (FrozenBufferedUpdates κ)}
    (hps : (packetsEdit cfg segGen pos row.doc.content ps).killed = false) {r : Resolution}
    (hr : i ∉ r.deleted) (f : String) :
    valuesOf (ps.foldl (resolvePacket cfg rows segGen sortMap) r).updates i f =
      valuesOf r.updates i f ++
        ps.flatMap fun p => p.valuesSet cfg (p.limitFor segGen) pos row.doc.content f := by
  induction ps generalizing r with
  | nil => simp
  | cons p ps ih =>
    rw [packetsEdit, List.map_cons, List.prod_cons, Edit.killed_mul, Bool.or_eq_false_iff] at hps
    have hdel : i ∉ (resolvePacket cfg rows segGen sortMap r p).deleted := by
      dsimp only [resolvePacket]
      rw [List.mem_append, mem_resolveDeletes h, hps.1]
      simp [hr]
    rw [List.foldl_cons, ih hps.2 hdel, List.flatMap_cons, ← List.append_assoc]
    congr 1
    dsimp only [resolvePacket] at hdel ⊢
    rw [valuesOf_append, valuesOf_flatMap]
    congr 1
    simp only [valuesOf_resolveField h hlive p hdel]
    rw [FrozenBufferedUpdates.valuesSet]
    split
    · rfl
    · simp

end

/-! ## A round of packets -/

/-- What the packets that may touch the segment do to one of its documents. -/
def Segment.pendingEdit (cfg : IndexingConfig δ κ) (packets : List (FrozenBufferedUpdates κ))
    (s : Segment δ) (pos : Nat) (d : δ) : Edit String UpdateValue :=
  packetsEdit cfg s.bufferedDeletesGen pos d
    (packets.filter (·.isApplicable s.bufferedDeletesGen s.segmentName))

section

variable (cfg : IndexingConfig δ κ) (packets : List (FrozenBufferedUpdates κ))
  (sortMap : Option (List Nat))

/-- The packets have been applied to `s`. -/
structure Segment.Applied (s s' : Segment δ) : Prop where
  evolves : s.Evolves s'
  rows : ∀ {i pos : Nat} {row row' : Row δ}, RowAt s.rows sortMap i pos row →
    s'.rows[i]? = some row' →
      Cell.Same row'.toCell (row.toCell.apply (s.pendingEdit cfg packets pos row.doc.content))

/-- Some of what the packets do to `s` has been done. -/
structure Segment.Reapplies (s s' : Segment δ) : Prop where
  evolves : s.Evolves s'
  rows : ∀ {i pos : Nat} {row row' : Row δ}, RowAt s.rows sortMap i pos row →
    s'.rows[i]? = some row' →
      Cell.Same (row'.toCell.apply (s.pendingEdit cfg packets pos row.doc.content))
        (row.toCell.apply (s.pendingEdit cfg packets pos row.doc.content))

end

variable {fx : WriterFaults} {cfg : IndexingConfig δ κ}
  {packets : List (FrozenBufferedUpdates κ)} {sortMap : Option (List Nat)}

/-- Only the generation of the next attempt has changed. -/
theorem evolves_skipDelGen {s : Segment δ} (hs : s.WellFormed) :
    s.Evolves { s with nextWriteDelGen := s.nextDelGen + 1 } := by
  have hgen := hs.delGen
  have hpos := hs.nextDelGen
  have hnext : Segment.nextDelGen ({ s with nextWriteDelGen := s.nextDelGen + 1 } : Segment δ) =
      s.nextDelGen + 1 := deriveNextGen_of_pos (by change 0 < s.nextDelGen + 1; omega) _
  refine ⟨rfl, rfl, ⟨hs.delCount, ?_, ?_, hs.fieldInfosGen, hs.nextFieldInfosGen,
    hs.docValuesGen, hs.nextDocValuesGen⟩, rfl, le_rfl, ?_, le_rfl, le_rfl, ?_⟩
  · rw [hnext]
    change s.delGen < _
    omega
  · rw [hnext]
    omega
  · rw [hnext]
    omega
  · intro i row row' hrow hrow'
    obtain rfl : row = row' := Option.some_inj.1 (hrow.symm.trans hrow')
    exact ⟨rfl, id, fun _ => rfl, fun _ => rfl⟩

theorem evolves_skipDocValuesGen {s : Segment δ} (hs : s.WellFormed) :
    s.Evolves
      { s with
        nextWriteFieldInfosGen := s.nextFieldInfosGen + 1
        nextWriteDocValuesGen := s.nextDocValuesGen + 1 } := by
  have hgen := hs.docValuesGen
  have hpos := hs.nextDocValuesGen
  have hfgen := hs.fieldInfosGen
  have hfpos := hs.nextFieldInfosGen
  have hnext : Segment.nextDocValuesGen
      ({ s with
        nextWriteFieldInfosGen := s.nextFieldInfosGen + 1
        nextWriteDocValuesGen := s.nextDocValuesGen + 1 } : Segment δ) =
      s.nextDocValuesGen + 1 :=
    deriveNextGen_of_pos (by change 0 < s.nextDocValuesGen + 1; omega) _
  have hfnext : Segment.nextFieldInfosGen
      ({ s with
        nextWriteFieldInfosGen := s.nextFieldInfosGen + 1
        nextWriteDocValuesGen := s.nextDocValuesGen + 1 } : Segment δ) =
      s.nextFieldInfosGen + 1 :=
    deriveNextGen_of_pos (by change 0 < s.nextFieldInfosGen + 1; omega) _
  refine ⟨rfl, rfl, ⟨hs.delCount, hs.delGen, hs.nextDelGen, ?_, ?_, ?_, ?_⟩, rfl, le_rfl, le_rfl,
    le_rfl, ?_, ?_⟩
  · rw [hfnext]
    change s.fieldInfosGen < _
    omega
  · rw [hfnext]
    omega
  · rw [hnext]
    change s.docValuesGen < _
    omega
  · rw [hnext]
    omega
  · rw [hnext]
    omega
  · intro i row row' hrow hrow'
    obtain rfl : row = row' := Option.some_inj.1 (hrow.symm.trans hrow')
    exact ⟨rfl, id, fun _ => rfl, fun _ => rfl⟩

namespace SegmentIo

theorem ioCall_spec {S : Segment δ → Prop} :
    Triple (fun w => S w.segment) (ioCall fx) (fun w _ => S w.segment) fun w => S w.segment := by
  intro w hw
  rw [ioCall]
  cases fx.fails w.calls <;> exact hw

theorem ioCallOr_spec {s : Segment δ} {recover : Segment δ → Segment δ} :
    Triple (fun w => w.segment = s) (ioCallOr fx recover) (fun w _ => w.segment = s)
      fun w => w.segment = recover s := by
  intro w hw
  rw [ioCallOr]
  cases fx.fails w.calls with
  | true => exact congrArg recover hw
  | false => exact hw

theorem applyDeletes_spec {s : Segment δ} (hs : s.WellFormed) {ids : List Nat}
    (hids : ∀ id ∈ ids, id < s.rows.length) :
    Triple (fun w => w.segment = s) (applyDeletes fx ids)
      (fun w _ => s.Deleted w.segment ids)
      fun w => s.Evolves w.segment ∧ w.segment.rows = s.rows := by
  obtain ⟨s', hrun, hdel⟩ := deletedSegment_spec hs hids
  refine triple_get_bind fun w hw => ?_
  rw [hw, hrun]
  refine triple_bind (triple_conseq (ioCallOr_spec (s := s)) (fun w' hw' => hw' ▸ hw)
    (fun w' _ hw' => hw') fun w' hw' => ?_) fun _ => triple_modify fun w' _ => hdel
  rw [hw']
  exact ⟨evolves_skipDelGen hs, rfl⟩

theorem writeDocValuesUpdates_spec {s : Segment δ} (hs : s.WellFormed) (us : List ValueUpdate) :
    Triple (fun w => w.segment = s) (writeDocValuesUpdates fx us)
      (fun w _ => s.Evolves w.segment ∧ w.segment.rows = us.foldl writeValue s.rows)
      fun w => s.Evolves w.segment ∧ w.segment.rows = s.rows := by
  refine triple_bind (triple_conseq ioCallOr_spec (fun w hw => hw) (fun w _ hw => hw) ?_)
    fun _ => triple_modify fun w hw => ?_
  · intro w hw
    rw [hw]
    exact ⟨evolves_skipDocValuesGen hs, rfl⟩
  · change s.Evolves (updatedSegment w.segment us) ∧ (updatedSegment w.segment us).rows = _
    rw [hw]
    exact ⟨updatedSegment_evolves hs us, rows_updatedSegment s us⟩

/-- Whatever the ids are, the segment is a later version of itself. -/
theorem applyDeletes_evolves {s : Segment δ} (ids : List Nat) :
    Keeps (fun io => s.Evolves io.segment) (applyDeletes fx ids) := by
  refine keeps_get_bind fun io hio => ?_
  cases hrun : deletedSegment io.segment ids with
  | ok updated =>
    have hevolves := hio.trans (deletedSegment_evolves hio.wellFormed hrun)
    have hskip := hio.trans (evolves_skipDelGen hio.wellFormed)
    refine Ends.state (P := fun w : SegmentIo δ => w.segment = io.segment)
      (R := fun w => s.Evolves w.segment) ?_ rfl
    refine ends_bind (ends_conseq ioCallOr_spec.ends (fun _ h => h) (fun _ _ h => h) ?_)
      fun _ => ends_modify fun _ _ => hevolves
    intro w hw
    rw [hw]
    exact hskip
  | err e => exact hio.trans (evolves_skipDelGen hio.wellFormed)
  | panic => exact hio

theorem writeDocValuesUpdates_evolves {s : Segment δ} (us : List ValueUpdate) :
    Keeps (fun io => s.Evolves io.segment) (writeDocValuesUpdates fx us) := by
  intro io hio
  refine Ends.state (P := fun w : SegmentIo δ => w.segment = io.segment)
    (R := fun w => s.Evolves w.segment) ?_ rfl
  refine ends_bind (ends_conseq ioCallOr_spec.ends (fun _ h => h) (fun _ _ h => h) ?_)
    fun _ => ends_modify fun w hw => ?_
  · intro w hw
    rw [hw]
    exact hio.trans (evolves_skipDocValuesGen hio.wellFormed)
  · change s.Evolves (updatedSegment w.segment us)
    rw [hw]
    exact hio.trans (updatedSegment_evolves hio.wellFormed us)

/-- The segment between the deletes and the updates of a round. -/
structure Resolved (s s' : Segment δ) (deleted : List Nat) : Prop where
  evolves : s.Evolves s'
  rows : ∀ i : Nat, s'.rows[i]? = s.rows[i]?.map fun r => r.kill (deleted.contains i)

theorem resolved_of_deleted {s s' : Segment δ} {deleted : List Nat}
    (h : s.Deleted s' ((List.range s.maxDoc).filter fun d => deleted.contains d)) :
    Resolved s s' deleted := by
  refine ⟨h.evolves, fun i => ?_⟩
  rw [h.rows i]
  cases hrow : s.rows[i]? with
  | none => rfl
  | some row =>
    have hlt : i < s.maxDoc := (List.getElem?_eq_some_iff.1 hrow).1
    have hmem : ((List.range s.maxDoc).filter fun d => deleted.contains d).contains i =
        deleted.contains i := by
      rw [Bool.eq_iff_iff, List.contains_iff_mem, List.mem_filter, List.mem_range]
      exact ⟨fun h => h.2, fun h => ⟨hlt, h⟩⟩
    rw [Option.map_some, Option.map_some, hmem]

theorem resolved_nil {s : Segment δ} (hs : s.WellFormed) {deleted : List Nat}
    (h : deleted.isEmpty = true) : Resolved s s deleted := by
  refine ⟨.refl hs, fun i => ?_⟩
  rw [List.isEmpty_iff.1 h]
  cases s.rows[i]? with
  | none => rfl
  | some row => rw [List.contains_nil, Option.map_some, Row.kill_false]

variable {s s' t : Segment δ} {applicable : List (FrozenBufferedUpdates κ)} {r : Resolution}

/-- The writes of a resolution make the edits that the packets are. -/
theorem same_of_writes (hr : r = applicable.foldl
      (resolvePacket cfg s.rows s.bufferedDeletesGen sortMap) ⟨[], []⟩)
    (hmid : Resolved s t r.deleted) (hrows : s'.rows = r.updates.foldl writeValue t.rows)
    {i pos : Nat} {row row' : Row δ} (hrow : RowAt s.rows sortMap i pos row)
    (hrow' : s'.rows[i]? = some row') :
    Cell.Same row'.toCell
      (row.toCell.apply (packetsEdit cfg s.bufferedDeletesGen pos row.doc.content applicable)) := by
  rw [hrows, getElem?_foldl_writeValue, hmid.rows i, hrow.row, Option.map_some, Option.map_some,
    Option.some_inj] at hrow'
  subst hrow'
  have hdel : i ∈ r.deleted ↔ row.live = true ∧
      (packetsEdit cfg s.bufferedDeletesGen pos row.doc.content applicable).killed = true := by
    rw [hr, mem_deleted_foldl hrow]
    simp
  cases hlive : row.live with
  | false =>
    have hdead : (row.kill (r.deleted.contains i)).live = false := by
      rw [Row.kill_of_dead hlive, hlive]
    refine ⟨?_, fun h => ?_⟩
    · rw [Cell.live_apply, hlive]
      exact hdead
    · exact absurd (hdead.symm.trans h) Bool.false_ne_true
  | true =>
    cases hkilled :
        (packetsEdit cfg s.bufferedDeletesGen pos row.doc.content applicable).killed with
    | true =>
      have hcontains : r.deleted.contains i = true :=
        List.contains_iff_mem.2 (hdel.2 ⟨hlive, hkilled⟩)
      have hdead : (row.kill (r.deleted.contains i)).live = false := by
        rw [hcontains, Row.kill]
        exact Bool.and_false _
      refine ⟨?_, fun h => ?_⟩
      · rw [Cell.live_apply, hkilled, Bool.not_true, Bool.and_false]
        exact hdead
      · exact absurd (hdead.symm.trans h) Bool.false_ne_true
    | false =>
      have hnotin : i ∉ r.deleted := fun h => by
        have hk := (hdel.1 h).2
        rw [hkilled] at hk
        cases hk
      have hcontains : r.deleted.contains i = false := by
        rw [Bool.eq_false_iff, Ne, List.contains_iff_mem]
        exact hnotin
      have hkill : row.kill (r.deleted.contains i) = row := by rw [hcontains, Row.kill_false]
      rw [hkill]
      refine ⟨?_, fun _ => ?_⟩
      · rw [Cell.live_apply, hkilled, Bool.not_false, Bool.and_true]
        rfl
      · funext f
        have hvalues := values_foldl (r := ⟨[], []⟩) hrow hlive hkilled List.not_mem_nil f
        rw [← hr] at hvalues
        rw [Cell.values_apply, packetsEdit, FrozenBufferedUpdates.set_prod]
        change (valuesOf r.updates i f).getLast?.getD (row.values f) = _
        rw [hvalues]
        rfl

/-- Between the deletes and the updates the edits can still be made. -/
theorem reapplies_of_resolved (hr : r = applicable.foldl
      (resolvePacket cfg s.rows s.bufferedDeletesGen sortMap) ⟨[], []⟩)
    (hmid : Resolved s t r.deleted) (hrows : s'.rows = t.rows) {i pos : Nat} {row row' : Row δ}
    (hrow : RowAt s.rows sortMap i pos row) (hrow' : s'.rows[i]? = some row') :
    Cell.Same
      (row'.toCell.apply
        (packetsEdit cfg s.bufferedDeletesGen pos row.doc.content applicable))
      (row.toCell.apply
        (packetsEdit cfg s.bufferedDeletesGen pos row.doc.content applicable)) := by
  rw [hrows, hmid.rows i, hrow.row, Option.map_some, Option.some_inj] at hrow'
  subst hrow'
  by_cases hdel : i ∈ r.deleted
  · have hkilled := hdel
    rw [hr, mem_deleted_foldl hrow] at hkilled
    obtain ⟨-, hkilled⟩ := hkilled.resolve_left List.not_mem_nil
    refine ⟨?_, fun h => ?_⟩
    · rw [Cell.live_apply, Cell.live_apply, hkilled, Bool.not_true, Bool.and_false,
        Bool.and_false]
    · rw [Cell.live_apply, hkilled, Bool.not_true, Bool.and_false] at h
      cases h
  · have hcontains : r.deleted.contains i = false := by
      rw [Bool.eq_false_iff, Ne, List.contains_iff_mem]
      exact hdel
    rw [hcontains, Row.kill_false]
    exact .refl _

theorem applyPackets_spec (fx : WriterFaults) (cfg : IndexingConfig δ κ)
    (packets : List (FrozenBufferedUpdates κ)) (hs : s.WellFormed)
    (maps : Option (String × List Nat))
    (hmaps : (maps.filter (·.1 == s.segmentName)).map (·.2) = sortMap) :
    Triple (fun w => w.segment = s) (applyPacketsToSegment fx cfg packets maps)
      (fun w b => s.Applied cfg packets sortMap w.segment ∧
        (b = true → deadCount w.segment.rows = w.segment.rows.length))
      fun w => s.Reapplies cfg packets sortMap w.segment := by
  refine triple_get_bind fun w hw => ?_
  refine triple_conseq (P := fun w => w.segment = s) ?_ (fun w' hw' => hw' ▸ hw)
    (fun _ _ h => h) fun _ h => h
  rw [hw]
  refine triple_get_bind fun w hw => ?_
  refine triple_conseq (P := fun w => w.segment = s) ?_ (fun w' hw' => hw' ▸ hw)
    (fun _ _ h => h) fun _ h => h
  rw [hw]
  dsimp only
  rw [hmaps]
  split
  · rename_i hnil
    have hone : ∀ pos d, s.pendingEdit cfg packets pos d = 1 := by
      intro pos d
      rw [Segment.pendingEdit, List.isEmpty_iff.1 hnil]
      rfl
    refine triple_pure fun w hw => ⟨⟨by rw [hw]; exact .refl hs, ?_⟩, fun h => by cases h⟩
    intro i pos row row' hrow hrow'
    rw [hw, hrow.row, Option.some_inj] at hrow'
    subst hrow'
    rw [hone, Cell.apply_one]
    exact .refl _
  · generalize hr : (packets.filter (·.isApplicable s.bufferedDeletesGen s.segmentName)).foldl
      (resolvePacket cfg s.rows s.bufferedDeletesGen sortMap) ⟨[], []⟩ = r
    -- a failure in front of the deletes leaves the segment as it is
    have hstart : ∀ w : SegmentIo δ, s.Evolves w.segment ∧ w.segment.rows = s.rows →
        s.Reapplies cfg packets sortMap w.segment := by
      intro w hw
      refine ⟨hw.1, fun hrow hrow' => ?_⟩
      rw [hw.2, hrow.row, Option.some_inj] at hrow'
      subst hrow'
      exact .refl _
    refine triple_bind (triple_conseq (ioCall_spec (S := fun x => x = s)) (fun w hw => hw)
      (fun w _ hw => hw) fun w hw => hstart w (by rw [hw]; exact ⟨.refl hs, rfl⟩)) fun _ => ?_
    refine triple_bind (Q := fun (w : SegmentIo δ) _ => Resolved s w.segment r.deleted) ?_
      fun _ => ?_
    · refine triple_when (fun _ => ?_) fun hempty w hw => ?_
      · refine triple_conseq (applyDeletes_spec hs ?_) (fun w hw => hw)
          (fun w _ hw => resolved_of_deleted hw) hstart
        intro id hid
        exact List.mem_range.1 (List.mem_filter.1 hid).1
      · rw [hw]
        exact resolved_nil hs (by simpa using hempty)
    refine triple_bind (Q := fun (w : SegmentIo δ) _ => s.Applied cfg packets sortMap w.segment)
      ?_ fun _ => triple_get fun w hw => ⟨hw, fun hb => ?_⟩
    · refine triple_when (fun _ => ?_) fun hupdates w hmid => ?_
      · intro w hmid
        refine triple_conseq (writeDocValuesUpdates_spec (s := w.segment) hmid.evolves.wellFormed
          r.updates) (fun _ h => h) (fun w' _ hw' => ?_) (fun w' hw' => ?_) w rfl
        · exact ⟨hmid.evolves.trans hw'.1, fun hrow hrow' =>
            same_of_writes hr.symm hmid hw'.2 hrow hrow'⟩
        · exact ⟨hmid.evolves.trans hw'.1, fun hrow hrow' =>
            reapplies_of_resolved hr.symm hmid hw'.2 hrow hrow'⟩
      · have hnil : r.updates = [] := by simpa using hupdates
        refine ⟨hmid.evolves, fun hrow hrow' => ?_⟩
        exact same_of_writes hr.symm hmid (by rw [hnil]; rfl) hrow hrow'
    · rw [beq_iff_eq] at hb
      rw [← hw.evolves.wellFormed.delCount, hb]
      rfl

theorem applyPackets_evolves (maps : Option (String × List Nat)) :
    Keeps (fun io => s.Evolves io.segment) (applyPacketsToSegment fx cfg packets maps) := by
  intro io hio
  have hspec := applyPackets_spec fx cfg packets hio.wellFormed maps rfl
  refine Ends.state (P := fun w : SegmentIo δ => w.segment = io.segment)
    (R := fun w => s.Evolves w.segment) ?_ rfl
  exact ends_conseq hspec.ends (fun _ h => h) (fun _ _ h => hio.trans h.1.evolves)
    fun _ h => hio.trans h.evolves

end SegmentIo

end LuceneRust.Index
