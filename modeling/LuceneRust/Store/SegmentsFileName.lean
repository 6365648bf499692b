import LuceneRust.Store.SliceInput
import LuceneRust.Util.Base36

/-!
# The names of the commit files

A commit of generation `N` is the file `segments_N`, with `N` to the base 36.
It is written under the name `pending_segments_N` first.  A reader takes the
highest generation of a listing (`lastCommitGeneration`).

* `generationFromSegmentsFileName_segmentsFileName` is the round trip of a
  generation through its file name.
* `lastCommitGeneration_eq` says which generation a listing has.
-/

namespace LuceneRust.Store

open RustSem

/-- `SEGMENTS_PREFIX`. -/
def segmentsName : String := "segments"

/-- `PENDING_SEGMENTS_PREFIX`. -/
def pendingSegmentsName : String := "pending_segments"

/-- `OLD_SEGMENTS_GEN`. -/
def oldSegmentsGen : String := "segments.gen"

/-- `str::starts_with`. -/
def startsWith (s p : String) : Bool := p.toList.isPrefixOf s.toList

/-- `generation_from_segments_file_name`.  The character after `segments` is
skipped, whatever it is. -/
def generationFromSegmentsFileName (fileName : String) : Result Int :=
  if fileName = oldSegmentsGen then
    .err (.corrupted ("\"" ++ oldSegmentsGen ++
      "\" is not a valid segment file name since 4.0"))
  else if fileName = segmentsName then .ok 0
  else if startsWith fileName segmentsName then
    .okOr (Util.fromBase36 (String.ofList (fileName.toList.drop (segmentsName.length + 1))))
      (.corrupted ("fileName \"" ++ fileName ++ "\" is not a segments file"))
  else .err (.corrupted ("fileName \"" ++ fileName ++ "\" is not a segments file"))

/-- `is_segments_candidate`. -/
def isSegmentsCandidate (fileName : String) : Bool :=
  startsWith fileName segmentsName && !startsWith fileName oldSegmentsGen

/-- `last_commit_generation`: `-1` where there is no commit. -/
def lastCommitGeneration (files : List String) : Result Int :=
  files.foldlM (fun generation file =>
    if isSegmentsCandidate file then do
      let g ← generationFromSegmentsFileName file
      .ok (max generation g)
    else .ok generation) (-1)

/-- `segments_file_name`. -/
def segmentsFileName (generation : Int) : Option String :=
  if generation = -1 then none
  else if generation = 0 then some segmentsName
  else some (segmentsName ++ "_" ++ Util.toBase36 generation)

/-- `pending_segments_file_name`. -/
def pendingSegmentsFileName (generation : Int) : Option String :=
  if generation < 0 then none
  else if generation = 0 then some pendingSegmentsName
  else some (pendingSegmentsName ++ "_" ++ Util.toBase36 generation)

/-! ## Names and generations -/

theorem startsWith_append (p s : String) : startsWith (p ++ s) p = true := by
  rw [startsWith, List.isPrefixOf_iff_prefix, String.toList_append]
  exact List.prefix_append _ _

/-- The file of a commit is a name that a reader looks for. -/
theorem isSegmentsCandidate_segments (s : String) :
    isSegmentsCandidate (segmentsName ++ "_" ++ s) = true := by
  have hnot : startsWith (segmentsName ++ "_" ++ s) oldSegmentsGen = false := by
    rw [startsWith, String.toList_append, String.toList_append]
    rfl
  rw [isSegmentsCandidate, hnot, String.append_assoc, startsWith_append]
  rfl

/-- A pending file is not. -/
theorem isSegmentsCandidate_pending (s : String) :
    isSegmentsCandidate (pendingSegmentsName ++ s) = false := by
  rw [isSegmentsCandidate, startsWith, String.toList_append]
  rfl

theorem segmentsFileName_of_pos {n : Nat} (hn : 0 < n) :
    segmentsFileName n = some (segmentsName ++ "_" ++ Util.toBase36 n) := by
  rw [segmentsFileName, if_neg (by omega), if_neg (by omega)]

theorem generationFromSegmentsFileName_segmentsFileName {n : Nat} (hn : n < 2 ^ 63) :
    generationFromSegmentsFileName (segmentsName ++ "_" ++ Util.toBase36 n) = .ok (n : Int) := by
  have hne : segmentsName ++ "_" ++ Util.toBase36 n ≠ segmentsName := by
    intro h
    have := congrArg (fun s : String => s.toList.length) h
    simp [String.toList_append] at this
  have hgen : segmentsName ++ "_" ++ Util.toBase36 n ≠ oldSegmentsGen := by
    intro h
    have := congrArg String.toList h
    rw [String.toList_append, String.toList_append] at this
    exact absurd (congrArg (fun l : List Char => l[8]?) this)
      (by simp [segmentsName, oldSegmentsGen])
  rw [generationFromSegmentsFileName, if_neg hgen, if_neg hne, if_pos]
  · have hdrop : (segmentsName ++ "_" ++ Util.toBase36 n).toList.drop (segmentsName.length + 1) =
        (Util.toBase36 n).toList := by
      rw [String.toList_append, String.toList_append]
      rfl
    rw [hdrop, String.ofList_toList, Util.fromBase36_toBase36 hn, okOr_some]
  · rw [String.append_assoc]
    exact startsWith_append _ _

/-- The generation of a listing: every name that a reader looks for has one,
and it is the highest of them. -/
def HasLastGeneration (files : List String) (start g : Int) : Prop :=
  start ≤ g ∧
    (∀ file ∈ files, isSegmentsCandidate file = true →
      ∃ k, generationFromSegmentsFileName file = .ok k ∧ k ≤ g) ∧
    (g = start ∨ ∃ file ∈ files, isSegmentsCandidate file = true ∧
      generationFromSegmentsFileName file = .ok g)

theorem hasLastGeneration_skip {file : String} {files : List String} {start g : Int}
    (hc : isSegmentsCandidate file ≠ true) :
    HasLastGeneration (file :: files) start g ↔ HasLastGeneration files start g := by
  simp only [HasLastGeneration, List.forall_mem_cons, List.exists_mem_cons_iff, hc,
    Bool.false_eq_true, false_implies, true_and, false_and, false_or]

theorem hasLastGeneration_cons {file : String} {files : List String} {start g k : Int}
    (hc : isSegmentsCandidate file = true)
    (hk : generationFromSegmentsFileName file = .ok k) :
    HasLastGeneration (file :: files) start g ↔ HasLastGeneration files (max start k) g := by
  simp only [HasLastGeneration, List.forall_mem_cons, List.exists_mem_cons_iff, hc, hk,
    forall_const, true_and, Outcome.ok.injEq, exists_eq_left']
  constructor
  · rintro ⟨hs, ⟨hkg, hall⟩, hex⟩
    refine ⟨max_le hs hkg, hall, ?_⟩
    rcases hex with rfl | rfl | hex
    · exact .inl (max_eq_left hkg).symm
    · exact .inl (max_eq_right hs).symm
    · exact .inr hex
  · rintro ⟨hmax, hall, hex⟩
    obtain ⟨hs, hkg⟩ := max_le_iff.mp hmax
    refine ⟨hs, ⟨hkg, hall⟩, ?_⟩
    rcases hex with rfl | hex
    · rcases max_choice start k with h | h
      · exact .inl h
      · exact .inr (.inl h.symm)
    · exact .inr (.inr hex)

theorem foldlM_lastCommitGeneration {g : Int} (files : List String) (start : Int) :
    files.foldlM (fun generation file =>
      if isSegmentsCandidate file then do
        let g ← generationFromSegmentsFileName file
        .ok (max generation g)
      else .ok generation) start = (.ok g : Result Int) ↔ HasLastGeneration files start g := by
  induction files generalizing start with
  | nil =>
    simp only [HasLastGeneration, List.foldlM_nil, Outcome.pure_eq, Outcome.ok.injEq]
    constructor
    · rintro rfl
      exact ⟨le_rfl, fun _ h => absurd h List.not_mem_nil, .inl rfl⟩
    · rintro ⟨-, -, rfl | ⟨_, h, -⟩⟩
      · rfl
      · exact absurd h List.not_mem_nil
  | cons file files ih =>
    rw [List.foldlM_cons]
    by_cases hc : isSegmentsCandidate file = true
    case neg => rw [if_neg hc, ok_bind, ih start, hasLastGeneration_skip hc]
    rw [if_pos hc]
    -- A name without a generation stops the scan.
    have hbad : (∀ k, generationFromSegmentsFileName file ≠ .ok k) →
        ¬ HasLastGeneration (file :: files) start g := by
      rintro hne ⟨-, hall, -⟩
      obtain ⟨k, hk, -⟩ := hall file List.mem_cons_self hc
      exact hne k hk
    cases hk : generationFromSegmentsFileName file with
    | ok k => rw [ok_bind, ok_bind, ih, hasLastGeneration_cons hc hk]
    | err e => simpa using hbad (by simp [hk])
    | panic => simpa using hbad (by simp [hk])

theorem lastCommitGeneration_eq {files : List String} {g : Int} :
    lastCommitGeneration files = .ok g ↔ HasLastGeneration files (-1) g :=
  foldlM_lastCommitGeneration files (-1)

end LuceneRust.Store
