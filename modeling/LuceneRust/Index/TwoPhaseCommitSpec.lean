import LuceneRust.Index.SegmentInfosSpec
import LuceneRust.Index.TwoPhaseCommit

/-!
# A commit is there as a whole or not at all

A reader looks only at the names that `is_segments_candidate` lets pass, and
of these only the commit file itself is ever touched.

* `readLatest_same` and `readLatest_published` say what a reader sees before
  and after the rename.
* `writePending_triple`, `finishPending_triple` and `rollbackPending_triple`
  follow the two phases through every call that may fail or be the last.
* `commit_atomic` puts them together.
-/

namespace LuceneRust.Index

open RustSem
open CrashHoare
open Store (Files IoError HasLastGeneration isSegmentsCandidate)

variable {files f : Files} {crc32 : List U8 → U32} {old sis : SegmentInfos}

/-! ## What a reader sees -/

/-- The two directories are the same to a reader. -/
def Same (files f : Files) : Prop :=
  ∀ name, isSegmentsCandidate name = true → f.lookup name = files.lookup name

/-- The commit file `fileName` is new, and nothing else that a reader looks
at. -/
structure Published (files : Files) (fileName : String) (bytes : List U8) (f : Files) : Prop where
  file : f.lookup fileName = some bytes
  others : ∀ name, isSegmentsCandidate name = true → name ≠ fileName →
    f.lookup name = files.lookup name

theorem mem_listAll {name : String} : name ∈ listAll f ↔ (f.lookup name).isSome := by
  rw [listAll, List.mem_insertionSort, AList.lookup_isSome, AList.mem_keys]

theorem ofInfos_eq_ok {α : Type} {x : Result α} {a : α} (h : ofInfos x = .ok a) : x = .ok a := by
  cases x with
  | ok b => simpa [ofInfos] using h
  | err e => simp [ofInfos] at h
  | panic => simp [ofInfos] at h

theorem okOr_eq_ok {ε α : Type} {x : Option α} {e : ε} {a : α}
    (h : (Outcome.okOr x e) = .ok a) : x = some a := by
  cases x with
  | some b => simpa using h
  | none => simp at h

theorem readLatest_eq_ok :
    readLatest crc32 f = .ok old ↔
      ∃ g name bytes, HasLastGeneration (listAll f) (-1) g ∧
        Store.segmentsFileName g = some name ∧ f.lookup name = some bytes ∧
        parse crc32 bytes g = .ok old := by
  constructor
  · intro h
    obtain ⟨⟨g, bytes⟩, hcommit, hparse⟩ := Outcome.bind_eq_ok.mp h
    obtain ⟨g', hg, hopen⟩ := Outcome.bind_eq_ok.mp hcommit
    obtain ⟨bytes', hbytes, heq⟩ := Outcome.bind_eq_ok.mp hopen
    obtain ⟨rfl, rfl⟩ : g' = g ∧ bytes' = bytes := by simpa using heq
    obtain ⟨name, hname, hlook⟩ := Outcome.bind_eq_ok.mp hbytes
    exact ⟨g', name, bytes', Store.lastCommitGeneration_eq.mp (ofStore_eq_ok (ofInfos_eq_ok hg)),
      okOr_eq_ok hname, okOr_eq_ok hlook, ofInfos_eq_ok hparse⟩
  · rintro ⟨g, name, bytes, hg, hname, hlook, hparse⟩
    simp only [readLatest, readLatestCommit, openCommitFile,
      Store.lastCommitGeneration_eq.mpr hg, ofStore, ofInfos, ok_bind, hname,
      okOr_some, hlook, hparse]

theorem parse_generation {bytes : List U8} {g : Int} (h : parse crc32 bytes g = .ok old) :
    old.generation = g := by
  simp only [parse, bind_eq_ok] at h
  obtain ⟨_, _, _, _, _, _, _, _, _, _, _, _, h⟩ := h
  split at h
  · cases h
  · simp only [parseCounters, bind_eq_ok] at h
    obtain ⟨_, _, _, _, _, _, _, _, _, _, h⟩ := h
    cases h
    rfl

/-- A commit that a reader finds has a generation with a file name. -/
theorem generation_nonneg (hold : readLatest crc32 files = .ok old) : 0 ≤ old.generation := by
  obtain ⟨g, name, bytes, hg, hname, -, hparse⟩ := readLatest_eq_ok.mp hold
  rw [parse_generation hparse]
  have hle := hg.1
  have hne : g ≠ -1 := by
    rintro rfl
    simp [Store.segmentsFileName] at hname
  omega

/-- The file of a commit is a name that a reader looks for. -/
theorem isSegmentsCandidate_segmentsFileName {g : Int} {name : String}
    (h : Store.segmentsFileName g = some name) : isSegmentsCandidate name = true := by
  rw [Store.segmentsFileName] at h
  split at h
  · cases h
  · split at h
    · cases h
      decide
    · cases h
      exact Store.isSegmentsCandidate_segments _

theorem hasLastGeneration_congr {l l' : List String} {g : Int}
    (h : ∀ name, isSegmentsCandidate name = true → (name ∈ l ↔ name ∈ l')) :
    HasLastGeneration l (-1) g → HasLastGeneration l' (-1) g := by
  rintro ⟨hle, hall, hex⟩
  refine ⟨hle, fun file hf hc => hall file ((h file hc).mpr hf) hc, hex.imp_right ?_⟩
  rintro ⟨file, hf, hc, hg⟩
  exact ⟨file, (h file hc).mp hf, hc, hg⟩

theorem readLatest_same (h : Same files f) (hold : readLatest crc32 files = .ok old) :
    readLatest crc32 f = .ok old := by
  obtain ⟨g, name, bytes, hg, hname, hlook, hparse⟩ := readLatest_eq_ok.mp hold
  refine readLatest_eq_ok.mpr ⟨g, name, bytes, ?_, hname, ?_, hparse⟩
  · refine hasLastGeneration_congr (fun n hc => ?_) hg
    rw [mem_listAll, mem_listAll, h n hc]
  · rw [h name (isSegmentsCandidate_segmentsFileName hname), hlook]

/-- A commit that is newer than the latest one is the one that is read. -/
theorem readLatest_published {n : Nat} {bytes : List U8} (hn : (n : Int) ≤ maxGeneration)
    (hold : readLatest crc32 files = .ok old) (hlt : old.generation < n)
    (h : Published files (Store.segmentsName ++ "_" ++ Util.toBase36 n) bytes f) :
    readLatest crc32 f = ofInfos (parse crc32 bytes n) := by
  have hpos : 0 < n := by
    have hold0 := generation_nonneg hold
    omega
  obtain ⟨g, name, bytes', hg, hname, hlook, hparse⟩ := readLatest_eq_ok.mp hold
  have hgn : g < n := parse_generation hparse ▸ hlt
  have hfile := Store.segmentsFileName_of_pos hpos
  have hcand := isSegmentsCandidate_segmentsFileName hfile
  have hgen := Store.generationFromSegmentsFileName_segmentsFileName (n := n)
    (by rw [maxGeneration] at hn; omega)
  have hlast : HasLastGeneration (listAll f) (-1) n := by
    refine ⟨by omega, fun file hf hc => ?_, .inr ⟨_, ?_, hcand, hgen⟩⟩
    · by_cases heq : file = Store.segmentsName ++ "_" ++ Util.toBase36 n
      · exact ⟨n, heq ▸ hgen, le_rfl⟩
      · rw [mem_listAll, h.others file hc heq, ← mem_listAll] at hf
        obtain ⟨k, hk, hkg⟩ := hg.2.1 file hf hc
        exact ⟨k, hk, by omega⟩
    · rw [mem_listAll, h.file]
      rfl
  simp only [readLatest, readLatestCommit, openCommitFile,
    Store.lastCommitGeneration_eq.mpr hlast, ofStore, ofInfos, ok_bind, hfile,
    okOr_some, h.file]

/-! ## Calls on the directory -/

section calls

variable {fx : Faults} {failed : Nat → Files → Files} {effect : Files → Except IoError Files}
  {P C : DirState → Prop} {Q : DirState → Except IoError Unit → Prop}

/-- The three ways in which a call ends, and the one in which it does not. -/
theorem dirCall_triple
    (hcrash : ∀ s, P s → C ⟨failed s.calls s.files, s.calls⟩)
    (hfail : ∀ s, P s → fx.fails s.calls = true →
      Q ⟨failed s.calls s.files, s.calls + 1⟩ (.error osError))
    (hok : ∀ s f, P s → effect s.files = .ok f → Q ⟨f, s.calls + 1⟩ (.ok ()))
    (herr : ∀ s e, P s → effect s.files = .error e → Q ⟨s.files, s.calls + 1⟩ (.error e)) :
    Triple P (dirCall fx failed effect) C Q := by
  intro s hs
  rw [dirCall]
  split
  · exact hcrash s hs
  · split
    case isTrue h => exact hfail s hs h
    case isFalse =>
      split
      case h_1 f hf => exact hok s f hs hf
      case h_2 e he => exact herr s e hs he

/-- A call that keeps what a reader sees. -/
theorem dirCall_same (hfailed : ∀ n f, Same files f → Same files (failed n f))
    (heffect : ∀ f f', Same files f → effect f = .ok f' → Same files f') :
    Triple (fun s => Same files s.files) (dirCall fx failed effect)
      (fun s => Same files s.files) (fun s _ => Same files s.files) :=
  dirCall_triple (fun s h => hfailed s.calls s.files h) (fun s h _ => hfailed s.calls s.files h)
    (fun s f h hf => heffect s.files f h hf) (fun _ _ h _ => h)

end calls

section writing

variable {fx : Faults} {pendingName : String} {bytes : List U8}

theorem Same.insert (hp : isSegmentsCandidate pendingName = false) (h : Same files f)
    (b : List U8) : Same files (f.insert pendingName b) := by
  intro name hc
  have hne : name ≠ pendingName := by
    rintro rfl
    rw [hp] at hc
    cases hc
  rw [AList.lookup_insert_ne hne, h name hc]

theorem Same.erase (hp : isSegmentsCandidate pendingName = false) (h : Same files f) :
    Same files (f.erase pendingName) := by
  intro name hc
  have hne : name ≠ pendingName := by
    rintro rfl
    rw [hp] at hc
    cases hc
  rw [AList.lookup_erase_ne hne, h name hc]

theorem deleteFile_same (hp : isSegmentsCandidate pendingName = false) :
    Triple (fun s => Same files s.files) (deleteFile fx pendingName)
      (fun s => Same files s.files) (fun s _ => Same files s.files) := by
  refine dirCall_same (fun _ _ h => h) (fun f f' h heq => ?_)
  split at heq
  · cases heq
    exact h.erase hp
  · cases heq

theorem writeOutput_triple (hp : isSegmentsCandidate pendingName = false) :
    Triple (fun s => Same files s.files) (writeOutput fx pendingName bytes)
      (fun s => Same files s.files)
      (fun s r => Same files s.files ∧
        ∀ name, r = .ok name → name = pendingName ∧ s.files.lookup name = some bytes) := by
  -- The deletes that follow a failure.
  have hcleanup : ∀ e : IoError, Triple (fun s => Same files s.files)
      (do let _ ← deleteFile fx pendingName; return .err (.io e) :
        Prog DirState (Outcome CommitError String))
      (fun s => Same files s.files)
      (fun s r => Same files s.files ∧
        ∀ name, r = .ok name → name = pendingName ∧ s.files.lookup name = some bytes) := by
    intro e
    refine triple_bind (deleteFile_same hp) fun _ => triple_pure fun s hs => ⟨hs, ?_⟩
    intro name hname
    cases hname
  refine triple_bind (Q := fun s r => Same files s.files ∧
    (r = .ok () → s.files.lookup pendingName = some bytes)) ?_ ?_
  · refine dirCall_triple (fun s h => h.insert hp _) (fun s h _ => ⟨h.insert hp _, ?_⟩)
      (fun s f h hf => ?_) (fun s e h he => ⟨h, ?_⟩)
    · intro hok
      cases hok
    · cases hf
      exact ⟨h.insert hp bytes, fun _ => AList.lookup_insert _⟩
    · cases he
  rintro (e | ⟨⟩)
  · exact triple_conseq (hcleanup e) (fun s h => h.1) (fun s h => h) (fun s r h => h)
  refine triple_bind (Q := fun s r => Same files s.files ∧
    (r = .ok () → s.files.lookup pendingName = some bytes)) ?_ ?_
  · refine dirCall_triple (fun s h => h.1) (fun s h _ => ⟨h.1, ?_⟩)
      (fun s f h hf => ?_) (fun s e h he => ⟨h.1, ?_⟩)
    · intro hok
      cases hok
    · split at hf
      · cases hf
        exact ⟨h.1, fun _ => h.2 rfl⟩
      · cases hf
    · intro hok
      cases hok
  rintro (e | ⟨⟩)
  · exact triple_conseq (hcleanup e) (fun s h => h.1) (fun s h => h) (fun s r h => h)
  · refine triple_pure fun s h => ⟨h.1, ?_⟩
    rintro name hname
    cases hname
    exact ⟨rfl, h.2 rfl⟩

end writing

/-! ## The two phases -/

section phases

variable {bmi2 : Bool} {fx : Faults} {n : Nat} {bytes : List U8}

/-- `pending_segments_N`. -/
def pendingFile (n : Nat) : String := Store.pendingSegmentsName ++ "_" ++ Util.toBase36 n

/-- `segments_N`. -/
def commitFile (n : Nat) : String := Store.segmentsName ++ "_" ++ Util.toBase36 n

theorem commitName_pending (hn : 0 < n) (hgen : sis.generation = n) :
    commitName sis Store.pendingSegmentsFileName = .ok (pendingFile n) := by
  rw [commitName, hgen, Store.pendingSegmentsFileName, if_neg (by omega), if_neg (by omega)]
  rfl

theorem commitName_segments (hn : 0 < n) (hgen : sis.generation = n) :
    commitName sis Store.segmentsFileName = .ok (commitFile n) := by
  rw [commitName, hgen, Store.segmentsFileName_of_pos hn]
  rfl

theorem pendingFile_not_candidate : isSegmentsCandidate (pendingFile n) = false := by
  rw [pendingFile, String.append_assoc]
  exact Store.isSegmentsCandidate_pending _

theorem commitFile_candidate : isSegmentsCandidate (commitFile n) = true :=
  Store.isSegmentsCandidate_segments _

theorem pendingFile_ne_commitFile : pendingFile n ≠ commitFile n := by
  intro heq
  have hcand := commitFile_candidate (n := n)
  rw [← heq, pendingFile_not_candidate] at hcand
  cases hcand

/-- The file of the commit is there under its pending name, and a reader still
sees the commit before. -/
structure Prepared (bmi2 : Bool) (crc32 : List U8 → U32) (files : Files) (sis : SegmentInfos)
    (f : Files) : Prop where
  writable : checkWritableGenerations sis = .ok ()
  pending : ∃ bytes, toBytes bmi2 crc32 sis = .ok bytes ∧
    ∀ name, Store.pendingSegmentsFileName sis.generation = some name →
      f.lookup name = some bytes
  same : Same files f

theorem writePending_triple (hn : 0 < n) (hgen : sis.generation = n) :
    Triple (fun s => Same files s.files) (writePending fx bmi2 crc32 sis)
      (fun s => Same files s.files)
      (fun s r => Same files s.files ∧
        ∀ name, r = .ok name → Prepared bmi2 crc32 files sis s.files) := by
  have hpend := commitName_pending hn hgen
  have hp := pendingFile_not_candidate (n := n)
  -- An error leaves nothing to show but what a reader sees.
  have herr : ∀ x : Outcome CommitError String, (∀ name, x ≠ .ok name) →
      Triple (fun s => Same files s.files) (return x : Prog DirState (Outcome CommitError String))
        (fun s => Same files s.files)
        (fun s r => Same files s.files ∧
          ∀ name, r = .ok name → Prepared bmi2 crc32 files sis s.files) := by
    intro x hx
    exact triple_pure fun s hs => ⟨hs, fun name hname => absurd hname (hx name)⟩
  rw [writePending]
  cases hcheck : checkWritableGenerations sis with
  | err e => exact herr _ (by simp)
  | panic => exact herr _ (by simp)
  | ok u =>
    rw [hpend]
    refine triple_bind (Q := fun s _ => Same files s.files)
      (dirCall_same (fun _ _ h => h) (fun f f' h heq => by cases heq; exact h)) ?_
    rintro (e | ⟨⟩)
    · exact herr _ (by simp)
    cases hbytes : toBytes bmi2 crc32 sis with
    | err e => exact herr _ (by simp)
    | panic => exact herr _ (by simp)
    | ok bytes =>
      refine triple_bind (Q := fun s _ => Same files s.files)
        (dirCall_same (fun _ _ h => h) (fun f f' h heq => by cases heq; exact h.insert hp [])) ?_
      rintro (e | ⟨⟩)
      · exact herr _ (by simp)
      refine triple_conseq (writeOutput_triple hp) (fun s h => h) (fun s h => h) ?_
      rintro s r ⟨hs, hr⟩
      refine ⟨hs, fun name hname => ⟨hcheck, ⟨bytes, hbytes, fun name' hname' => ?_⟩, hs⟩⟩
      obtain ⟨rfl, hlook⟩ := hr name hname
      rw [commitName, hname', okOr_some, Outcome.ok.injEq] at hpend
      rw [hpend, hlook]

theorem prepared_of_writePending (hn : 0 < n) (hgen : sis.generation = n) {k : Nat}
    {s : DirState} {name : String}
    (h : writePending fx bmi2 crc32 sis ⟨files, k⟩ = .returned s (.ok name)) :
    Prepared bmi2 crc32 files sis s.files := by
  have hrun : (writePending fx bmi2 crc32 sis ⟨files, k⟩).Sat _ _ :=
    writePending_triple hn hgen ⟨files, k⟩ (fun _ _ => rfl)
  rw [h] at hrun
  exact hrun.2 name rfl

theorem rollbackPending_triple (hn : 0 < n) (hgen : sis.generation = n) :
    Triple (fun s => Same files s.files) (rollbackPending fx sis)
      (fun s => Same files s.files) (fun s _ => Same files s.files) := by
  have hpend := okOr_eq_ok (commitName_pending hn hgen)
  rw [rollbackPending, hpend]
  exact triple_bind (deleteFile_same pendingFile_not_candidate)
    fun _ => triple_pure fun s hs => hs

/-! The rename and its way back -/

theorem Prepared.publish (h : Prepared bmi2 crc32 files sis f) (hn : 0 < n)
    (hgen : sis.generation = n) :
    ∃ bytes, toBytes bmi2 crc32 sis = .ok bytes ∧ f.lookup (pendingFile n) = some bytes ∧
      Published files (commitFile n) bytes
        ((f.erase (pendingFile n)).insert (commitFile n) bytes) ∧
      pendingFile n ∉ (f.erase (pendingFile n)).insert (commitFile n) bytes := by
  obtain ⟨bytes, hbytes, hpend⟩ := h.pending
  refine ⟨bytes, hbytes, hpend _ (okOr_eq_ok (commitName_pending hn hgen)),
    ⟨AList.lookup_insert _, fun name hc hne => ?_⟩, fun hmem => ?_⟩
  case refine_2 =>
    rcases (AList.mem_insert _).mp hmem with heq | hmem
    · exact pendingFile_ne_commitFile heq
    · exact (AList.mem_erase.mp hmem).1 rfl
  have hne' : name ≠ pendingFile n := by
    rintro rfl
    rw [pendingFile_not_candidate] at hc
    cases hc
  rw [AList.lookup_insert_ne hne, AList.lookup_erase_ne hne', h.same name hc]

/-- A commit file that is gone leaves what was there before. -/
theorem Published.erase (h : Published files (commitFile n) bytes f)
    (hnew : files.lookup (commitFile n) = none) : Same files (f.erase (commitFile n)) := by
  intro name hc
  by_cases hne : name = commitFile n
  · rw [hne, AList.lookup_erase, hnew]
  · rw [AList.lookup_erase_ne hne, h.others name hc hne]

theorem Published.unpublish (h : Published files (commitFile n) bytes f)
    (hnew : files.lookup (commitFile n) = none) (hn : 0 < n) (hgen : sis.generation = n)
    (hcheck : checkWritableGenerations sis = .ok ()) (hbytes : toBytes bmi2 crc32 sis = .ok bytes) :
    Prepared bmi2 crc32 files sis
      ((f.erase (commitFile n)).insert (pendingFile n) bytes) := by
  refine ⟨hcheck, ⟨bytes, hbytes, fun name hname => ?_⟩,
    (h.erase hnew).insert pendingFile_not_candidate bytes⟩
  have hpend := commitName_pending hn hgen
  rw [commitName, hname, okOr_some, Outcome.ok.injEq] at hpend
  rw [hpend, AList.lookup_insert]

/-- The second phase, from the `k`-th call on. -/
theorem finishPending_triple (fx : Faults) (hn : 0 < n) (hgen : sis.generation = n)
    (hnew : files.lookup (commitFile n) = none) (hbytes : toBytes bmi2 crc32 sis = .ok bytes)
    (k : Nat) :
    Triple (fun s => s.calls = k ∧ Prepared bmi2 crc32 files sis s.files)
      (finishPending fx sis)
      (fun s => Same files s.files ∨ Published files (commitFile n) bytes s.files)
      (fun s r =>
        (∀ name, r = .ok name → Published files (commitFile n) bytes s.files) ∧
        ((∀ name, r ≠ .ok name) →
          (Same files s.files ∨ Published files (commitFile n) bytes s.files) ∧
          (fx.fails (k + 2) = false → Prepared bmi2 crc32 files sis s.files) ∧
          (fx.fails (k + 3) = false → Same files s.files) ∧
          (Prepared bmi2 crc32 files sis s.files ∨ pendingFile n ∉ s.files))) := by
  rw [finishPending, commitName_pending hn hgen, commitName_segments hn hgen]
  -- The rename takes effect, or the file is still pending.
  refine triple_bind (Q := fun s r => s.calls = k + 1 ∧
    (r = .ok () → checkWritableGenerations sis = .ok () ∧
      Published files (commitFile n) bytes s.files ∧ pendingFile n ∉ s.files) ∧
    (r ≠ .ok () → Prepared bmi2 crc32 files sis s.files)) ?_ ?_
  · refine dirCall_triple (fun s h => .inl h.2.same) (fun s h _ => ?_) (fun s f h hf => ?_)
      (fun s e h he => ?_)
    · exact ⟨by rw [h.1], fun hok => (by cases hok), fun _ => h.2⟩
    · obtain ⟨bytes', hbytes', hlook, hpub, hgone⟩ := h.2.publish hn hgen
      obtain rfl : bytes' = bytes := by
        rw [hbytes] at hbytes'
        exact (Outcome.ok.inj hbytes').symm
      rw [hlook] at hf
      cases hf
      exact ⟨by rw [h.1], fun _ => ⟨h.2.writable, hpub, hgone⟩, fun hne => absurd rfl hne⟩
    · exact ⟨by rw [h.1], fun hok => (by cases hok), fun _ => h.2⟩
  rintro (e | ⟨⟩)
  · refine triple_pure fun s h => ⟨fun name hname => (by cases hname), fun _ => ?_⟩
    have hprep := h.2.2 (by simp)
    exact ⟨.inl hprep.same, fun _ => hprep, fun _ => hprep.same, .inl hprep⟩
  -- The commit is there, and the directory is synced.
  refine triple_bind (Q := fun s r => s.calls = k + 2 ∧ checkWritableGenerations sis = .ok () ∧
    Published files (commitFile n) bytes s.files ∧ pendingFile n ∉ s.files) ?_ ?_
  · refine dirCall_triple (fun s h => .inr (h.2.1 rfl).2.1) (fun s h _ => ?_) (fun s f h hf => ?_)
      (fun s e h he => ?_)
    · exact ⟨by rw [h.1], h.2.1 rfl⟩
    · cases hf
      exact ⟨by rw [h.1], h.2.1 rfl⟩
    · cases he
  rintro (e | ⟨⟩)
  case ok =>
    refine triple_pure fun s h => ⟨fun _ _ => h.2.2.1, fun hne => ?_⟩
    exact absurd rfl (hne (commitFile n))
  -- The way back: the rename, and if that fails the delete.
  refine triple_bind (Q := fun s r => s.calls = k + 3 ∧
    (r = .ok () → Prepared bmi2 crc32 files sis s.files) ∧
    (r ≠ .ok () → fx.fails (k + 2) = true ∧ Published files (commitFile n) bytes s.files ∧
      pendingFile n ∉ s.files)) ?_ ?_
  · refine dirCall_triple (fun s h => .inr h.2.2.1) (fun s h hfail => ?_) (fun s f h hf => ?_)
      (fun s e h he => ?_)
    · exact ⟨by rw [h.1], fun hok => (by cases hok), fun _ => ⟨h.1 ▸ hfail, h.2.2⟩⟩
    · rw [h.2.2.1.file] at hf
      cases hf
      exact ⟨by rw [h.1], fun _ => h.2.2.1.unpublish hnew hn hgen h.2.1 hbytes,
        fun hne => absurd rfl hne⟩
    · rw [h.2.2.1.file] at he
      cases he
  rintro (e' | ⟨⟩)
  case ok =>
    refine triple_pure fun s h => ⟨fun name hname => (by cases hname), fun _ => ?_⟩
    have hprep := h.2.1 rfl
    exact ⟨.inl hprep.same, fun _ => hprep, fun _ => hprep.same, .inl hprep⟩
  refine triple_bind (Q := fun s r => fx.fails (k + 2) = true ∧
    (Same files s.files ∨ Published files (commitFile n) bytes s.files) ∧
    (fx.fails (k + 3) = false → Same files s.files) ∧ pendingFile n ∉ s.files) ?_ ?_
  · refine dirCall_triple (fun s h => .inr (h.2.2 (by simp)).2.1) (fun s h hfail => ?_)
      (fun s f h hf => ?_) (fun s e h he => ?_)
    · obtain ⟨hf2, hpub, hgone⟩ := h.2.2 (by simp)
      rw [h.1] at hfail
      exact ⟨hf2, .inr hpub, fun hf3 => absurd hfail (by rw [hf3]; decide), hgone⟩
    · obtain ⟨hf2, hpub, hgone⟩ := h.2.2 (by simp)
      split at hf
      · cases hf
        have hsame := hpub.erase hnew
        exact ⟨hf2, .inl hsame, fun _ => hsame, fun hmem => hgone (AList.mem_erase.mp hmem).2⟩
      · cases hf
    · obtain ⟨-, hpub, -⟩ := h.2.2 (by simp)
      have hmem : commitFile n ∈ s.files :=
        AList.lookup_isSome.mp (by rw [hpub.file]; rfl)
      rw [if_pos hmem] at he
      cases he
  rintro r
  refine triple_pure fun s h => ⟨fun name hname => (by cases hname), fun _ => ?_⟩
  refine ⟨h.2.1, fun hf2 => ?_, h.2.2.1, .inr h.2.2.2⟩
  rw [h.1] at hf2
  cases hf2

/-- A retry with no fault in its way goes through. -/
theorem finishPending_retry (hn : 0 < n) (hgen : sis.generation = n) {s : DirState}
    (hprep : Prepared bmi2 crc32 files sis s.files)
    (hcalls : ∀ i < 2, fx.crash (s.calls + i) = false ∧ fx.fails (s.calls + i) = false) :
    ∃ t, finishPending fx sis s = .returned t (.ok (commitFile n)) := by
  obtain ⟨bytes, -, hlook, -⟩ := hprep.publish hn hgen
  obtain ⟨hcrash0, hfails0⟩ := hcalls 0 (by omega)
  obtain ⟨hcrash1, hfails1⟩ := hcalls 1 (by omega)
  rw [Nat.add_zero] at hcrash0 hfails0
  refine ⟨⟨(s.files.erase (pendingFile n)).insert (commitFile n) bytes, s.calls + 2⟩, ?_⟩
  have hrename : rename fx (pendingFile n) (commitFile n) s =
      .returned ⟨(s.files.erase (pendingFile n)).insert (commitFile n) bytes, s.calls + 1⟩
        (.ok ()) := by
    simp only [rename, dirCall, hcrash0, hfails0, Bool.false_eq_true, if_false, hlook]
  have hsync : syncMetaData fx
      ⟨(s.files.erase (pendingFile n)).insert (commitFile n) bytes, s.calls + 1⟩ =
      .returned ⟨(s.files.erase (pendingFile n)).insert (commitFile n) bytes, s.calls + 2⟩
        (.ok ()) := by
    simp only [syncMetaData, dirCall, hcrash1, hfails1, Bool.false_eq_true, if_false]
  rw [finishPending, commitName_pending hn hgen, commitName_segments hn hgen]
  exact (bind_returned hrename).trans (bind_returned hsync)

end phases

/-! ## A commit as a whole -/

section atomic

variable {bmi2 : Bool} {n : Nat}

/-- The file of the commit is there, under one of its two names. -/
def There (name : Int → Option String) (sis : SegmentInfos) (f : Files) : Prop :=
  ∃ file, name sis.generation = some file ∧ file ∈ f

/-- The states between the calls of a commit that `write_pending` has prepared, as
long as each `finish_pending` has failed. -/
inductive Waiting (bmi2 : Bool) (crc32 : List U8 → U32) (files : Files) (sis : SegmentInfos)
    (fx : Faults) : DirState → Prop
  | written {k : Nat} {s : DirState} {name : String}
      (h : writePending fx bmi2 crc32 sis ⟨files, k⟩ = .returned s (.ok name)) :
      Waiting bmi2 crc32 files sis fx s
  | failed {s t : DirState} {r : Outcome CommitError String}
      (hs : Waiting bmi2 crc32 files sis fx s) (h : finishPending fx sis s = .returned t r)
      (hr : ∀ name, r ≠ .ok name) : Waiting bmi2 crc32 files sis fx t

/-- What the two phases of the commit `sis` do over the directory `files`, of
which the latest commit is `old`: a reader sees `old` or exactly `sis`.  The calls
of `finish_pending` are the rename, the sync, the rename back and the delete, in
this order. -/
structure CommitsAtomically (bmi2 : Bool) (crc32 : List U8 → U32) (files : Files)
    (old sis : SegmentInfos) : Prop where
  write : ∀ fx k, (writePending fx bmi2 crc32 sis ⟨files, k⟩).Sat
    (fun s => readLatest crc32 s.files = .ok old)
    (fun s r => readLatest crc32 s.files = .ok old ∧
      ∀ name, r = .ok name → There Store.pendingSegmentsFileName sis s.files ∧
        ¬ There Store.segmentsFileName sis s.files)
  finish : ∀ fx s, Waiting bmi2 crc32 files sis fx s → (finishPending fx sis s).Sat
    (fun t => readLatest crc32 t.files = .ok old ∨ readLatest crc32 t.files = .ok sis.written)
    (fun t r =>
      (∀ name, r = .ok name → readLatest crc32 t.files = .ok sis.written) ∧
      ((∀ name, r ≠ .ok name) →
        (readLatest crc32 t.files = .ok old ∨ readLatest crc32 t.files = .ok sis.written) ∧
        (There Store.pendingSegmentsFileName sis s.files →
          fx.fails (s.calls + 2) = false ∨ fx.fails (s.calls + 3) = false →
          readLatest crc32 t.files = .ok old ∧ ¬ There Store.segmentsFileName sis t.files) ∧
        (There Store.pendingSegmentsFileName sis s.files → fx.fails (s.calls + 2) = false →
          There Store.pendingSegmentsFileName sis t.files)))
  retry : ∀ fx s, Waiting bmi2 crc32 files sis fx s →
    There Store.pendingSegmentsFileName sis s.files →
    (∀ i < 2, fx.crash (s.calls + i) = false ∧ fx.fails (s.calls + i) = false) →
    ∃ t name, finishPending fx sis s = .returned t (.ok name) ∧
      readLatest crc32 t.files = .ok sis.written
  rollback : ∀ fx s, Waiting bmi2 crc32 files sis fx s →
    ¬ There Store.segmentsFileName sis s.files → (rollbackPending fx sis s).Sat
      (fun t => readLatest crc32 t.files = .ok old) (fun t _ => readLatest crc32 t.files = .ok old)

/-- A newer generation than the latest has no file yet. -/
theorem newer_commit_absent (hold : readLatest crc32 files = .ok old)
    (hlt : old.generation < n) (hmax : (n : Int) ≤ maxGeneration) :
    files.lookup (commitFile n) = none := by
  obtain ⟨g, name, bytes, hg, -, -, hparse⟩ := readLatest_eq_ok.mp hold
  have hgn : g < n := parse_generation hparse ▸ hlt
  refine Option.not_isSome_iff_eq_none.mp fun hsome => ?_
  obtain ⟨k, hk, hkg⟩ := hg.2.1 _ (mem_listAll.mpr hsome) commitFile_candidate
  have hgen := Store.generationFromSegmentsFileName_segmentsFileName (n := n)
    (by rw [maxGeneration] at hmax; omega)
  rw [commitFile, hgen, Outcome.ok.injEq] at hk
  omega

theorem there_pending (hn : 0 < n) (hgen : sis.generation = n) :
    There Store.pendingSegmentsFileName sis f ↔ pendingFile n ∈ f := by
  have hname := okOr_eq_ok (commitName_pending hn hgen)
  constructor
  · rintro ⟨file, hfile, hmem⟩
    rw [hname] at hfile
    exact Option.some.inj hfile ▸ hmem
  · exact fun hmem => ⟨_, hname, hmem⟩

theorem there_segments (hn : 0 < n) (hgen : sis.generation = n) :
    There Store.segmentsFileName sis f ↔ commitFile n ∈ f := by
  have hname := okOr_eq_ok (commitName_segments hn hgen)
  constructor
  · rintro ⟨file, hfile, hmem⟩
    rw [hname] at hfile
    exact Option.some.inj hfile ▸ hmem
  · exact fun hmem => ⟨_, hname, hmem⟩

/-- What the calls of a commit can leave behind. -/
inductive Left (bmi2 : Bool) (crc32 : List U8 → U32) (files : Files) (sis : SegmentInfos)
    (n : Nat) (bytes : List U8) (f : Files) : Prop
  | prepared (h : Prepared bmi2 crc32 files sis f)
  | deleted (hgone : pendingFile n ∉ f) (h : Same files f)
  | stranded (hgone : pendingFile n ∉ f) (h : Published files (commitFile n) bytes f)

theorem Prepared.mem (h : Prepared bmi2 crc32 files sis f) (hn : 0 < n)
    (hgen : sis.generation = n) : pendingFile n ∈ f := by
  obtain ⟨bytes, -, hlook, -⟩ := h.publish hn hgen
  exact AList.lookup_isSome.mp (by rw [hlook]; rfl)

/-- Without the pending file the second phase does nothing. -/
theorem finishPending_gone (hn : 0 < n) (hgen : sis.generation = n) (fx : Faults)
    (hgone : pendingFile n ∉ f) :
    Triple (fun s => s.files = f) (finishPending fx sis) (fun t => t.files = f)
      (fun t r => t.files = f ∧ ∀ name, r ≠ .ok name) := by
  rw [finishPending, commitName_pending hn hgen, commitName_segments hn hgen]
  refine triple_bind (Q := fun t r => t.files = f ∧ r ≠ .ok ()) ?_ ?_
  · refine dirCall_triple (fun s h => h) (fun s h _ => ⟨h, by simp⟩) (fun s f' h hf => ?_)
      (fun s e h _ => ⟨h, by simp⟩)
    rw [h, AList.lookup_eq_none.mpr hgone] at hf
    cases hf
  rintro (e | ⟨⟩)
  · exact triple_pure fun s h => ⟨h.1, by simp⟩
  · exact fun s h => absurd rfl h.2

/-- The states between the calls. -/
theorem Waiting.left (hn : 0 < n) (hgen : sis.generation = n)
    (hnew : files.lookup (commitFile n) = none) {bytes : List U8}
    (hbytes : toBytes bmi2 crc32 sis = .ok bytes) {fx : Faults} {s : DirState}
    (h : Waiting bmi2 crc32 files sis fx s) : Left bmi2 crc32 files sis n bytes s.files := by
  induction h with
  | written h => exact .prepared (prepared_of_writePending hn hgen h)
  | @failed s t r hs h hr ih =>
    rcases ih with hprep | ⟨hgone, hsame⟩ | ⟨hgone, hpub⟩
    · have hrun := finishPending_triple fx hn hgen hnew hbytes s.calls s ⟨rfl, hprep⟩
      rw [h] at hrun
      obtain ⟨hor, -, -, hprep' | hgone⟩ := hrun.2 hr
      · exact .prepared hprep'
      · exact hor.elim (.deleted hgone) (.stranded hgone)
    all_goals
      have hrun := finishPending_gone hn hgen fx hgone s rfl
      rw [h] at hrun
      rw [hrun.1]
    · exact .deleted hgone hsame
    · exact .stranded hgone hpub

theorem Same.not_mem (h : Same files f) (hnew : files.lookup (commitFile n) = none) :
    commitFile n ∉ f := by
  rw [← AList.lookup_eq_none, h _ commitFile_candidate, hnew]

theorem Published.rollback {bytes : List U8} (hn : 0 < n) (hgen : sis.generation = n)
    (fx : Faults) :
    Triple (fun s => Published files (commitFile n) bytes s.files) (rollbackPending fx sis)
      (fun s => Published files (commitFile n) bytes s.files)
      (fun s _ => Published files (commitFile n) bytes s.files) := by
  have hpend := okOr_eq_ok (commitName_pending hn hgen)
  have herase : ∀ f, Published files (commitFile n) bytes f →
      Published files (commitFile n) bytes (f.erase (pendingFile n)) := by
    refine fun f h => ⟨?_, fun name hc hne => ?_⟩
    · rw [AList.lookup_erase_ne pendingFile_ne_commitFile.symm, h.file]
    · have hne' : name ≠ pendingFile n := by
        rintro rfl
        rw [pendingFile_not_candidate] at hc
        cases hc
      rw [AList.lookup_erase_ne hne', h.others name hc hne]
  rw [rollbackPending, hpend]
  refine triple_bind (Q := fun s _ => Published files (commitFile n) bytes s.files) ?_
    fun _ => triple_pure fun s hs => hs
  refine dirCall_triple (fun _ h => h) (fun _ h _ => h) (fun s f h hf => ?_) (fun _ _ h _ => h)
  split at hf
  · cases hf
    exact herase _ h
  · cases hf

/-- `write_pending` does not refuse the commit, and the counter is one that
`write_vlong` takes. -/
def Writable (sis : SegmentInfos) : Prop :=
  checkWritableGenerations sis = .ok () ∧ 0 ≤ sis.counter.toInt

theorem counter_nonneg {bytes : List U8} (h : toBytes bmi2 crc32 sis = .ok bytes) :
    0 ≤ sis.counter.toInt := by
  by_contra hneg
  simp only [toBytes, bind_eq_ok] at h
  obtain ⟨_, -, _, hvlong, -⟩ := h
  rw [Store.writeVlong, Outcome.guardOk, if_neg hneg] at hvlong
  cases hvlong

theorem Waiting.writable (hn : 0 < n) (hgen : sis.generation = n) {fx : Faults} {s : DirState}
    (h : Waiting bmi2 crc32 files sis fx s) : Writable sis := by
  induction h with
  | written h =>
    have hprep := prepared_of_writePending hn hgen h
    obtain ⟨bytes, hbytes, -⟩ := hprep.pending
    exact ⟨hprep.writable, counter_nonneg hbytes⟩
  | failed _ _ _ ih => exact ih

theorem generation_le (h : checkWritableGenerations sis = .ok ()) :
    sis.generation ≤ maxGeneration := by
  obtain ⟨_, hg, -⟩ := Outcome.bind_eq_ok.mp h
  exact (checkGeneration_inRange hg).2

/-- What a reader sees of the states between the calls, if the commit reads back. -/
theorem Waiting.reads (hn : 0 < n) (hgen : sis.generation = n)
    (hold : readLatest crc32 files = .ok old) (hlt : old.generation < n)
    (hvalid : Writable sis → sis.written.Valid) {fx : Faults} {s : DirState}
    (h : Waiting bmi2 crc32 files sis fx s) :
    ∃ bytes, toBytes bmi2 crc32 sis = .ok bytes ∧ files.lookup (commitFile n) = none ∧
      Left bmi2 crc32 files sis n bytes s.files ∧
      ∀ f, Published files (commitFile n) bytes f → readLatest crc32 f = .ok sis.written := by
  have hw := h.writable hn hgen
  have hmax : (n : Int) ≤ maxGeneration := hgen ▸ generation_le hw.1
  have hnew := newer_commit_absent hold hlt hmax
  obtain ⟨bytes, hbytes, hparse⟩ := parse_toBytes bmi2 crc32 (hvalid hw)
  refine ⟨bytes, hbytes, hnew, h.left hn hgen hnew hbytes, fun f hpub => ?_⟩
  rw [readLatest_published hmax hold hlt hpub, ← hgen, hparse]
  rfl

/-- A commit that reads back is atomic. -/
theorem commitsAtomically_of_valid (hn : 0 < n) (hgen : sis.generation = n)
    (hold : readLatest crc32 files = .ok old) (hlt : old.generation < n)
    (hvalid : Writable sis → sis.written.Valid) :
    CommitsAtomically bmi2 crc32 files old sis := by
  have hsame : ∀ f, Same files f → readLatest crc32 f = .ok old := fun f h => readLatest_same h hold
  refine ⟨fun fx k => ?_, fun fx s h => ?_, fun fx s h hthere hcalls => ?_, fun fx s h hthere => ?_⟩
  · refine triple_conseq (writePending_triple hn hgen) (fun t h => h) (fun t h => hsame _ h) ?_
      ⟨files, k⟩ (fun _ _ => rfl)
    refine fun t r h => ⟨hsame _ h.1, fun name hname => ?_⟩
    have hprep := h.2 name hname
    have hmax : (n : Int) ≤ maxGeneration := hgen ▸ generation_le hprep.writable
    rw [there_pending hn hgen, there_segments hn hgen]
    exact ⟨hprep.mem hn hgen, hprep.same.not_mem (newer_commit_absent hold hlt hmax)⟩
  · obtain ⟨bytes, hbytes, hnew, hleft, hread⟩ := h.reads hn hgen hold hlt hvalid
    have hpend := fun f : Files => there_pending (f := f) hn hgen
    have hsegs := fun f : Files => there_segments (f := f) hn hgen
    simp only [hpend, hsegs]
    rcases hleft with hprep | ⟨hgone, hleft⟩ | ⟨hgone, hleft⟩
    · refine triple_conseq (finishPending_triple _ hn hgen hnew hbytes s.calls) (fun t h => h)
        (fun t h => h.imp (hsame _) (hread _)) ?_ s ⟨rfl, hprep⟩
      rintro t r ⟨hok, herr⟩
      refine ⟨fun name hname => hread _ (hok name hname), fun hne => ?_⟩
      obtain ⟨hor, hback, hdelete, -⟩ := herr hne
      refine ⟨hor.imp (hsame _) (hread _), fun _ hf => ?_, fun _ hf => (hback hf).mem hn hgen⟩
      have hs : Same files t.files := hf.elim (fun hf => (hback hf).same) hdelete
      exact ⟨hsame _ hs, hs.not_mem hnew⟩
    all_goals
      refine triple_conseq (finishPending_gone hn hgen fx hgone) (fun t h => h) ?_ ?_ s rfl
    · exact fun t ht => .inl (ht ▸ hsame _ hleft)
    · exact fun t r ht => ⟨fun name hname => absurd hname (ht.2 name), fun _ =>
        ⟨.inl (ht.1 ▸ hsame _ hleft), fun hmem => absurd hmem hgone, fun hmem => absurd hmem hgone⟩⟩
    · exact fun t ht => .inr (ht ▸ hread _ hleft)
    · exact fun t r ht => ⟨fun name hname => absurd hname (ht.2 name), fun _ =>
        ⟨.inr (ht.1 ▸ hread _ hleft), fun hmem => absurd hmem hgone, fun hmem => absurd hmem hgone⟩⟩
  · obtain ⟨bytes, hbytes, hnew, hleft, hread⟩ := h.reads hn hgen hold hlt hvalid
    rw [there_pending hn hgen] at hthere
    rcases hleft with hprep | ⟨hgone, -⟩ | ⟨hgone, -⟩
    · obtain ⟨t, ht⟩ := finishPending_retry hn hgen hprep hcalls
      have hrun := finishPending_triple fx hn hgen hnew hbytes s.calls s ⟨rfl, hprep⟩
      rw [ht] at hrun
      exact ⟨t, commitFile n, ht, hread _ (hrun.1 _ rfl)⟩
    · exact absurd hthere hgone
    · exact absurd hthere hgone
  · obtain ⟨bytes, hbytes, hnew, hleft, -⟩ := h.reads hn hgen hold hlt hvalid
    rw [there_segments hn hgen] at hthere
    have hs : Same files s.files := by
      rcases hleft with hprep | ⟨-, hs⟩ | ⟨-, hpub⟩
      · exact hprep.same
      · exact hs
      · exact absurd (AList.lookup_isSome.mp (by rw [hpub.file]; rfl)) hthere
    exact triple_conseq (rollbackPending_triple hn hgen) (fun t h => h) (fun t h => hsame _ h)
      (fun t _ h => hsame _ h) s hs

/-- The first phase with no fault in its way. -/
theorem writePending_clear (hn : 0 < n) (hgen : sis.generation = n) {s : DirState}
    {bytes : List U8} {fx : Faults} (hcheck : checkWritableGenerations sis = .ok ())
    (hbytes : toBytes bmi2 crc32 sis = .ok bytes)
    (hcalls : ∀ i, fx.crash i = false ∧ fx.fails i = false) :
    ∃ t, writePending fx bmi2 crc32 sis s = .returned t (.ok (pendingFile n)) := by
  have hcall : ∀ failed effect (t : DirState) f, effect t.files = .ok f →
      dirCall fx failed effect t = .returned ⟨f, t.calls + 1⟩ (.ok ()) := by
    intro failed effect t f hf
    simp only [dirCall, (hcalls t.calls).1, (hcalls t.calls).2, Bool.false_eq_true, if_false, hf]
  let created := s.files.insert (pendingFile n) []
  have hmem : pendingFile n ∈ created.insert (pendingFile n) bytes :=
    (AList.mem_insert _).mpr (.inl rfl)
  have hmeta : syncMetaData fx s = .returned ⟨s.files, s.calls + 1⟩ (.ok ()) :=
    hcall _ _ s s.files rfl
  have hcreate : createOutput fx (pendingFile n) ⟨s.files, s.calls + 1⟩ =
      .returned ⟨created, s.calls + 2⟩ (.ok ()) := hcall _ _ _ created rfl
  have hclose : closeOutput fx (pendingFile n) bytes ⟨created, s.calls + 2⟩ =
      .returned ⟨created.insert (pendingFile n) bytes, s.calls + 3⟩ (.ok ()) :=
    hcall _ _ _ _ rfl
  have hsync : syncFile fx (pendingFile n)
      ⟨created.insert (pendingFile n) bytes, s.calls + 3⟩ =
      .returned ⟨created.insert (pendingFile n) bytes, s.calls + 4⟩ (.ok ()) :=
    hcall _ _ _ _ (if_pos hmem)
  rw [writePending, hcheck, commitName_pending hn hgen, hbytes]
  refine ⟨⟨created.insert (pendingFile n) bytes, s.calls + 4⟩, ?_⟩
  refine (bind_returned hmeta).trans ((bind_returned hcreate).trans ?_)
  exact (bind_returned hclose).trans (bind_returned hsync)

/-! Two commits of an empty index -/

/-- Every call goes through. -/
def noFaults : Faults := ⟨fun _ => false, fun _ => false, fun _ => 0⟩

/-- The commit of an empty index. -/
def emptyCommit (generation : Int) (created : U32) : SegmentInfos :=
  { id := ⟨List.replicate 16 0, rfl⟩
    generation := generation
    formatVersion := versionCurrent
    luceneVersion := ⟨10#32, 0#32, 0#32⟩
    indexCreatedVersionMajor := created
    version := 1#64
    counter := 0#64
    minSegmentLuceneVersion := none
    segments := []
    userData := [] }

theorem emptyCommit_valid {g : Nat} (hg : (g : Int) ≤ maxGeneration) :
    (emptyCommit g 10#32).Valid where
  generation := ⟨Int.natCast_nonneg g, hg⟩
  luceneVersion := ⟨by simp [emptyCommit], by simp [emptyCommit], by simp [emptyCommit]⟩
  created := by simp [emptyCommit]
  version := by simp [emptyCommit, InRange, maxGeneration]
  counter := by simp [emptyCommit, maxGeneration]
  minVersion := by simp [emptyCommit]
  segmentCount := by simp [emptyCommit]
  segments := by simp [emptyCommit]
  userDataCount := by simp [emptyCommit]
  userData := by simp [emptyCommit]

/-- A directory with one commit in it. -/
theorem readLatest_one {bytes : List U8} (hn : 0 < n) (hmax : (n : Int) ≤ maxGeneration)
    (hparse : parse crc32 bytes n = .ok old) :
    readLatest crc32 ((∅ : Files).insert (commitFile n) bytes) = .ok old := by
  have hgen := Store.generationFromSegmentsFileName_segmentsFileName (n := n)
    (by rw [maxGeneration] at hmax; omega)
  have hmem : ∀ file, file ∈ listAll ((∅ : Files).insert (commitFile n) bytes) ↔
      file = commitFile n := by
    intro file
    rw [mem_listAll, AList.lookup_isSome, AList.mem_insert, or_iff_left (AList.notMem_empty file)]
  refine readLatest_eq_ok.mpr ⟨n, commitFile n, bytes, ⟨by omega, fun file hf _ => ?_,
    .inr ⟨commitFile n, (hmem _).mpr rfl, commitFile_candidate, hgen⟩⟩,
    Store.segmentsFileName_of_pos hn, AList.lookup_insert _, hparse⟩
  exact ⟨n, (hmem file).mp hf ▸ hgen, le_rfl⟩

/-- A commit that is atomic reads back. -/
theorem CommitsAtomically.valid (h : CommitsAtomically bmi2 crc32 files old sis) (hn : 0 < n)
    (hgen : sis.generation = n) (hw : Writable sis) : sis.written.Valid := by
  have hclear : ∀ i, noFaults.crash i = false ∧ noFaults.fails i = false := fun _ => ⟨rfl, rfl⟩
  obtain ⟨s, hs⟩ := writePending_clear (s := ⟨files, 0⟩) hn hgen hw.1
    (toBytes_eq bmi2 crc32 (by omega) hw.2) hclear
  have hwrite := h.write noFaults 0
  rw [hs] at hwrite
  obtain ⟨t, name, -, hread⟩ := h.retry noFaults s (.written hs) (hwrite.2 _ rfl).1
    fun i _ => hclear (s.calls + i)
  obtain ⟨_, _, _, -, -, -, hparse⟩ := readLatest_eq_ok.mp hread
  refine parse_valid hparse ?_ hw.2
  change 0 ≤ sis.generation
  omega

/-- `rollback_pending` leaves a commit file that is there. -/
theorem rollbackPending_stranded (hn : 0 < n) (hgen : sis.generation = n)
    (hold : readLatest crc32 files = .ok old) (hlt : old.generation < n) {fx : Faults}
    {s : DirState} (h : Waiting bmi2 crc32 files sis fx s)
    (hthere : There Store.segmentsFileName sis s.files) :
    (rollbackPending fx sis s).Sat (fun t => readLatest crc32 t.files ≠ .ok old)
      (fun t _ => readLatest crc32 t.files ≠ .ok old) := by
  have hw := h.writable hn hgen
  have hmax : (n : Int) ≤ maxGeneration := hgen ▸ generation_le hw.1
  have hnew := newer_commit_absent hold hlt hmax
  have hbytes : toBytes bmi2 crc32 sis = _ := toBytes_eq bmi2 crc32 (by omega) hw.2
  have hread : ∀ {bytes} f, Published files (commitFile n) bytes f →
      readLatest crc32 f ≠ .ok old := by
    intro bytes f hpub hf
    rw [readLatest_published hmax hold hlt hpub] at hf
    have := parse_generation (ofInfos_eq_ok hf)
    omega
  rw [there_segments hn hgen] at hthere
  rcases h.left hn hgen hnew hbytes with hprep | ⟨-, hs⟩ | ⟨-, hpub⟩
  · exact absurd hthere (hprep.same.not_mem hnew)
  · exact absurd hthere (hs.not_mem hnew)
  · exact triple_conseq (Published.rollback hn hgen fx) (fun t h => h) (fun t h => hread _ h)
      (fun t _ h => hread _ h) s hpub

/-- The two phases of a commit, through every fault: they are atomic exactly if
what `write_pending` lets pass reads back, and a rollback does not take back a commit
file that both undo calls have failed to remove. -/
theorem commit_atomic (bmi2 : Bool) (crc32 : List U8 → U32) (files : Files)
    (old sis : SegmentInfos) (hold : readLatest crc32 files = .ok old)
    (hlt : old.generation < sis.generation) :
    (CommitsAtomically bmi2 crc32 files old sis ↔ (Writable sis → sis.written.Valid)) ∧
      ∀ fx s, Waiting bmi2 crc32 files sis fx s → There Store.segmentsFileName sis s.files →
        (rollbackPending fx sis s).Sat (fun t => readLatest crc32 t.files ≠ .ok old)
          (fun t _ => readLatest crc32 t.files ≠ .ok old) := by
  have hold0 := generation_nonneg hold
  obtain ⟨n, hgen⟩ := Int.eq_ofNat_of_zero_le (show 0 ≤ sis.generation by omega)
  have hn : 0 < n := by omega
  have hlt' : old.generation < n := hgen ▸ hlt
  exact ⟨⟨fun h hw => h.valid hn hgen hw, commitsAtomically_of_valid hn hgen hold hlt'⟩,
    fun fx s h hthere => rollbackPending_stranded hn hgen hold hlt' h hthere⟩

/-- The second commit of an index. -/
theorem commit_atomic_second :
    ∃ files, readLatest Store.crc32Hash files = .ok (emptyCommit 1 10#32) ∧
      CommitsAtomically true Store.crc32Hash files (emptyCommit 1 10#32) (emptyCommit 2 10#32) := by
  obtain ⟨bytes, -, hparse⟩ := @parse_toBytes true Store.crc32Hash (emptyCommit 1 10#32)
    (emptyCommit_valid (g := 1) (by decide))
  have hread : readLatest Store.crc32Hash ((∅ : Files).insert (commitFile 1) bytes) =
      .ok (emptyCommit 1 10#32) := readLatest_one (by decide) (by decide) hparse
  exact ⟨_, hread, (commit_atomic true Store.crc32Hash _ _ (emptyCommit 2 10#32) hread
    (by decide)).1.mpr fun _ => emptyCommit_valid (g := 2) (by decide)⟩

/-- An index whose version is ahead of the writer's: the commit goes through
without a fault, and `read_latest` fails on it. -/
theorem finishPending_publishes_unreadable :
    ∃ files s t pending name,
      readLatest Store.crc32Hash files = .ok (emptyCommit 1 10#32) ∧
      writePending noFaults true Store.crc32Hash (emptyCommit 2 11#32) ⟨files, 0⟩ =
        .returned s (.ok pending) ∧
      finishPending noFaults (emptyCommit 2 11#32) s = .returned t (.ok name) ∧
      readLatest Store.crc32Hash t.files =
        .err (.infos (.createdVersionAheadOfWriter 11 10 0 0)) := by
  obtain ⟨bytes, -, hparse⟩ := @parse_toBytes true Store.crc32Hash (emptyCommit 1 10#32)
    (emptyCommit_valid (g := 1) (by decide))
  have hread : readLatest Store.crc32Hash ((∅ : Files).insert (commitFile 1) bytes) =
      .ok (emptyCommit 1 10#32) := readLatest_one (by decide) (by decide) hparse
  obtain ⟨bytes', hbytes', hparse'⟩ := parse_toBytes_ahead true Store.crc32Hash
    (show 0 ≤ (emptyCommit 2 11#32).generation ∧ _ by decide)
    ⟨by decide, by decide, by decide⟩ (by decide) (by decide)
  have hclear : ∀ i, noFaults.crash i = false ∧ noFaults.fails i = false := fun _ => ⟨rfl, rfl⟩
  obtain ⟨s, hs⟩ := writePending_clear (n := 2) (s := ⟨(∅ : Files).insert (commitFile 1) bytes, 0⟩)
    (by decide) rfl rfl hbytes' hclear
  have hprep := prepared_of_writePending (n := 2) (by decide) rfl hs
  obtain ⟨t, ht⟩ := finishPending_retry (n := 2) (by decide) rfl hprep
    (fun i _ => hclear (s.calls + i))
  have hnew := newer_commit_absent (n := 2) hread (by decide) (by decide)
  have hrun := finishPending_triple (n := 2) noFaults (by decide) rfl hnew hbytes' s.calls s
    ⟨rfl, hprep⟩
  rw [ht] at hrun
  refine ⟨_, s, t, _, _, hread, hs, ht, ?_⟩
  rw [readLatest_published (n := 2) (by decide) hread (by decide) (hrun.1 _ rfl)]
  exact congrArg ofInfos hparse'

end atomic

end LuceneRust.Index
