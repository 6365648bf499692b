import LuceneRust.Store.FsCoreSpec

/-!
# Pending deletes against an ideal directory

The ideal directory has no pending deletes: `IdealStep` is one call on it.

* `call_ideal_iff` says of each call from each state when it is the ideal
  one.
* `run_ideal` carries this to runs.
-/

namespace LuceneRust.Store

open RustSem

/-! ## The ideal directory -/

/-- A call on a directory whose deletes succeed at once: what it may return,
and the files after it.  A temporary file has some name that is not in use.
A call that fails changes nothing. -/
def IdealStep (d : Dir) (c : DirCall) (r : Except IoError Answer) (d' : Dir) : Prop :=
  ((∃ e, r = .error e) → d' = d) ∧
  match c with
  | .createOutput name bytes =>
    if d name = none then
      r = .ok (.file name) ∧ d' = Function.update d name (some bytes)
    else ∃ e, r = .error e
  | .createTempOutput pre suf bytes =>
    ∃ counter, d (tempFileName pre suf counter) = none ∧
      r = .ok (.file (tempFileName pre suf counter)) ∧
      d' = Function.update d (tempFileName pre suf counter) (some bytes)
  | .rename source dest =>
    match d source with
    | none => ∃ e, r = .error e
    | some bytes =>
      r = .ok .done ∧
        d' = Function.update (Function.update d source none) dest (some bytes)
  | .deleteFile name => d' = Function.update d name none
  | .listAll =>
    d' = d ∧ ∃ l : List String, r = .ok (.names l) ∧ l.Pairwise (· < ·) ∧
      ∀ name, name ∈ l ↔ d name ≠ none
  | .sync _ | .syncMetaData | .pendingDeletions => d' = d

/-- When a call from the state `s` does what the ideal call does.

A call that makes a file of the name `name` has to meet no file that is gone
in the retry that it starts with, and where `name` is still pending then, its
delete has to go through at last.  A call of `rename` whose source is there
may also move it over a file that cannot be deleted.  A delete of a file that
is in sight must not run into a file that is gone in the retry that ends it. -/
def Meets (env : Env) (s : FsCore) : DirCall → Prop
  | .createOutput name _ =>
    s.visible name ≠ none ∨
      s.RoundClean env ∧ (s.StillParked env name →
        if env.refused s.nextRemove then name ∉ s.files
        else env.windows = true ∨ name ∈ s.files)
  | .createTempOutput _ _ _ => s.RoundClean env
  | .rename source dest =>
    if s.visible source = none then
      ¬ (source ∉ s.pendingDeletes ∧ s.RoundClean env ∧ s.StillParked env dest ∧
        env.refused s.nextRemove = true ∧ dest ∈ s.files)
    else
      s.RoundClean env ∧ (s.StillParked env dest →
        env.refused s.nextRemove = true ∨ env.windows = true ∨ dest ∈ s.files)
  | .deleteFile name =>
    s.visible name ≠ none → (s.privateDeleteFile env name false).1.RoundClean env
  | .sync _ | .syncMetaData | .pendingDeletions | .listAll => True

instance {env : Env} {s : FsCore} (c : DirCall) : Decidable (Meets env s c) :=
  match c with
  | .createOutput _ _ => by dsimp only [Meets]; infer_instance
  | .rename _ _ => by dsimp only [Meets]; infer_instance
  | .deleteFile _ => by dsimp only [Meets]; infer_instance
  | .createTempOutput _ _ _ => inferInstanceAs (Decidable (s.RoundClean env))
  | .sync _ | .syncMetaData | .pendingDeletions | .listAll =>
    inferInstanceAs (Decidable True)

namespace FsCore

variable {env : Env} {s t : FsCore} {name : String}

/-! ## New files -/

theorem createNew_of_mem (bytes : List U8) (h : name ∈ s.files) :
    s.createNew name bytes = (s, .error osAlreadyExists) := if_pos h

theorem createNew_of_not_mem (bytes : List U8) (h : name ∉ s.files) :
    s.createNew name bytes =
      ({ s with files := s.files.insert name bytes }, .ok name) := if_neg h

theorem visible_insert (bytes : List U8) (h : name ∉ s.pendingDeletes) :
    visible { s with files := s.files.insert name bytes } =
      Function.update s.visible name (some bytes) := by
  funext n
  by_cases hn : n = name
  · subst hn
    rw [Function.update_self]
    set t : FsCore := { s with files := s.files.insert n bytes }
    have ht : n ∉ t.pendingDeletes := h
    rw [visible_of_not_pending ht]
    exact AList.lookup_insert s.files
  · rw [Function.update_of_ne hn]
    exact visible_congr Iff.rfl (AList.lookup_insert_ne hn)

/-- What `create_output` comes to, by the retry at its start. -/
theorem createOutput_of_round_error {e : IoError} {bytes : List U8}
    (h : (s.maybeDeletePendingFiles env).2 = .error e) :
    s.createOutput env name bytes = ((s.maybeDeletePendingFiles env).1, .error e) := by
  rw [createOutput]
  split <;> simp_all

theorem createOutput_of_revive_error {e : IoError} {bytes : List U8}
    (h : (s.maybeDeletePendingFiles env).2 = .ok ())
    (hr : ((s.maybeDeletePendingFiles env).1.revive env name).2 = .error e) :
    s.createOutput env name bytes =
      (((s.maybeDeletePendingFiles env).1.revive env name).1, .error e) := by
  rw [createOutput]
  split
  · simp_all
  · split <;> simp_all

theorem createOutput_of_ok {bytes : List U8}
    (h : (s.maybeDeletePendingFiles env).2 = .ok ())
    (hr : ((s.maybeDeletePendingFiles env).1.revive env name).2 = .ok ()) :
    s.createOutput env name bytes =
      ((s.maybeDeletePendingFiles env).1.revive env name).1.createNew name bytes := by
  rw [createOutput]
  split
  · simp_all
  · split <;> simp_all

theorem error_of_ne_ok {r : Except IoError Unit} (h : r ≠ .ok ()) : ∃ e, r = .error e := by
  cases r with
  | ok u => exact absurd rfl h
  | error e => exact ⟨e, rfl⟩

theorem createOutput_ideal_iff (bytes : List U8) :
    IdealStep s.visible (.createOutput name bytes)
        ((s.createOutput env name bytes).2.map .file)
        (s.createOutput env name bytes).1.visible ↔
      Meets env s (.createOutput name bytes) := by
  obtain ⟨hv, hok, hparked⟩ := maybeDeletePendingFiles_spec env s
  simp only [IdealStep, Meets]
  by_cases hclean : s.RoundClean env
  case neg =>
    -- The retry at the start fails.
    obtain ⟨e, he⟩ := error_of_ne_ok (hok.not.mpr hclean)
    rw [createOutput_of_round_error he]
    by_cases hd : s.visible name = none
    · simp [hd, hclean, Except.map]
    · simp [hd, Except.map, hv]
  have hround := hok.mpr hclean
  obtain ⟨hcalls, hparked⟩ := hparked hround
  obtain ⟨hp, hpf⟩ := hparked name
  set t := (s.maybeDeletePendingFiles env).1 with ht
  by_cases hd : s.visible name = none
  case neg =>
    -- A file in sight is not pending, and the name is taken.
    obtain ⟨hnp, hmem⟩ := visible_ne_none.mp (hv ▸ hd : t.visible name ≠ none)
    have hrev : t.revive env name = (t, .ok ()) := by
      rw [revive, if_neg (isPending_iff.not.mpr hnp)]
    rw [createOutput_of_ok hround (by rw [← ht, hrev]), ← ht, hrev,
      createNew_of_mem bytes hmem]
    simp [hd, Except.map, hv]
  have hok' := revive_ok env t name
  have hmem := mem_files_revive env t name
  rw [hcalls, hp] at hok' hmem
  have hgone : ¬ s.StillParked env name → name ∉ t.files := by
    intro hns hm
    exact visible_ne_none.mpr ⟨hp.not.mpr hns, hm⟩ (hv ▸ hd)
  by_cases hrev : (t.revive env name).2 = .ok ()
  case neg =>
    obtain ⟨e, he⟩ := error_of_ne_ok hrev
    rw [createOutput_of_revive_error hround he]
    rw [hok'] at hrev
    push Not at hrev
    obtain ⟨hsp, hr, hm, hw⟩ := hrev
    rw [hpf hsp] at hm
    simp [hd, Except.map, hclean, hsp, hr, hm, hw]
  rw [createOutput_of_ok hround hrev]
  have hvis := visible_revive env t name
  by_cases hm : name ∈ (t.revive env name).1.files
  case pos =>
    -- The file that was deleted is in sight again, and the call fails.
    rw [createNew_of_mem bytes hm]
    obtain ⟨hmt, hr⟩ := hmem.mp hm
    have hsp : s.StillParked env name := not_not.mp fun h => hgone h hmt
    rw [hpf hsp] at hmt
    simp [hd, Except.map, hclean, hsp, hr hsp, hmt]
  case neg =>
    rw [createNew_of_not_mem bytes hm,
      visible_insert bytes (not_mem_pending_revive env t name), hvis, hv]
    have hmeets : s.StillParked env name →
        if env.refused s.nextRemove then name ∉ s.files
        else env.windows = true ∨ name ∈ s.files := by
      intro hsp
      rw [hmem, hpf hsp] at hm
      have hcases := hok'.mp hrev hsp
      rw [hpf hsp] at hcases
      split
      case isTrue hr => exact fun hs => hm ⟨hs, fun _ => hr⟩
      case isFalse hr =>
        rcases hcases with h | h | h
        · exact absurd h hr
        · exact .inr h
        · exact .inl h
    simp only [hd, if_true, Function.update_idem]
    exact ⟨fun _ => .inr ⟨hclean, hmeets⟩, fun _ => ⟨(by rintro ⟨_, he⟩; cases he), rfl, trivial⟩⟩

/-! ## Moving a file -/

theorem visible_renameFile {source dest : String} {bytes : List U8}
    (hs : source ∉ s.pendingDeletes) (hd : dest ∉ s.pendingDeletes) :
    visible { s with files := (s.files.erase source).insert dest bytes } =
      Function.update (Function.update s.visible source none) dest (some bytes) := by
  rw [visible_insert (s := { s with files := s.files.erase source }) bytes hd]
  congr 1
  funext n
  by_cases hn : n = source
  · subst hn
    rw [Function.update_self]
    set t : FsCore := { s with files := s.files.erase n }
    have ht : n ∉ t.pendingDeletes := hs
    rw [visible_of_not_pending ht]
    exact AList.lookup_erase n s.files
  · rw [Function.update_of_ne hn]
    exact visible_congr Iff.rfl (AList.lookup_erase_ne hn)

theorem rename_of_round_error {source dest : String} {e : IoError}
    (hs : source ∉ s.pendingDeletes) (h : (s.maybeDeletePendingFiles env).2 = .error e) :
    s.rename env source dest = ((s.maybeDeletePendingFiles env).1, .error e) := by
  rw [rename, if_neg (isPending_iff.not.mpr hs)]
  split <;> simp_all

theorem rename_of_revive_error {source dest : String} {e : IoError}
    (hs : source ∉ s.pendingDeletes) (h : (s.maybeDeletePendingFiles env).2 = .ok ())
    (hr : ((s.maybeDeletePendingFiles env).1.revive env dest).2 = .error e) :
    s.rename env source dest =
      (((s.maybeDeletePendingFiles env).1.revive env dest).1, .error e) := by
  rw [rename, if_neg (isPending_iff.not.mpr hs)]
  split
  · simp_all
  · split <;> simp_all

theorem rename_of_ok {source dest : String}
    (hs : source ∉ s.pendingDeletes) (h : (s.maybeDeletePendingFiles env).2 = .ok ())
    (hr : ((s.maybeDeletePendingFiles env).1.revive env dest).2 = .ok ()) :
    s.rename env source dest =
      ((s.maybeDeletePendingFiles env).1.revive env dest).1.renameFile source dest := by
  rw [rename, if_neg (isPending_iff.not.mpr hs)]
  split
  · simp_all
  · split <;> simp_all

theorem rename_ideal_iff (source dest : String) :
    IdealStep s.visible (.rename source dest)
        ((s.rename env source dest).2.map fun _ => .done)
        (s.rename env source dest).1.visible ↔
      Meets env s (.rename source dest) := by
  by_cases hs : source ∈ s.pendingDeletes
  case pos =>
    rw [rename, if_pos (isPending_iff.mpr hs)]
    simp [IdealStep, Meets, visible_of_pending hs, hs, Except.map]
  obtain ⟨hv, hok, hparked⟩ := maybeDeletePendingFiles_spec env s
  by_cases hclean : s.RoundClean env
  case neg =>
    obtain ⟨e, he⟩ := error_of_ne_ok (hok.not.mpr hclean)
    rw [rename_of_round_error hs he]
    cases hd : s.visible source with
    | none => simp [IdealStep, Meets, hd, hclean, Except.map, hv]
    | some bytes => simp [IdealStep, Meets, hd, hclean, Except.map]
  have hround := hok.mpr hclean
  obtain ⟨hcalls, hparked⟩ := hparked hround
  obtain ⟨hp, hpf⟩ := hparked dest
  have hst : source ∉ (s.maybeDeletePendingFiles env).1.pendingDeletes :=
    fun h => hs ((hparked source).1.mp h).1
  set t := (s.maybeDeletePendingFiles env).1 with ht
  have hok' := revive_ok env t dest
  have hvis := visible_revive env t dest
  rw [hv] at hvis
  have hlook : (t.revive env dest).1.files.lookup source = s.visible source := by
    rw [lookup_revive, if_neg, ← hv, visible_of_not_pending hst]
    rintro ⟨rfl, hpend, -⟩
    exact hst hpend
  have hsu : source ∉ (t.revive env dest).1.pendingDeletes :=
    fun h => hst ((mem_pending_revive env t dest source).mp h).2
  have hsame := visible_revive_eq_iff env t dest
  rw [hcalls, hp] at hok' hsame
  rw [hv] at hsame
  by_cases hrev : (t.revive env dest).2 = .ok ()
  case neg =>
    obtain ⟨e, he⟩ := error_of_ne_ok hrev
    rw [rename_of_revive_error hs hround he, ← ht]
    rw [hok'] at hrev
    push Not at hrev
    obtain ⟨hsp, hr, hm, hw⟩ := hrev
    rw [hpf hsp] at hm
    have hkept := hsame.mpr (fun h => hr h.2.1)
    cases hd : s.visible source with
    | none => simp [IdealStep, Meets, hd, hs, hr, Except.map, hkept]
    | some bytes => simp [IdealStep, Meets, hd, hclean, hsp, hr, hw, hm, Except.map]
  rw [rename_of_ok hs hround hrev, ← ht, renameFile, hlook]
  cases hd : s.visible source with
  | none =>
    have hmem : s.StillParked env dest ∧ env.refused s.nextRemove = true ∧ dest ∈ t.files ↔
        s.StillParked env dest ∧ env.refused s.nextRemove = true ∧ dest ∈ s.files :=
      and_congr_right fun hsp => and_congr_right fun _ => hpf hsp
    rw [hmem] at hsame
    simp only [IdealStep, Meets, hd, if_true, hs, hclean, true_and, not_false_eq_true,
      ← hsame]
    exact ⟨fun h => h.1 ⟨_, rfl⟩, fun h => ⟨fun _ => h, _, rfl⟩⟩
  | some bytes =>
    have hmeets : s.StillParked env dest →
        env.refused s.nextRemove = true ∨ env.windows = true ∨ dest ∈ s.files := by
      intro hsp
      have hcases := hok'.mp hrev hsp
      rw [hpf hsp] at hcases
      exact hcases.imp_right Or.symm
    have hmoved : (Function.update (Function.update (t.revive env dest).1.visible source none)
        dest (some bytes)) =
          Function.update (Function.update s.visible source none) dest (some bytes) := by
      funext n
      by_cases hn : n = dest
      · rw [hn, Function.update_self, Function.update_self]
      · rw [Function.update_of_ne hn, Function.update_of_ne hn, hvis]
        by_cases hn' : n = source
        · rw [hn', Function.update_self, Function.update_self]
        · rw [Function.update_of_ne hn', Function.update_of_ne hn', Function.update_of_ne hn]
    simp only [IdealStep, Meets, hd, reduceCtorEq, if_false]
    rw [visible_renameFile hsu (not_mem_pending_revive env t dest), hmoved]
    exact ⟨fun _ => ⟨hclean, hmeets⟩, fun _ => ⟨fun ⟨_, he⟩ => (nomatch he), rfl, rfl⟩⟩

/-! ## Deleting a file -/

/-- A delete takes the file out of sight, whether the remove call is refused
or not. -/
theorem visible_privateDeleteFile_new (env : Env) (s : FsCore) (name : String) (b : Bool) :
    (s.privateDeleteFile env name b).1.visible = Function.update s.visible name none := by
  funext n
  by_cases hn : n = name
  · subst hn
    rw [Function.update_self]
    cases hr : env.refused s.removeCalls with
    | true =>
      exact visible_of_pending ((mem_pending_privateDeleteFile env s n b n).mpr
        ((if_pos rfl).mpr hr))
    | false =>
      rw [visible_of_not_pending, lookup_privateDeleteFile, if_pos ⟨rfl, hr⟩]
      rw [mem_pending_privateDeleteFile, if_pos rfl, hr]
      exact Bool.false_ne_true
  · rw [Function.update_of_ne hn]
    refine visible_congr ?_ ?_
    · rw [mem_pending_privateDeleteFile, if_neg hn]
    · rw [lookup_privateDeleteFile, if_neg (fun h => hn h.1)]

theorem update_none_of_none {d : Dir} (h : d name = none) :
    Function.update d name none = d := by
  rw [← h, Function.update_eq_self]

/-- The state after `delete_file` looks as it should. -/
theorem visible_deleteFile :
    (s.deleteFile env name).1.visible = Function.update s.visible name none := by
  by_cases hp : name ∈ s.pendingDeletes
  · rw [deleteFile, if_pos (isPending_iff.mpr hp),
      update_none_of_none (visible_of_pending hp)]
  · rw [deleteFile, if_neg (isPending_iff.not.mpr hp)]
    have hv := visible_privateDeleteFile_new env s name false
    split
    case h_1 s1 e heq =>
      rw [heq] at hv
      exact hv
    case h_2 s1 heq =>
      rw [heq] at hv
      exact ((maybeDeletePendingFiles_spec env s1).1).trans hv

theorem deleteFile_ok (env : Env) (hv : s.visible name ≠ none) :
    (s.deleteFile env name).2 = .ok () ↔
      (s.privateDeleteFile env name false).1.RoundClean env := by
  obtain ⟨hp, hm⟩ := visible_ne_none.mp hv
  have hok := (privateDeleteFile_ok env s name false).mpr (.inr (.inl hm))
  rw [deleteFile, if_neg (isPending_iff.not.mpr hp)]
  split
  case h_1 s1 e heq =>
    rw [heq] at hok
    cases hok
  case h_2 s1 heq =>
    rw [heq]
    exact (maybeDeletePendingFiles_spec env s1).2.1

theorem deleteFile_ideal_iff :
    IdealStep s.visible (.deleteFile name)
        ((s.deleteFile env name).2.map fun _ => .done) (s.deleteFile env name).1.visible ↔
      Meets env s (.deleteFile name) := by
  simp only [IdealStep, Meets, visible_deleteFile, and_true]
  by_cases hv : s.visible name = none
  · simp [hv, update_none_of_none hv]
  · have hok := deleteFile_ok env hv
    have hne : Function.update s.visible name none ≠ s.visible := by
      intro h
      have := congrFun h name
      rw [Function.update_self] at this
      exact hv this.symm
    cases hr : (s.deleteFile env name).2 with
    | ok u =>
      rw [hr] at hok
      exact ⟨fun _ _ => hok.mp rfl, fun _ => fun ⟨_, he⟩ => (nomatch he)⟩
    | error e =>
      rw [hr] at hok
      refine ⟨fun h => absurd (h ⟨e, rfl⟩) hne, fun h => absurd (hok.mpr (h hv)) (by simp)⟩

/-! ## Temporary files -/

theorem tempLoop_spec {pre suf : String} {bytes : List U8} {r : Except IoError String} :
    ∀ {fuel : Nat} {s t : FsCore}, tempLoop pre suf bytes fuel s = some (t, r) →
      ∃ counter, s.visible (tempFileName pre suf counter) = none ∧
        r = .ok (tempFileName pre suf counter) ∧
        t.visible = Function.update s.visible (tempFileName pre suf counter) (some bytes)
  | 0, s, t, h => by cases h
  | fuel + 1, s, t, h => by
    rw [tempLoop] at h
    set name := tempFileName pre suf s.nextTempFileCounter with hname
    set s1 : FsCore :=
      { s with nextTempFileCounter := (s.nextTempFileCounter + 1) % 2 ^ 64 }
    split at h
    · exact tempLoop_spec (s := s1) h
    case isFalse hp =>
      rw [isPending_iff] at hp
      by_cases hm : name ∈ s1.files
      · rw [createNew_of_mem bytes hm] at h
        exact tempLoop_spec (s := s1) h
      · rw [createNew_of_not_mem bytes hm] at h
        obtain ⟨rfl, rfl⟩ : _ = t ∧ _ = r := by simpa using h
        refine ⟨s.nextTempFileCounter, ?_, rfl, visible_insert (s := s1) bytes hp⟩
        rw [← hname]
        exact (visible_of_not_pending (s := s1) hp).trans (AList.lookup_eq_none.mpr hm)

theorem tempFileName_inj {pre suf : String} {c c' : Nat} (hc : c < 2 ^ 63) (hc' : c' < 2 ^ 63)
    (h : tempFileName pre suf c = tempFileName pre suf c') : c = c' := by
  have hlist := congrArg String.toList h
  simp only [tempFileName, String.toList_append, List.append_assoc, List.append_cancel_left_eq,
    List.append_cancel_right_eq] at hlist
  rw [Nat.min_eq_left (by omega), Nat.min_eq_left (by omega)] at hlist
  exact Util.toBase36_inj hc hc' (String.toList_inj.mp hlist)

/-- A loop that has not ended has met a name in use with each counter. -/
theorem tempLoop_eq_none {pre suf : String} {bytes : List U8} :
    ∀ {fuel : Nat} {s : FsCore}, s.nextTempFileCounter + fuel ≤ 2 ^ 63 →
      tempLoop pre suf bytes fuel s = none →
      ∀ i < fuel, tempFileName pre suf (s.nextTempFileCounter + i) ∈
        s.files.keys ++ s.pendingDeletes.elems
  | 0, _, _, _, i, hi => absurd hi (Nat.not_lt_zero i)
  | fuel + 1, s, hc, h, i, hi => by
    rw [tempLoop] at h
    have hnext : (s.nextTempFileCounter + 1) % 2 ^ 64 = s.nextTempFileCounter + 1 :=
      Nat.mod_eq_of_lt (by omega)
    rw [hnext] at h
    set name := tempFileName pre suf s.nextTempFileCounter with hname
    set s1 : FsCore := { s with nextTempFileCounter := s.nextTempFileCounter + 1 } with hs1
    -- The name of this pass is in use, and the loop goes on.
    have hpass : name ∈ s.files.keys ++ s.pendingDeletes.elems ∧
        tempLoop pre suf bytes fuel s1 = none := by
      split at h
      case isTrue hp => exact ⟨List.mem_append_right _ (isPending_iff.mp hp), h⟩
      case isFalse hp =>
        by_cases hm : name ∈ s1.files
        · rw [createNew_of_mem bytes hm] at h
          exact ⟨List.mem_append_left _ (AList.mem_keys.mp hm), h⟩
        · rw [createNew_of_not_mem bytes hm] at h
          cases h
    cases i with
    | zero => exact hpass.1
    | succ i =>
      have ih := tempLoop_eq_none (s := s1) (by rw [hs1]; dsimp only; omega) hpass.2 i (by omega)
      rw [hs1] at ih
      dsimp only at ih
      rwa [Nat.add_right_comm, Nat.add_assoc] at ih

/-- The loop ends before the counter runs out. -/
theorem tempLoop_returns (pre suf : String) (bytes : List U8) (used : List String)
    (hused : ∀ n ∈ s.files.keys ++ s.pendingDeletes.elems, n ∈ used)
    (h : s.nextTempFileCounter + used.length < 2 ^ 63) :
    ∃ t r, tempLoop pre suf bytes (used.length + 1) s = some (t, r) := by
  cases hr : tempLoop pre suf bytes (used.length + 1) s with
  | some p => exact ⟨p.1, p.2, rfl⟩
  | none =>
    have hin := tempLoop_eq_none (by omega) hr
    set f := fun i => tempFileName pre suf (s.nextTempFileCounter + i)
    have hnd : ((List.range (used.length + 1)).map f).Nodup := by
      refine List.Nodup.map_on ?_ List.nodup_range
      intro i hi j hj hij
      rw [List.mem_range] at hi hj
      have := tempFileName_inj (by omega) (by omega) hij
      omega
    have hsub : (List.range (used.length + 1)).map f ⊆ used := by
      intro n hn
      obtain ⟨i, hi, rfl⟩ := List.mem_map.mp hn
      exact hused _ (hin i (List.mem_range.mp hi))
    have hlen := (List.subperm_of_subset hnd hsub).length_le
    rw [List.length_map, List.length_range] at hlen
    omega

theorem createTempOutput_ideal_iff {fuel : Nat} {pre suf : String} {bytes : List U8}
    {r : Except IoError String}
    (h : s.createTempOutput env fuel pre suf bytes = some (t, r)) :
    IdealStep s.visible (.createTempOutput pre suf bytes) (r.map .file) t.visible ↔
      Meets env s (.createTempOutput pre suf bytes) := by
  obtain ⟨hv, hok, -⟩ := maybeDeletePendingFiles_spec env s
  simp only [Meets]
  rw [createTempOutput] at h
  split at h
  case h_1 s1 e heq =>
    rw [heq] at hok
    obtain ⟨rfl, rfl⟩ : s1 = t ∧ _ = r := by simpa using h
    constructor
    · rintro ⟨-, counter, -, hr, -⟩
      cases hr
    · intro hc
      cases hok.mpr hc
  case h_2 s1 heq =>
    rw [heq] at hok hv
    obtain ⟨counter, hnone, rfl, hvt⟩ := tempLoop_spec h
    rw [hv] at hnone hvt
    exact ⟨fun _ => hok.mp rfl,
      fun _ => ⟨fun ⟨_, he⟩ => (nomatch he), counter, hnone, rfl, hvt⟩⟩

theorem createTempOutput_returns (env : Env) (pre suf : String) (bytes : List U8)
    (h : s.nextTempFileCounter + s.files.keys.length + s.pendingDeletes.elems.length < 2 ^ 63) :
    ∃ fuel t r, s.createTempOutput env fuel pre suf bytes = some (t, r) := by
  have hshrink := maybeDeletePendingFiles_shrinks env s
  simp only [createTempOutput]
  split
  case h_1 s1 e heq => exact ⟨0, s1, .error e, rfl⟩
  case h_2 s1 heq =>
    rw [heq] at hshrink
    obtain ⟨hfiles, hpend, hcount⟩ := hshrink
    have hused : ∀ n ∈ s1.files.keys ++ s1.pendingDeletes.elems,
        n ∈ s.files.keys ++ s.pendingDeletes.elems := by
      intro n hn
      rcases List.mem_append.mp hn with hn | hn
      · exact List.mem_append_left _ (hfiles n hn)
      · exact List.mem_append_right _ (hpend n hn)
    refine ⟨_, tempLoop_returns pre suf bytes _ hused ?_⟩
    rw [List.length_append]
    dsimp only at hcount
    omega

/-! ## The other calls -/

theorem visible_sync (names : List String) : (s.sync env names).1.visible = s.visible := by
  rw [sync]
  split
  · rfl
  · exact (maybeDeletePendingFiles_spec env s).1

theorem visible_pendingDeletions : (s.pendingDeletions env).1.visible = s.visible := by
  have hv := deletePendingFiles_visible env s
  rw [pendingDeletions]
  split
  case h_1 s1 e heq =>
    rw [heq] at hv
    exact hv
  case h_2 s1 heq =>
    rw [heq] at hv
    exact hv

/-- The names of a listing, in order. -/
theorem mem_listAll : name ∈ s.listAll ↔ s.visible name ≠ none := by
  rw [visible_ne_none, listAll]
  have hsort : name ∈ s.files.keys.insertionSort (· ≤ ·) ↔ name ∈ s.files := by
    rw [List.mem_insertionSort, AList.mem_keys]
  split
  case isTrue h =>
    have hnp : name ∉ s.pendingDeletes := by
      rw [BTreeSet.mem_def, List.isEmpty_iff.mp h]
      exact List.not_mem_nil
    rw [hsort]
    exact ⟨fun hm => ⟨hnp, hm⟩, And.right⟩
  case isFalse h =>
    rw [List.mem_filter, hsort, Bool.not_eq_true', ← Bool.not_eq_true, isPending_iff]
    exact And.comm

theorem listAll_sorted : s.listAll.Pairwise (· < ·) := by
  have hle : (s.files.keys.insertionSort (· ≤ ·)).Pairwise (· ≤ ·) :=
    List.pairwise_insertionSort _ _
  have hnd : (s.files.keys.insertionSort (· ≤ ·)).Nodup :=
    (List.perm_insertionSort _ _).nodup_iff.mpr s.files.keys_nodup
  have hlt := (hle.and hnd).imp fun h => lt_of_le_of_ne h.1 h.2
  rw [listAll]
  split
  · exact hlt
  · exact hlt.filter _

theorem openFile_ok {bytes : List U8} :
    s.openFile name = .ok bytes ↔ s.visible name = some bytes := by
  rw [openFile, ensureCanRead, visible]
  split
  · simp [bind, Except.bind]
  · simp only [bind, Except.bind]
    split <;> simp_all

theorem fileLength_ok {n : Nat} :
    s.fileLength name = .ok n ↔ ∃ bytes, s.visible name = some bytes ∧ bytes.length = n := by
  rw [fileLength, visible]
  split
  · simp
  · split <;> simp_all

/-- Each call from each state: it is the ideal one just when `Meets` holds. -/
theorem call_ideal_iff {fuel : Nat} {c : DirCall} {r : Except IoError Answer}
    (h : s.call env fuel c = some (t, r)) :
    IdealStep s.visible c r t.visible ↔ Meets env s c := by
  cases c with
  | createOutput name bytes =>
    obtain ⟨rfl, rfl⟩ := Prod.ext_iff.mp (Option.some.inj h)
    exact createOutput_ideal_iff bytes
  | createTempOutput pre suf bytes =>
    obtain ⟨⟨t', r'⟩, ht, heq⟩ := Option.map_eq_some_iff.mp h
    obtain ⟨rfl, rfl⟩ : t' = t ∧ _ = r := by simpa using heq
    exact createTempOutput_ideal_iff ht
  | rename source dest =>
    obtain ⟨rfl, rfl⟩ := Prod.ext_iff.mp (Option.some.inj h)
    exact rename_ideal_iff source dest
  | deleteFile name =>
    obtain ⟨rfl, rfl⟩ := Prod.ext_iff.mp (Option.some.inj h)
    exact deleteFile_ideal_iff
  | sync names =>
    obtain ⟨rfl, rfl⟩ := Prod.ext_iff.mp (Option.some.inj h)
    simp [IdealStep, Meets, visible_sync]
  | syncMetaData =>
    obtain ⟨rfl, rfl⟩ := Prod.ext_iff.mp (Option.some.inj h)
    simp [IdealStep, Meets, syncMetaData, (maybeDeletePendingFiles_spec env s).1]
  | pendingDeletions =>
    obtain ⟨rfl, rfl⟩ := Prod.ext_iff.mp (Option.some.inj h)
    simp [IdealStep, Meets, visible_pendingDeletions]
  | listAll =>
    obtain ⟨rfl, rfl⟩ := Prod.ext_iff.mp (Option.some.inj h)
    simp only [IdealStep, Meets, iff_true]
    exact ⟨fun _ => trivial, trivial, s.listAll, rfl, listAll_sorted, fun _ => mem_listAll⟩

end FsCore

/-! ## Runs -/

/-- A call that returned: the states around it, and what it returned. -/
structure Event where
  before : FsCore
  call : DirCall
  result : Except IoError Answer
  after : FsCore

/-- The call did what the ideal directory does. -/
def Event.Ideal (e : Event) : Prop :=
  IdealStep e.before.visible e.call e.result e.after.visible

/-- The calls of a run, each one made when the one before has returned. -/
inductive Run (env : Env) : FsCore → List Event → FsCore → Prop where
  | nil {s : FsCore} : Run env s [] s
  | cons {s s' t : FsCore} {r : Except IoError Answer} {tr : List Event} (fuel : Nat)
      (c : DirCall) (h : s.call env fuel c = some (s', r)) (hrun : Run env s' tr t) :
      Run env s (⟨s, c, r, s'⟩ :: tr) t

/-- The same calls with the same results on the ideal directory. -/
def IdealRun : Dir → List Event → Dir → Prop
  | d, [], d' => d' = d
  | d, e :: tr, d' => ∃ d₁, IdealStep d e.call e.result d₁ ∧ IdealRun d₁ tr d'

/-- The calls that take a name away. -/
def Removes (name : String) : DirCall → Prop
  | .deleteFile n => n = name
  | .rename source dest => source = name ∧ dest ≠ name
  | _ => False

section runs

variable {env : Env} {s t : FsCore} {tr : List Event}

theorem Run.ideal_iff (h : Run env s tr t) :
    (∀ e ∈ tr, e.Ideal) ↔ ∀ e ∈ tr, Meets env e.before e.call := by
  induction h with
  | nil => simp
  | cons _ _ h _ ih =>
    rw [List.forall_mem_cons, List.forall_mem_cons, ih]
    exact and_congr_left fun _ => FsCore.call_ideal_iff h

theorem Run.idealRun (h : Run env s tr t) (hideal : ∀ e ∈ tr, e.Ideal) :
    IdealRun s.visible tr t.visible := by
  induction h with
  | nil => exact rfl
  | cons _ _ h _ ih =>
    rw [List.forall_mem_cons] at hideal
    exact ⟨_, hideal.1, ih hideal.2⟩

/-- A file stays in sight in an ideal directory until a call takes it away. -/
theorem IdealStep.keeps {d d' : Dir} {c : DirCall} {r : Except IoError Answer} {name : String}
    (h : IdealStep d c r d') (hd : d name ≠ none) (hc : ¬ Removes name c) :
    d' name ≠ none := by
  have hupdate : ∀ (n : String) (b : List U8), Function.update d n (some b) name ≠ none := by
    intro n b
    by_cases hn : name = n
    · simp [hn]
    · rwa [Function.update_of_ne hn]
  obtain ⟨herr, h⟩ := h
  cases c with
  | createOutput n bytes =>
    dsimp only at h
    split at h
    · rw [h.2]
      exact hupdate n bytes
    · rwa [herr h]
  | createTempOutput pre suf bytes =>
    obtain ⟨counter, -, -, rfl⟩ := h
    exact hupdate _ bytes
  | rename source dest =>
    dsimp only at h
    split at h
    · rwa [herr h]
    · rw [h.2]
      by_cases hn : name = dest
      · simp [hn]
      · have hs : name ≠ source := fun hs => hc ⟨hs.symm, fun h => hn h.symm⟩
        rwa [Function.update_of_ne hn, Function.update_of_ne hs]
  | deleteFile n =>
    have hn : name ≠ n := fun hn => hc hn.symm
    rw [h, Function.update_of_ne hn]
    exact hd
  | listAll =>
    rw [h.1]
    exact hd
  | sync _ =>
    rw [show d' = d from h]
    exact hd
  | syncMetaData =>
    rw [show d' = d from h]
    exact hd
  | pendingDeletions =>
    rw [show d' = d from h]
    exact hd

theorem IdealRun.keeps {name : String} : ∀ {tr : List Event} {d d' : Dir},
    IdealRun d tr d' → d name ≠ none → (∀ e ∈ tr, ¬ Removes name e.call) → d' name ≠ none
  | [], _, _, h, hd, _ => by rwa [show _ = _ from h]
  | e :: tr, _, _, ⟨_, hstep, hrun⟩, hd, hc => by
    rw [List.forall_mem_cons] at hc
    exact hrun.keeps (hstep.keeps hd hc.1) hc.2

/-- Every run of calls over a directory.  Its calls are those of the ideal
directory if and only if each one of them meets its condition.  When they do,
the directory looks as the ideal one does after them: the listing has the
names of its files in order, and the files read back.  A file in sight stays
there however the run goes on, until a call of it takes the file away.  A
temporary file is always found. -/
theorem run_ideal_iff_meets (env : Env) (files : Files) {tr : List Event} {s : FsCore}
    (h : Run env (FsCore.new files) tr s) :
    ((∀ e ∈ tr, e.Ideal) ↔ ∀ e ∈ tr, Meets env e.before e.call) ∧
    ((∀ e ∈ tr, Meets env e.before e.call) →
      ∃ d : Dir, IdealRun (fun name => files.lookup name) tr d ∧
        s.listAll.Pairwise (· < ·) ∧
        (∀ name, name ∈ s.listAll ↔ d name ≠ none) ∧
        (∀ name bytes, s.openFile name = .ok bytes ↔ d name = some bytes) ∧
        (∀ name n, s.fileLength name = .ok n ↔
          ∃ bytes, d name = some bytes ∧ bytes.length = n) ∧
        ∀ (tr' : List Event) (s' : FsCore), Run env s tr' s' →
          (∀ e ∈ tr', Meets env e.before e.call) →
          ∀ name ∈ s.listAll, (∀ e ∈ tr', ¬ Removes name e.call) →
            name ∈ s'.listAll ∧ name ∈ s'.files) ∧
    (s.nextTempFileCounter + s.files.keys.length + s.pendingDeletes.elems.length < 2 ^ 63 →
      ∀ pre suf bytes, ∃ fuel t r,
        s.call env fuel (.createTempOutput pre suf bytes) = some (t, r)) := by
  refine ⟨h.ideal_iff, fun hmeets => ?_, fun hlt pre suf bytes => ?_⟩
  · have hnew : (FsCore.new files).visible = fun name => files.lookup name :=
      funext fun _ => FsCore.visible_of_not_pending BTreeSet.not_mem_empty
    refine ⟨s.visible, hnew ▸ h.idealRun (h.ideal_iff.mpr hmeets), FsCore.listAll_sorted,
      fun _ => FsCore.mem_listAll, fun _ _ => FsCore.openFile_ok,
      fun _ _ => FsCore.fileLength_ok, ?_⟩
    intro tr' s' h' hmeets' name hname hkeep
    have hideal := h'.idealRun (h'.ideal_iff.mpr hmeets')
    have hvis := hideal.keeps (FsCore.mem_listAll.mp hname) hkeep
    exact ⟨FsCore.mem_listAll.mpr hvis, (FsCore.visible_ne_none.mp hvis).2⟩
  · obtain ⟨fuel, t, r, hr⟩ := FsCore.createTempOutput_returns env pre suf bytes hlt
    exact ⟨fuel, t, r.map .file, by rw [FsCore.call, hr]; rfl⟩

/-- A file system that refuses its first two remove calls. -/
def twiceRefused : Env := ⟨false, fun n => n < 2⟩

theorem run_ideal_iff_meets_twice :
    ∃ tr s, Run twiceRefused (FsCore.new (AList.singleton "a" [1])) tr s ∧
      tr.map (·.call) = [.deleteFile "a", .listAll, .createOutput "a" [2]] ∧
      ∃ d, IdealRun (fun name => (AList.singleton "a" [1] : Files).lookup name) tr d ∧
        d "a" = some [2] := by
  have hrun : Run twiceRefused (FsCore.new (AList.singleton "a" [1])) _ _ :=
    .cons 0 (.deleteFile "a") rfl
      (.cons 0 .listAll rfl (.cons 0 (.createOutput "a" [2]) rfl .nil))
  obtain ⟨d, hd, -, -, hopen, -⟩ := (run_ideal_iff_meets _ _ hrun).2.1 (by decide)
  exact ⟨_, _, hrun, rfl, d, hd, (hopen "a" [2]).mp (by decide)⟩

/-- A file system that refuses every remove call.  The name of a file that was
deleted is asked for again: the call fails, and the old file is back. -/
theorem createOutput_shows_deleted_file :
    ∃ s₁ s₂ : FsCore,
      (FsCore.new (AList.singleton "a" [1])).deleteFile ⟨false, fun _ => true⟩ "a" =
        (s₁, .ok ()) ∧
      s₁.listAll = [] ∧
      s₁.createOutput ⟨false, fun _ => true⟩ "a" [2] = (s₂, .error osAlreadyExists) ∧
      s₂.listAll = ["a"] ∧ s₂.openFile "a" = .ok [1] ∧
      ¬ IdealStep s₁.visible (.createOutput "a" [2]) (.error osAlreadyExists)
        s₂.visible := by
  refine ⟨_, _, rfl, by decide, rfl, by decide, by decide, fun h => ?_⟩
  have hsame := congrFun (h.1 ⟨_, rfl⟩) "a"
  revert hsame
  decide

end runs

end LuceneRust.Store
