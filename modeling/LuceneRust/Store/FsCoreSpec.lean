import LuceneRust.Store.FsCore

/-!
# Retrying the pending deletes

What a caller sees of a directory is `FsCore.visible`: the files without
those that are pending.

* `maybeDeletePendingFiles_spec` is the retry from inside another call: it
  changes nothing that is visible, and it fails just when it meets a name
  whose file is gone (`RoundClean`).
* `visible_revive` is what `create_output` and `rename` do with a name that is
  pending: the file comes back into sight when its delete is refused again.
-/

namespace LuceneRust.Store

open RustSem

/-- A directory as its callers see it. -/
abbrev Dir := String → Option (List U8)

namespace FsCore

variable {env : Env} {s t : FsCore} {name : String}

/-- The files that a caller sees. -/
def visible (s : FsCore) : Dir := fun name =>
  if s.isPending name then none else s.files.lookup name

theorem isPending_iff : s.isPending name = true ↔ name ∈ s.pendingDeletes := by
  simp [isPending]

theorem visible_of_pending (h : name ∈ s.pendingDeletes) : s.visible name = none := by
  rw [visible, if_pos (isPending_iff.mpr h)]

theorem visible_of_not_pending (h : name ∉ s.pendingDeletes) :
    s.visible name = s.files.lookup name := by
  rw [visible, if_neg (isPending_iff.not.mpr h)]

theorem visible_ne_none :
    s.visible name ≠ none ↔ name ∉ s.pendingDeletes ∧ name ∈ s.files := by
  by_cases h : name ∈ s.pendingDeletes
  · simp [visible_of_pending h, h]
  · rw [visible_of_not_pending h, ne_eq, AList.lookup_eq_none, not_not]
    exact ⟨fun hm => ⟨h, hm⟩, And.right⟩

theorem visible_congr (hp : name ∈ s.pendingDeletes ↔ name ∈ t.pendingDeletes)
    (hf : s.files.lookup name = t.files.lookup name) : s.visible name = t.visible name := by
  by_cases h : name ∈ t.pendingDeletes
  · rw [visible_of_pending h, visible_of_pending (hp.mpr h)]
  · rw [visible_of_not_pending h, visible_of_not_pending (hp.not.mpr h), hf]

/-! ## One remove call -/

theorem privateDeleteFile_removeCalls (env : Env) (s : FsCore) (name : String)
    (b : Bool) :
    (s.privateDeleteFile env name b).1.removeCalls = s.removeCalls + 1 := by
  simp only [privateDeleteFile]
  split
  · rfl
  · split <;> rfl

/-- The names that are pending after a remove call. -/
theorem mem_pending_privateDeleteFile (env : Env) (s : FsCore) (name : String) (b : Bool)
    (n : String) :
    n ∈ (s.privateDeleteFile env name b).1.pendingDeletes ↔
      if n = name then env.refused s.removeCalls = true else n ∈ s.pendingDeletes := by
  simp only [privateDeleteFile]
  split
  · by_cases hn : n = name <;> simp_all [park]
  · split <;> by_cases hn : n = name <;> simp_all [unpark]

/-- The files after a remove call. -/
theorem lookup_privateDeleteFile (env : Env) (s : FsCore) (name : String) (b : Bool)
    (n : String) :
    (s.privateDeleteFile env name b).1.files.lookup n =
      if n = name ∧ env.refused s.removeCalls = false then none
      else s.files.lookup n := by
  simp only [privateDeleteFile]
  split
  case isTrue h => simp [park, h]
  case isFalse h =>
    split
    · by_cases hn : n = name
      · subst hn
        simp [unpark, h]
      · simp [unpark, hn, AList.lookup_erase_ne hn]
    case isFalse hm =>
      by_cases hn : n = name
      · subst hn
        simp [unpark, h, AList.lookup_eq_none.mpr hm]
      · simp [unpark, hn]

/-- A remove call fails just when the file is gone and the call is granted. -/
theorem privateDeleteFile_ok (env : Env) (s : FsCore) (name : String) (b : Bool) :
    (s.privateDeleteFile env name b).2 = .ok () ↔
      env.refused s.removeCalls = true ∨ name ∈ s.files ∨ (b && env.windows) = true := by
  simp only [privateDeleteFile]
  split
  · simp_all
  · split
    · simp_all
    · split <;> simp_all

/-- A remove call of a name that is not visible shows no change. -/
theorem visible_privateDeleteFile (env : Env) (b : Bool) (h : name ∈ s.pendingDeletes) :
    (s.privateDeleteFile env name b).1.visible = s.visible := by
  funext n
  by_cases hn : n = name
  · subst hn
    rw [visible_of_pending h]
    by_cases hr : env.refused s.removeCalls = true
    · exact visible_of_pending ((mem_pending_privateDeleteFile env s n b n).mpr (by simp [hr]))
    · rw [visible_of_not_pending (by simp [mem_pending_privateDeleteFile, hr]),
        lookup_privateDeleteFile]
      simp [hr]
  · refine visible_congr ?_ ?_
    · rw [mem_pending_privateDeleteFile, if_neg hn]
    · rw [lookup_privateDeleteFile, if_neg (fun h => hn h.1)]

/-! ## Retrying the pending deletes -/

/-- No remove call of the list is granted for a file that is gone.  The list
is worked off from the `calls`-th remove call on. -/
def Clean (env : Env) (files : Files) (calls : Nat) (names : List String) : Prop :=
  ∀ (k : Nat) (name : String), names[k]? = some name →
    env.windows = true ∨ env.refused (calls + k) = true ∨ name ∈ files

instance {files : Files} {calls : Nat} {names : List String} :
    Decidable (Clean env files calls names) :=
  decidable_of_iff (∀ (k : Nat) (h : k < names.length),
      env.windows = true ∨ env.refused (calls + k) = true ∨ names.get ⟨k, h⟩ ∈ files) <| by
    refine forall_congr' fun k => ⟨fun h name hk => ?_, fun h hk => ?_⟩
    · obtain ⟨hlt, rfl⟩ := List.getElem?_eq_some_iff.mp hk
      exact h hlt
    · exact h _ (List.getElem?_eq_getElem hk)

theorem clean_cons {files : Files} {calls : Nat} {names : List String} :
    Clean env files calls (name :: names) ↔
      (env.windows = true ∨ env.refused calls = true ∨ name ∈ files) ∧
        Clean env files (calls + 1) names := by
  constructor
  · intro h
    refine ⟨h 0 name rfl, fun k n hk => ?_⟩
    rw [Nat.add_right_comm]
    exact h (k + 1) n hk
  · rintro ⟨h0, h⟩ k n hk
    cases k with
    | zero =>
      obtain rfl : name = n := by simpa using hk
      exact h0
    | succ k =>
      rw [← Nat.add_assoc, Nat.add_right_comm]
      exact h k n hk

theorem clean_congr {files files' : Files} {calls : Nat} {names : List String}
    (h : ∀ n ∈ names, n ∈ files ↔ n ∈ files') :
    Clean env files calls names ↔ Clean env files' calls names := by
  refine forall_congr' fun k => forall_congr' fun n => imp_congr_right fun hk => ?_
  rw [h n (List.mem_of_getElem? hk)]

/-- What `deleteAll` leaves: which of the names stay, and what the files are.
The `k`-th name goes with the `k`-th remove call. -/
structure Retried (env : Env) (s : FsCore) (names : List String) (t : FsCore) : Prop where
  removeCalls : t.removeCalls = s.removeCalls + names.length
  mem_pending : ∀ n, n ∈ t.pendingDeletes ↔ n ∈ s.pendingDeletes ∧
    (n ∈ names → env.refused (s.removeCalls + names.idxOf n) = true)
  lookup : ∀ n, n ∈ t.pendingDeletes → t.files.lookup n = s.files.lookup n

theorem privateDeleteFile_mem {n : String} (b : Bool) (hn : n ≠ name) :
    n ∈ (s.privateDeleteFile env name b).1.files ↔ n ∈ s.files := by
  rw [← AList.lookup_isSome, ← AList.lookup_isSome, lookup_privateDeleteFile,
    if_neg (fun h => hn h.1)]

attribute [local simp] deleteAll

theorem deleteAll_visible : ∀ (names : List String) (s : FsCore),
    (∀ n ∈ names, n ∈ s.pendingDeletes) → names.Nodup →
    (deleteAll env s names).1.visible = s.visible
  | [], s, _, _ => rfl
  | name :: names, s, hp, hnd => by
    obtain ⟨hname, hnd'⟩ := List.nodup_cons.mp hnd
    have hv := visible_privateDeleteFile env true (hp name List.mem_cons_self)
    have hp' : ∀ n ∈ names,
        n ∈ (s.privateDeleteFile env name true).1.pendingDeletes := by
      intro n hn
      rw [mem_pending_privateDeleteFile, if_neg (ne_of_mem_of_not_mem hn hname)]
      exact hp n (List.mem_cons_of_mem _ hn)
    rw [deleteAll]
    split
    case h_1 s1 heq =>
      rw [heq] at hv hp'
      rw [deleteAll_visible names s1 hp' hnd', hv]
    case h_2 s1 e heq =>
      rw [heq] at hv
      exact hv

theorem deleteAll_ok : ∀ (names : List String) (s : FsCore), names.Nodup →
    ((deleteAll env s names).2 = .ok () ↔ Clean env s.files s.removeCalls names)
  | [], s, _ => by simp [deleteAll, Clean]
  | name :: names, s, hnd => by
    obtain ⟨hname, hnd'⟩ := List.nodup_cons.mp hnd
    have hok := privateDeleteFile_ok env s name true
    have hcalls := privateDeleteFile_removeCalls env s name true
    have hfiles : ∀ n ∈ names,
        n ∈ (s.privateDeleteFile env name true).1.files ↔ n ∈ s.files :=
      fun n hn => privateDeleteFile_mem true (ne_of_mem_of_not_mem hn hname)
    rw [clean_cons, deleteAll]
    split
    case h_1 s1 heq =>
      rw [heq] at hok hcalls hfiles
      dsimp only at hcalls hfiles
      rw [deleteAll_ok names s1 hnd', hcalls, clean_congr hfiles]
      have hhead : env.windows = true ∨ env.refused s.removeCalls = true ∨ name ∈ s.files := by
        rcases hok.mp rfl with h | h | h
        · exact .inr (.inl h)
        · exact .inr (.inr h)
        · exact .inl (by simpa using h)
      exact ⟨fun h => ⟨hhead, h⟩, And.right⟩
    case h_2 s1 e heq =>
      rw [heq] at hok
      constructor
      · intro h
        cases h
      · rintro ⟨hhead, -⟩
        refine absurd (hok.mpr ?_) (by simp)
        rcases hhead with h | h | h
        · exact .inr (.inr (by simpa using h))
        · exact .inl h
        · exact .inr (.inl h)

theorem deleteAll_retried : ∀ (names : List String) (s : FsCore), names.Nodup →
    (∀ n ∈ names, n ∈ s.pendingDeletes) → (deleteAll env s names).2 = .ok () →
    Retried env s names (deleteAll env s names).1
  | [], s, _, _, _ => ⟨rfl, fun n => by simp [deleteAll], fun n _ => rfl⟩
  | name :: names, s, hnd, hp, hok => by
    obtain ⟨hname, hnd'⟩ := List.nodup_cons.mp hnd
    have hcalls := privateDeleteFile_removeCalls env s name true
    have hpend := mem_pending_privateDeleteFile env s name true
    have hlook := lookup_privateDeleteFile env s name true
    rw [deleteAll] at hok ⊢
    split at hok
    case h_2 s1 e heq => cases hok
    case h_1 s1 heq =>
      rw [heq] at hcalls hpend hlook
      dsimp only at hcalls hpend hlook
      have hp' : ∀ n ∈ names, n ∈ s1.pendingDeletes := by
        intro n hn
        rw [hpend, if_neg (ne_of_mem_of_not_mem hn hname)]
        exact hp n (List.mem_cons_of_mem _ hn)
      have ih := deleteAll_retried names s1 hnd' hp' hok
      refine ⟨?_, fun n => ?_, fun n hn => ?_⟩
      · rw [ih.removeCalls, hcalls, List.length_cons]
        omega
      · rw [ih.mem_pending, hpend, hcalls]
        by_cases hn : n = name
        · subst hn
          simp [hname, hp n List.mem_cons_self]
        · have hne : name ≠ n := fun h => hn h.symm
          rw [if_neg hn, List.mem_cons, List.idxOf_cons_ne _ hne]
          simp only [hn, false_or]
          rw [show s.removeCalls + 1 + names.idxOf n =
            s.removeCalls + (names.idxOf n).succ by omega]
      · have hs1 := ((ih.mem_pending n).mp hn).1
        rw [ih.lookup n hn, hlook]
        rw [if_neg]
        rintro ⟨rfl, hr⟩
        rw [hpend, if_pos rfl, hr] at hs1
        cases hs1

/-- A call of `maybe_delete_pending_files` that retries the deletes. -/
def Due (s : FsCore) : Prop :=
  s.pendingDeletes.elems ≠ [] ∧ s.pendingDeletes.elems.length ≤ s.opsSinceLastDelete + 1

instance : Decidable s.Due :=
  inferInstanceAs (Decidable (s.pendingDeletes.elems ≠ [] ∧ _))

/-- The retry that comes next meets no name whose file is gone. -/
def RoundClean (env : Env) (s : FsCore) : Prop :=
  s.Due → Clean env s.files s.removeCalls s.pendingDeletes.elems

instance : Decidable (s.RoundClean env) := inferInstanceAs (Decidable (_ → _))

/-- The name is pending, and the retry that comes next leaves it so. -/
def StillParked (env : Env) (s : FsCore) (name : String) : Prop :=
  name ∈ s.pendingDeletes ∧
    (s.Due → env.refused (s.removeCalls + s.pendingDeletes.elems.idxOf name) = true)

instance : Decidable (s.StillParked env name) := inferInstanceAs (Decidable (_ ∧ (_ → _)))

/-- The number of the remove call after the retry that comes next. -/
def nextRemove (s : FsCore) : Nat :=
  s.removeCalls + if s.Due then s.pendingDeletes.elems.length else 0

theorem deletePendingFiles_visible (env : Env) (s : FsCore) :
    (s.deletePendingFiles env).1.visible = s.visible :=
  deleteAll_visible _ s (fun _ h => h) s.pendingDeletes.nodup

theorem maybeDeletePendingFiles_due (h : s.Due) :
    s.maybeDeletePendingFiles env =
      deletePendingFiles env { s with opsSinceLastDelete := 0 } := by
  rw [maybeDeletePendingFiles, if_neg (fun h0 => h.1 (List.length_eq_zero_iff.mp h0)),
    if_pos h.2]

theorem maybeDeletePendingFiles_not_due (env : Env) (h : ¬ s.Due) :
    ∃ n, s.maybeDeletePendingFiles env = ({ s with opsSinceLastDelete := n }, .ok ()) := by
  rw [maybeDeletePendingFiles]
  split
  · exact ⟨s.opsSinceLastDelete, rfl⟩
  case isFalse h0 =>
    rw [if_neg (fun hc => h ⟨fun hn => h0 (List.length_eq_zero_iff.mpr hn), hc⟩)]
    exact ⟨_, rfl⟩

/-- The retry from inside another call. -/
theorem maybeDeletePendingFiles_spec (env : Env) (s : FsCore) :
    (s.maybeDeletePendingFiles env).1.visible = s.visible ∧
    ((s.maybeDeletePendingFiles env).2 = .ok () ↔ RoundClean env s) ∧
    ((s.maybeDeletePendingFiles env).2 = .ok () →
      (s.maybeDeletePendingFiles env).1.removeCalls = s.nextRemove ∧
      ∀ n, (n ∈ (s.maybeDeletePendingFiles env).1.pendingDeletes ↔ StillParked env s n) ∧
        (StillParked env s n → (n ∈ (s.maybeDeletePendingFiles env).1.files ↔
          n ∈ s.files))) := by
  by_cases hd : s.Due
  · rw [maybeDeletePendingFiles_due hd]
    set s0 : FsCore := { s with opsSinceLastDelete := 0 }
    refine ⟨deletePendingFiles_visible env s0, ?_, fun hok => ?_⟩
    · exact (deleteAll_ok _ s0 s.pendingDeletes.nodup).trans
        ⟨fun h _ => h, fun h => h hd⟩
    · have hr := deleteAll_retried _ s0 s.pendingDeletes.nodup (fun _ h => h) hok
      have hmem : ∀ n, n ∈ (deletePendingFiles env s0).1.pendingDeletes ↔
          StillParked env s n := by
        intro n
        refine (hr.mem_pending n).trans (and_congr_right fun hn => ?_)
        exact ⟨fun h _ => h hn, fun h _ => h hd⟩
      refine ⟨?_, fun n => ⟨hmem n, fun hn => ?_⟩⟩
      · rw [nextRemove, if_pos hd]
        exact hr.removeCalls
      · rw [← AList.lookup_isSome, ← AList.lookup_isSome]
        exact Eq.to_iff (congrArg (Option.isSome · = true) (hr.lookup n ((hmem n).mpr hn)))
  · obtain ⟨c, hc⟩ := maybeDeletePendingFiles_not_due env hd
    rw [hc]
    refine ⟨rfl, ⟨fun _ h => absurd h hd, fun _ => rfl⟩, fun _ => ⟨?_, fun n => ⟨?_, fun _ => Iff.rfl⟩⟩⟩
    · rw [nextRemove, if_neg hd]
      rfl
    · exact ⟨fun h => ⟨h, fun h' => absurd h' hd⟩, And.left⟩

/-- The retries make no new names. -/
structure Shrinks (s t : FsCore) : Prop where
  files : ∀ n ∈ t.files, n ∈ s.files
  pending : ∀ n ∈ t.pendingDeletes, n ∈ s.pendingDeletes
  counter : t.nextTempFileCounter = s.nextTempFileCounter

theorem privateDeleteFile_shrinks (env : Env) (b : Bool) (h : name ∈ s.pendingDeletes) :
    Shrinks s (s.privateDeleteFile env name b).1 := by
  refine ⟨fun n hn => ?_, fun n hn => ?_, ?_⟩
  · rw [← AList.lookup_isSome, lookup_privateDeleteFile] at hn
    split at hn
    · cases hn
    · exact AList.lookup_isSome.mp hn
  · rw [mem_pending_privateDeleteFile] at hn
    split at hn
    case isTrue heq => exact heq ▸ h
    case isFalse => exact hn
  · simp only [privateDeleteFile]
    split
    · rfl
    · split <;> rfl

theorem deleteAll_shrinks (env : Env) : ∀ (names : List String) (s : FsCore),
    (∀ n ∈ names, n ∈ s.pendingDeletes) → names.Nodup →
    Shrinks s (deleteAll env s names).1
  | [], s, _, _ => ⟨fun _ h => h, fun _ h => h, rfl⟩
  | name :: names, s, hp, hnd => by
    obtain ⟨hname, hnd'⟩ := List.nodup_cons.mp hnd
    have hone := privateDeleteFile_shrinks env true (hp name List.mem_cons_self)
    have hp' : ∀ n ∈ names,
        n ∈ (s.privateDeleteFile env name true).1.pendingDeletes := by
      intro n hn
      rw [mem_pending_privateDeleteFile, if_neg (ne_of_mem_of_not_mem hn hname)]
      exact hp n (List.mem_cons_of_mem _ hn)
    rw [deleteAll]
    split
    case h_1 s1 heq =>
      rw [heq] at hone hp'
      have ih := deleteAll_shrinks env names s1 hp' hnd'
      exact ⟨fun n hn => hone.files n (ih.files n hn),
        fun n hn => hone.pending n (ih.pending n hn), ih.counter.trans hone.counter⟩
    case h_2 s1 e heq =>
      rw [heq] at hone
      exact hone

theorem maybeDeletePendingFiles_shrinks (env : Env) (s : FsCore) :
    Shrinks s (s.maybeDeletePendingFiles env).1 := by
  by_cases hd : s.Due
  · rw [maybeDeletePendingFiles_due hd]
    have h := deleteAll_shrinks env _ { s with opsSinceLastDelete := 0 }
      (fun _ h => h) s.pendingDeletes.nodup
    exact ⟨h.files, h.pending, h.counter⟩
  · obtain ⟨c, hc⟩ := maybeDeletePendingFiles_not_due env hd
    rw [hc]
    exact ⟨fun _ h => h, fun _ h => h, rfl⟩

/-! ## Bringing a name back to life -/

theorem mem_pending_revive (env : Env) (s : FsCore) (name n : String) :
    n ∈ (s.revive env name).1.pendingDeletes ↔ n ≠ name ∧ n ∈ s.pendingDeletes := by
  rw [revive]
  split
  case isTrue h =>
    have hpend := mem_pending_privateDeleteFile env (s.unpark name) name true n
    have hok := privateDeleteFile_ok env (s.unpark name) name true
    split
    case h_1 s1 heq =>
      rw [heq] at hpend
      simp only [unpark, BTreeSet.mem_remove] at hpend ⊢
      rw [hpend]
      by_cases hn : n = name <;> simp [hn]
    case h_2 s1 e heq =>
      rw [heq] at hpend hok
      have hr : env.refused s.removeCalls = false :=
        Bool.eq_false_iff.mpr fun hr => absurd (hok.mpr (.inl hr)) (by simp)
      simp only [unpark, BTreeSet.mem_remove] at hpend ⊢
      rw [hpend]
      by_cases hn : n = name <;> simp [hn, hr]
  case isFalse h =>
    rw [isPending_iff] at h
    exact ⟨fun hn => ⟨ne_of_mem_of_not_mem hn h, hn⟩, And.right⟩

theorem lookup_revive (env : Env) (s : FsCore) (name n : String) :
    (s.revive env name).1.files.lookup n =
      if n = name ∧ name ∈ s.pendingDeletes ∧ env.refused s.removeCalls = false then none
      else s.files.lookup n := by
  rw [revive]
  split
  case isTrue h =>
    have hlook := lookup_privateDeleteFile env (s.unpark name) name true n
    rw [isPending_iff] at h
    split
    case h_1 s1 heq =>
      rw [heq] at hlook
      simp only [unpark] at hlook ⊢
      rw [hlook]
      exact if_congr (by simp only [h, true_and]) rfl rfl
    case h_2 s1 e heq =>
      rw [heq] at hlook
      simp only [unpark] at hlook ⊢
      rw [hlook]
      exact if_congr (by simp only [h, true_and]) rfl rfl
  case isFalse h =>
    rw [isPending_iff] at h
    rw [if_neg (fun hn => h hn.2.1)]

theorem revive_ok (env : Env) (s : FsCore) (name : String) :
    (s.revive env name).2 = .ok () ↔ (name ∈ s.pendingDeletes →
      env.refused s.removeCalls = true ∨ name ∈ s.files ∨ env.windows = true) := by
  rw [revive]
  split
  case isTrue h =>
    rw [isPending_iff] at h
    have hok := privateDeleteFile_ok env (s.unpark name) name true
    rw [Bool.true_and] at hok
    split
    case h_1 s1 heq =>
      rw [heq] at hok
      exact ⟨fun _ _ => hok.mp rfl, fun _ => rfl⟩
    case h_2 s1 e heq =>
      rw [heq] at hok
      exact ⟨fun he => absurd he (by simp), fun hr => absurd (hok.mpr (hr h)) (by simp)⟩
  case isFalse h =>
    rw [isPending_iff] at h
    exact ⟨fun _ hp => absurd hp h, fun _ => rfl⟩

theorem not_mem_pending_revive (env : Env) (s : FsCore) (name : String) :
    name ∉ (s.revive env name).1.pendingDeletes :=
  fun h => ((mem_pending_revive env s name name).mp h).1 rfl

/-- Whether the name is there afterwards: a pending name is when its delete is
refused once more. -/
theorem mem_files_revive (env : Env) (s : FsCore) (name : String) :
    name ∈ (s.revive env name).1.files ↔ name ∈ s.files ∧
      (name ∈ s.pendingDeletes → env.refused s.removeCalls = true) := by
  rw [← AList.lookup_isSome, lookup_revive]
  by_cases hp : name ∈ s.pendingDeletes
  · cases hr : env.refused s.removeCalls <;> simp [hp, AList.lookup_isSome]
  · simp [hp, AList.lookup_isSome]

/-- Only the name itself may come into sight. -/
theorem visible_revive (env : Env) (s : FsCore) (name : String) :
    (s.revive env name).1.visible =
      Function.update s.visible name ((s.revive env name).1.files.lookup name) := by
  funext n
  by_cases hn : n = name
  · subst hn
    rw [Function.update_self, visible_of_not_pending (not_mem_pending_revive env s n)]
  · rw [Function.update_of_ne hn]
    refine visible_congr ?_ ?_
    · rw [mem_pending_revive]
      exact ⟨And.right, fun h => ⟨hn, h⟩⟩
    · rw [lookup_revive, if_neg (fun h => hn h.1)]

/-- The name comes into sight just when its file cannot be deleted. -/
theorem visible_revive_eq_iff (env : Env) (s : FsCore) (name : String) :
    (s.revive env name).1.visible = s.visible ↔
      ¬ (name ∈ s.pendingDeletes ∧ env.refused s.removeCalls = true ∧ name ∈ s.files) := by
  have hmem := mem_files_revive env s name
  have hupd : (s.revive env name).1.visible = s.visible ↔
      (s.revive env name).1.files.lookup name = s.visible name := by
    rw [visible_revive, Function.update_eq_iff]
    exact ⟨And.left, fun h => ⟨h, fun _ _ => rfl⟩⟩
  rw [hupd]
  by_cases hp : name ∈ s.pendingDeletes
  · rw [visible_of_pending hp, AList.lookup_eq_none, hmem]
    exact not_congr ⟨fun h => ⟨hp, h.2 hp, h.1⟩, fun h => ⟨h.2.2, fun _ => h.2.1⟩⟩
  · rw [lookup_revive, if_neg (fun h => hp h.2.1), visible_of_not_pending hp]
    exact ⟨fun _ h => hp h.1, fun _ => rfl⟩

end FsCore

end LuceneRust.Store
