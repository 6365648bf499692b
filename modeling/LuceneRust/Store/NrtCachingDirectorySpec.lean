import LuceneRust.Store.NrtCachingDirectory

/-!
# `NrtCachingDirectory` is one flat directory

`view` is the one directory that a caller sees, and `effect` is what a call does to it.
The calls that move files between the two stores keep the view (`Moved`), and every call
has exactly its effect, also when calls of the delegate fail on the way (`call_ok`).

There are two exceptions.  A copy to the delegate whose output fails to close is deleted
there, and if that fails, too, the file stays in both stores (`Call.strands`).  And `close`
sets its flag before it moves anything: a later `close` returns at once, and leaves what is
in the cache by then (`runs_lose_no_file`).
-/

namespace LuceneRust.Store.NrtCachingDirectory

open RustSem StateHoare

variable {fails : Nat → Bool} {s t : NrtCachingDirectory} {name : String}

/-- The directory as its callers see it. -/
def view (s : NrtCachingDirectory) (name : String) : Option FileEntry :=
  (s.cache.lookup name).or (s.inner.lookup name)

theorem view_of_mem (h : name ∈ s.cache) : s.view name = s.cache.lookup name := by
  obtain ⟨entry, he⟩ := Option.isSome_iff_exists.1 (AList.lookup_isSome.2 h)
  rw [view, he, Option.some_or]

theorem view_of_not_mem (h : name ∉ s.cache) : s.view name = s.inner.lookup name := by
  rw [view, AList.lookup_eq_none.2 h, Option.none_or]

theorem view_eq_none : s.view name = none ↔ name ∉ s.cache ∧ name ∉ s.inner := by
  rw [view, Option.or_eq_none_iff, AList.lookup_eq_none, AList.lookup_eq_none]

theorem view_insert_cache {entry : FileEntry} (hc : t.cache = s.cache.insert name entry)
    (hi : t.inner = s.inner) : t.view = Function.update s.view name (some entry) := by
  funext n
  rw [view, hc, hi]
  by_cases hn : n = name
  · rw [hn, Function.update_self, AList.lookup_insert, Option.some_or]
  · rw [Function.update_of_ne hn, AList.lookup_insert_ne hn, view]

theorem view_insert_inner {entry : FileEntry} (hc : t.cache = s.cache)
    (hi : t.inner = s.inner.insert name entry) (hname : name ∉ s.cache) :
    t.view = Function.update s.view name (some entry) := by
  funext n
  rw [view, hc, hi]
  by_cases hn : n = name
  · rw [hn, Function.update_self, AList.lookup_insert, AList.lookup_eq_none.2 hname, Option.none_or]
  · rw [Function.update_of_ne hn, AList.lookup_insert_ne hn, view]

theorem view_erase_cache (hc : t.cache = s.cache.erase name) (hi : t.inner = s.inner)
    (hname : name ∉ s.inner) : t.view = Function.update s.view name none := by
  funext n
  rw [view, hc, hi]
  by_cases hn : n = name
  · rw [hn, Function.update_self, AList.lookup_erase, AList.lookup_eq_none.2 hname, Option.none_or]
  · rw [Function.update_of_ne hn, AList.lookup_erase_ne hn, view]

theorem view_erase_inner (hc : t.cache = s.cache) (hi : t.inner = s.inner.erase name)
    (hname : name ∉ s.cache) : t.view = Function.update s.view name none := by
  funext n
  rw [view, hc, hi]
  by_cases hn : n = name
  · rw [hn, Function.update_self, AList.lookup_erase, AList.lookup_eq_none.2 hname, Option.none_or]
  · rw [Function.update_of_ne hn, AList.lookup_erase_ne hn, view]

/-! ## The bytes in the cache -/

/-- The bytes of the closed files among `files`. -/
def bytesOf (files : Entries) : Nat := (files.entries.map fun file => file.2.length).sum

theorem bytesOf_erase {files : Entries} {entry : FileEntry} (h : files.lookup name = some entry) :
    bytesOf files = entry.length + bytesOf (files.erase name) := by
  have hmem : name ∈ files.entries.keys :=
    AList.mem_keys.1 (AList.lookup_isSome.1 (by rw [h]; rfl))
  obtain ⟨b, l₁, l₂, -, hsplit, herase⟩ := List.exists_of_kerase hmem
  have hb : files.lookup name = some b := by
    rw [AList.lookup, ← Option.mem_def, List.mem_dlookup_iff files.nodupKeys, hsplit]
    exact List.mem_append_right _ List.mem_cons_self
  rw [h] at hb
  cases hb
  change (files.entries.map _).sum = _ + ((files.entries.kerase name).map _).sum
  rw [herase, hsplit]
  simp only [List.map_append, List.map_cons, List.sum_append, List.sum_cons]
  omega

theorem bytesOf_insert (files : Entries) (name : String) (entry : FileEntry) :
    bytesOf (files.insert name entry) = entry.length + bytesOf (files.erase name) := by
  rw [bytesOf, AList.entries_insert, List.map_cons, List.sum_cons]
  rfl

theorem bytesOf_insert_new {files : Entries} (h : name ∉ files) (entry : FileEntry) :
    bytesOf (files.insert name entry) = entry.length + bytesOf files := by
  rw [bytesOf, AList.entries_insert_of_notMem h, List.map_cons, List.sum_cons]
  rfl

/-! ## Moving files -/

/-- Every file is in one place, and the size of the cache is the bytes in it. -/
structure Sound (s : NrtCachingDirectory) : Prop where
  onePlace : ∀ n, n ∈ s.cache → n ∉ s.inner
  size : s.cacheSize = bytesOf s.cache

/-- Some closed files have moved to the delegate. -/
structure Moved (s t : NrtCachingDirectory) : Prop where
  sound : Sound t
  view : t.view = s.view
  nextId : s.nextId ≤ t.nextId
  closed : t.closed = s.closed
  shrinks : ∀ n, n ∈ t.cache → n ∈ s.cache
  writing : ∀ n id, s.view n = some (.writing id) → (n ∈ t.cache ↔ n ∈ s.cache)

theorem Moved.refl (h : Sound s) : Moved s s := ⟨h, rfl, le_rfl, rfl, fun _ => id, fun _ _ _ => Iff.rfl⟩

theorem Moved.trans {u : NrtCachingDirectory} (h : Moved s t) (h' : Moved t u) : Moved s u where
  sound := h'.sound
  view := h'.view.trans h.view
  nextId := h.nextId.trans h'.nextId
  closed := h'.closed.trans h.closed
  shrinks := fun n hn => h.shrinks n (h'.shrinks n hn)
  writing := fun n id hn => (h'.writing n id (by rw [h.view]; exact hn)).trans (h.writing n id hn)

/-- The directory after one more call of the delegate. -/
def called (s : NrtCachingDirectory) : NrtCachingDirectory :=
  { s with innerCalls := s.innerCalls + 1 }

theorem Moved.called (h : Sound s) : Moved s s.called :=
  ⟨⟨h.onePlace, h.size⟩, rfl, le_rfl, rfl, fun _ => id, fun _ _ _ => Iff.rfl⟩

/-- A call of the delegate fails and changes nothing, or does what it says. -/
theorem delegateCall_cases {α : Type} (fails : Nat → Bool) (s : NrtCachingDirectory)
    (f : Entries → Except IoError (α × Entries)) :
    (∃ e, delegateCall fails f s = (.err e, s.called) ∧
      (fails s.innerCalls = true ∨ ∃ e, f s.inner = .error e)) ∨
    ∃ a inner, f s.inner = .ok (a, inner) ∧
      delegateCall fails f s = (.ok a, { s.called with inner := inner }) := by
  unfold delegateCall
  dsimp only
  split
  next hfail => exact .inl ⟨_, rfl, .inl hfail⟩
  next =>
    cases hf : f s.inner with
    | error e => exact .inl ⟨_, rfl, .inr ⟨e, rfl⟩⟩
    | ok r => exact .inr ⟨r.1, r.2, rfl, rfl⟩

theorem removeEntry_of_lookup {entry : FileEntry} (h : s.cache.lookup name = some entry) :
    removeEntry name s =
      { s with cache := s.cache.erase name, cacheSize := s.cacheSize - entry.length } := by
  rw [removeEntry, h]

theorem delegateCall_fails {α : Type} (f : Entries → Except IoError (α × Entries))
    (h : fails s.innerCalls = true) : ∃ e, delegateCall fails f s = (.err e, s.called) :=
  ⟨_, if_pos h⟩

theorem delegateCall_ok {α : Type} {f : Entries → Except IoError (α × Entries)} {a : α}
    {inner : Entries} (h : fails s.innerCalls = false) (hf : f s.inner = .ok (a, inner)) :
    delegateCall fails f s = (.ok a, { s.called with inner := inner }) := by
  rw [delegateCall, if_neg (by rw [h]; exact Bool.false_ne_true), hf]
  rfl

/-- The delegate has an output for the file. -/
def withOutput (name : String) (s : NrtCachingDirectory) : NrtCachingDirectory :=
  { s.called with inner := s.inner.insert name (.writing s.nextId), nextId := s.nextId + 1 }

theorem createInner_ok (h : fails s.innerCalls = false) (hname : name ∉ s.inner) :
    createInner fails name s = (.ok ⟨name, s.nextId, false⟩, s.withOutput name) := by
  have hcreate : delegateCall fails (Delegate.createOutput name s.nextId) s =
      (.ok (), { s.called with inner := s.inner.insert name (.writing s.nextId) }) :=
    delegateCall_ok h (by rw [Delegate.createOutput, if_neg hname])
  rw [createInner, get_bind, bind_ok hcreate]
  rfl

theorem createInner_err (name : String) (h : fails s.innerCalls = true) :
    ∃ e, createInner fails name s = (.err e, s.called) := by
  obtain ⟨e, he⟩ := delegateCall_fails (Delegate.createOutput name s.nextId) h
  exact ⟨e, by rw [createInner, get_bind, bind_err he]⟩

/-- The file is in the delegate, too. -/
def withCopy (name : String) (bytes : List U8) (s : NrtCachingDirectory) : NrtCachingDirectory :=
  { (s.withOutput name).called with inner := s.inner.insert name (.closed bytes) }

theorem closeOutput_withOutput (bytes : List U8) (h : fails (s.innerCalls + 1) = false) :
    closeOutput fails ⟨name, s.nextId, false⟩ bytes (s.withOutput name) =
      (.ok (), s.withCopy name bytes) := by
  refine delegateCall_ok h ?_
  have hfind : (s.withOutput name).inner.entries.find? (fun file => file.2 = .writing s.nextId) =
      some ⟨name, .writing s.nextId⟩ := by
    rw [withOutput, AList.entries_insert, List.find?_cons_of_pos (by simp)]
  rw [Delegate.closeOutput, hfind]
  change Except.ok ((), AList.insert name _ (AList.insert name _ s.inner)) = _
  rw [AList.insert_insert]

/-- A file that `copy_from` has failed to copy is deleted. -/
theorem copyFrom_err {e : NrtError} (hcopy : copyFile fails name s = (.err e, t)) :
    copyFrom fails name s = (.err e, (delegateCall fails (Delegate.deleteFile name) t).2) := by
  have hattempt : Op.attempt (copyFile fails name) s = (.ok (.error e), t) := by
    rw [Op.attempt, hcopy]
  rw [copyFrom, bind_ok hattempt]
  dsimp only
  rcases delegateCall_cases fails t (Delegate.deleteFile name) with
    ⟨e', hdelete, -⟩ | ⟨a, inner, -, hdelete⟩
  · have hdeleted : Op.attempt (delegateCall fails (Delegate.deleteFile name)) t =
        (.ok (.error e'), t.called) := by rw [Op.attempt, hdelete]
    rw [bind_ok hdeleted, hdelete]
    rfl
  · have hdeleted : Op.attempt (delegateCall fails (Delegate.deleteFile name)) t =
        (.ok (.ok a), { t.called with inner := inner }) := by rw [Op.attempt, hdelete]
    rw [bind_ok hdeleted, hdelete]
    rfl

/-- The delete of a file that is not there. -/
theorem moved_delete (hs : Sound s) (hname : name ∉ s.inner) :
    Moved s (delegateCall fails (Delegate.deleteFile name) s).2 := by
  rcases delegateCall_cases fails s (Delegate.deleteFile name) with
    ⟨e, hdelete, -⟩ | ⟨a, inner, hok, -⟩
  · rw [hdelete]
    exact .called hs
  · rw [Delegate.deleteFile, if_neg hname] at hok
    cases hok

/-- The delete of an output that could not be closed. -/
theorem moved_undo (hs : Sound s) (hname : name ∈ s.cache)
    (h : fails (s.innerCalls + 2) = false) :
    Moved s (delegateCall fails (Delegate.deleteFile name) (s.withOutput name).called).2 := by
  have hmem : name ∈ s.inner.insert name (.writing s.nextId) := (AList.mem_insert _).2 (.inl rfl)
  have hdelete : delegateCall fails (Delegate.deleteFile name) (s.withOutput name).called =
      (.ok (), { (s.withOutput name).called.called with
        inner := (s.inner.insert name (.writing s.nextId)).erase name }) :=
    delegateCall_ok h (if_pos hmem)
  rw [hdelete]
  refine ⟨⟨fun n hn hin => ?_, hs.size⟩, ?_, Nat.le_succ _, rfl, fun _ => id, fun _ _ _ => Iff.rfl⟩
  · obtain ⟨hne, hin⟩ := AList.mem_erase.1 hin
    exact hs.onePlace n hn (((AList.mem_insert _).1 hin).resolve_left hne)
  · funext n
    change (AList.lookup n s.cache).or (AList.lookup n (AList.erase name (AList.insert name _ s.inner))) = _
    by_cases hn : n = name
    · rw [hn, AList.lookup_erase, view, AList.lookup_eq_none.2 (hs.onePlace name hname)]
    · rw [AList.lookup_erase_ne hn, AList.lookup_insert_ne hn, view]

/-- A file is in both stores. -/
def Stranded (s : NrtCachingDirectory) : Prop := ∃ n, n ∈ s.cache ∧ n ∈ s.inner

theorem stranded_undo (hname : name ∈ s.cache) (h : fails (s.innerCalls + 2) = true) :
    Stranded (delegateCall fails (Delegate.deleteFile name) (s.withOutput name).called).2 := by
  obtain ⟨e, he⟩ := delegateCall_fails (s := (s.withOutput name).called) (Delegate.deleteFile name) h
  rw [he]
  exact ⟨name, hname, (AList.mem_insert _).2 (.inl rfl)⟩

/-- The copied file leaves the cache. -/
theorem moved_copy (h : Sound s) {bytes : List U8}
    (hlook : s.cache.lookup name = some (.closed bytes)) :
    Moved s (removeEntry name (s.withCopy name bytes)) := by
  rw [removeEntry_of_lookup (s := s.withCopy name bytes) hlook]
  have hmem : name ∈ s.cache := AList.lookup_isSome.1 (by rw [hlook]; rfl)
  refine ⟨⟨?_, ?_⟩, ?_, Nat.le_succ _, rfl, ?_, ?_⟩
  · intro n hn
    obtain ⟨hne, hn⟩ := AList.mem_erase.1 hn
    change n ∉ s.inner.insert name _
    rw [AList.mem_insert, not_or]
    exact ⟨hne, h.onePlace n hn⟩
  · have := h.size
    have := bytesOf_erase hlook
    dsimp only [withCopy, withOutput, called]
    omega
  · funext n
    change (AList.lookup n (s.cache.erase name)).or (AList.lookup n (s.inner.insert name _)) = _
    by_cases hn : n = name
    · rw [hn, AList.lookup_erase, AList.lookup_insert, Option.none_or, view_of_mem hmem, hlook]
    · rw [AList.lookup_erase_ne hn, AList.lookup_insert_ne hn, view]
  · intro n hn
    exact (AList.mem_erase.1 hn).2
  · intro n id hn
    have hne : n ≠ name := by
      rintro rfl
      rw [view_of_mem hmem, hlook] at hn
      cases hn
    change n ∈ s.cache.erase name ↔ _
    rw [AList.mem_erase]
    exact ⟨fun h => h.2, fun h => ⟨hne, h⟩⟩

/-- Whether a copy of `names` to the delegate, from the call `k` on, ends with an output
that can neither be closed nor deleted.  A copy that fails is the last one. -/
def strandsCopy (fails : Nat → Bool) : List String → Entries → Nat → Bool
  | [], _, _ => false
  | name :: names, cache, k =>
    match cache.lookup name with
    | none => strandsCopy fails names cache k
    | some (.writing _) => false
    | some (.closed _) =>
      if fails k then false
      else if fails (k + 1) then fails (k + 2)
      else strandsCopy fails names (cache.erase name) (k + 2)

/-- `un_cache` of a file that is not in the cache does nothing. -/
theorem unCache_skip (hname : name ∉ s.cache) : unCache fails name s = (.ok (), s) := by
  rw [unCache, get_bind, decide_eq_false hname]
  rfl

theorem unCache_eq (hs : Sound s) (hname : name ∈ s.cache) :
    unCache fails name s =
      (copyFrom fails name >>= fun _ => Op.modify (removeEntry name)) s := by
  rw [unCache, get_bind, decide_eq_true hname]
  change (Op.get inner >>= _) s = _
  rw [get_bind, guardOk_pos (hs.onePlace name hname)]
  rfl

/-- A file that is still written to can't be copied. -/
theorem unCache_writing (fails : Nat → Bool) (hs : Sound s) {id : Nat}
    (hlook : s.cache.lookup name = some (.writing id)) :
    ∃ e t, unCache fails name s = (.err e, t) ∧ Moved s t := by
  have hmem : name ∈ s.cache := AList.lookup_isSome.1 (by rw [hlook]; rfl)
  have hopen : cacheCall (fun cache => ByteBuffersDirectory.openFile cache name) s =
      (.err (.io ⟨.other, "Can't open a file still open for writing: " ++ name⟩), s) := by
    rw [cacheCall, ByteBuffersDirectory.openFile, hlook]
  have hcopy := copyFrom_err (bind_err hopen : copyFile fails name s = _)
  exact ⟨_, _, (unCache_eq hs hmem).trans (bind_err hcopy), moved_delete hs (hs.onePlace name hmem)⟩

/-- The copy of a closed file: it succeeds, it fails and leaves nothing behind, or it
strands the file. -/
theorem unCache_closed (fails : Nat → Bool) (hs : Sound s) {bytes : List U8}
    (hlook : s.cache.lookup name = some (.closed bytes)) :
    if fails s.innerCalls then ∃ e t, unCache fails name s = (.err e, t) ∧ Moved s t
    else if fails (s.innerCalls + 1) then
      ∃ e t, unCache fails name s = (.err e, t) ∧
        if fails (s.innerCalls + 2) then Stranded t else Moved s t
    else unCache fails name s = (.ok (), removeEntry name (s.withCopy name bytes)) := by
  have hmem : name ∈ s.cache := AList.lookup_isSome.1 (by rw [hlook]; rfl)
  have hinner : name ∉ s.inner := hs.onePlace name hmem
  have hopen : cacheCall (fun cache => ByteBuffersDirectory.openFile cache name) s =
      (.ok bytes, s) := by rw [cacheCall, ByteBuffersDirectory.openFile, hlook]
  have hcopy : copyFile fails name s =
      (createInner fails name >>= fun output => closeOutput fails output bytes) s := bind_ok hopen
  split
  next hcreate =>
    obtain ⟨e, he⟩ := createInner_err name hcreate
    have hrun := copyFrom_err (hcopy.trans (bind_err he))
    have hcalled := Moved.called hs
    exact ⟨_, _, (unCache_eq hs hmem).trans (bind_err hrun),
      hcalled.trans (moved_delete hcalled.sound hinner)⟩
  next hcreate =>
    have hok := createInner_ok (by simpa using hcreate) hinner
    rw [bind_ok hok] at hcopy
    split
    next hclose =>
      obtain ⟨e, he⟩ := delegateCall_fails (s := s.withOutput name)
        (Delegate.closeOutput s.nextId bytes) hclose
      have hrun := copyFrom_err (hcopy.trans he)
      refine ⟨_, _, (unCache_eq hs hmem).trans (bind_err hrun), ?_⟩
      split
      next hdelete => exact stranded_undo hmem hdelete
      next hdelete => exact moved_undo hs hmem (by simpa using hdelete)
    next hclose =>
      have hclosed := hcopy.trans (closeOutput_withOutput bytes (by simpa using hclose))
      have hattempt : Op.attempt (copyFile fails name) s = (.ok (.ok ()), s.withCopy name bytes) := by
        rw [Op.attempt, hclosed]
      have hrun : copyFrom fails name s = (.ok (), s.withCopy name bytes) := by
        rw [copyFrom, bind_ok hattempt]
        rfl
      rw [unCache_eq hs hmem, bind_ok hrun]
      rfl

/-- A list of names leaves the cache, and also when that fails the view is the same, unless
a file is stranded. -/
theorem unCacheAll_cases (fails : Nat → Bool) (names : List String) (hs : Sound s) :
    if strandsCopy fails names s.cache s.innerCalls then
      ∃ e t, names.forM (unCache fails) s = (.err e, t) ∧ Stranded t
    else
      (∃ e t, names.forM (unCache fails) s = (.err e, t) ∧ Moved s t) ∨
        ∃ t, names.forM (unCache fails) s = (.ok (), t) ∧ Moved s t ∧ ∀ n ∈ names, n ∉ t.cache := by
  induction names generalizing s with
  | nil => exact .inr ⟨s, rfl, .refl hs, fun _ h => absurd h List.not_mem_nil⟩
  | cons name names ih =>
    have hrun : (name :: names).forM (unCache fails) s =
        (unCache fails name >>= fun _ => names.forM (unCache fails)) s := rfl
    -- the rest of the names, from the state behind the first one
    have hrest : ∀ t, unCache fails name s = (.ok (), t) → Moved s t → name ∉ t.cache →
        if strandsCopy fails names t.cache t.innerCalls then
          ∃ e u, (name :: names).forM (unCache fails) s = (.err e, u) ∧ Stranded u
        else
          (∃ e u, (name :: names).forM (unCache fails) s = (.err e, u) ∧ Moved s u) ∨
            ∃ u, (name :: names).forM (unCache fails) s = (.ok (), u) ∧ Moved s u ∧
              ∀ n ∈ name :: names, n ∉ u.cache := by
      intro t ht hm hout
      have h := ih hm.sound
      rw [hrun, bind_ok ht]
      by_cases hstrands : strandsCopy fails names t.cache t.innerCalls = true
      · rw [if_pos hstrands] at h ⊢
        exact h
      · rw [if_neg hstrands] at h ⊢
        refine h.imp (fun ⟨e, u, hu, hmu⟩ => ⟨e, u, hu, hm.trans hmu⟩) fun ⟨u, hu, hmu, hnot⟩ => ?_
        refine ⟨u, hu, hm.trans hmu, fun n hn => ?_⟩
        rcases List.mem_cons.1 hn with rfl | hn
        · exact fun h => hout (hmu.shrinks n h)
        · exact hnot n hn
    rw [strandsCopy]
    cases hlook : s.cache.lookup name with
    | none =>
      have hnot := AList.lookup_eq_none.1 hlook
      exact hrest s (unCache_skip hnot) (.refl hs) hnot
    | some entry =>
      cases entry with
      | writing id =>
        obtain ⟨e, t, ht, hm⟩ := unCache_writing fails hs hlook
        exact .inl ⟨e, t, hrun.trans (bind_err ht), hm⟩
      | closed bytes =>
        have hone := unCache_closed fails hs hlook
        dsimp only
        split at hone
        next hcreate =>
          rw [if_pos hcreate]
          obtain ⟨e, t, ht, hm⟩ := hone
          exact .inl ⟨e, t, hrun.trans (bind_err ht), hm⟩
        next hcreate =>
          rw [if_neg hcreate]
          split at hone
          next hclose =>
            rw [if_pos hclose]
            obtain ⟨e, t, ht, hend⟩ := hone
            split at hend
            next hdelete =>
              rw [if_pos hdelete]
              exact ⟨e, t, hrun.trans (bind_err ht), hend⟩
            next hdelete =>
              rw [if_neg hdelete]
              exact .inl ⟨e, t, hrun.trans (bind_err ht), hend⟩
          next hclose =>
            rw [if_neg hclose]
            have hstate := removeEntry_of_lookup (s := s.withCopy name bytes) hlook
            have h := hrest _ hone (moved_copy hs hlook) (by
              rw [hstate]
              exact fun h => (AList.mem_erase.1 h).1 rfl)
            rw [hstate] at h
            exact h

/-- The same, for one name. -/
theorem unCache_cases (fails : Nat → Bool) (name : String) (hs : Sound s) :
    if strandsCopy fails [name] s.cache s.innerCalls then
      ∃ e t, unCache fails name s = (.err e, t) ∧ Stranded t
    else
      (∃ e t, unCache fails name s = (.err e, t) ∧ Moved s t) ∨
        ∃ t, unCache fails name s = (.ok (), t) ∧ Moved s t ∧ name ∉ t.cache := by
  have hsingle : [name].forM (unCache fails) s = unCache fails name s := by
    change (unCache fails name >>= fun _ => pure ()) s = _
    rw [Op.bind_apply]
    rcases unCache fails name s with ⟨u | e | -, t⟩ <;> rfl
  have h := unCacheAll_cases fails [name] hs
  rw [hsingle] at h
  simpa only [List.forall_mem_singleton] using h

/-! ## Calls -/

/-- A call on the directory or on one of its outputs. -/
inductive Call where
  | createOutputWithEstimate (name : String) (estimatedBytes : Option Nat)
  | closeOutput (output : Output) (bytes : List U8)
  | openFile (name : String)
  | fileLength (name : String)
  | rename (source dest : String)
  | deleteFile (name : String)
  | sync (names : List String)
  | listAll
  | close
  deriving Repr, DecidableEq

/-- What a call returns. -/
inductive Reply where
  | done
  | output (output : Output)
  | bytes (bytes : List U8)
  | length (n : Nat)
  | names (names : List String)
  deriving Repr, DecidableEq

/-- The call. -/
def call (fails : Nat → Bool) : Call → Prog Reply
  | .createOutputWithEstimate name estimatedBytes => do
    let output ← createOutputWithEstimate fails name estimatedBytes
    pure (.output output)
  | .closeOutput output bytes => do
    closeOutput fails output bytes
    pure .done
  | .openFile name => do
    let bytes ← openFile fails name
    pure (.bytes bytes)
  | .fileLength name => do
    let n ← fileLength fails name
    pure (.length n)
  | .rename source dest => do
    rename fails source dest
    pure .done
  | .deleteFile name => do
    deleteFile fails name
    pure .done
  | .sync names => do
    sync fails names
    pure .done
  | .listAll => do
    let names ← listAll fails
    pure (.names names)
  | .close => do
    close fails
    pure .done

/-- The directory and the outputs that are open. -/
structure World where
  dir : NrtCachingDirectory
  outputs : List Output

abbrev Result := Outcome NrtError Reply

/-- The outputs that are open after a call.  The close of an output takes it, also when it
fails. -/
def outputsAfter (outputs : List Output) : Call → Result → List Output
  | .createOutputWithEstimate _ _, .ok (.output output) => output :: outputs
  | .closeOutput output _, _ => outputs.erase output
  | _, _ => outputs

/-- A call in a world. -/
def World.call (fails : Nat → Bool) (w : World) (c : Call) : Result × World :=
  let r := NrtCachingDirectory.call fails c w.dir
  (r.1, ⟨r.2, outputsAfter w.outputs c r.1⟩)

/-- A new output or the target of a rename has a name that is not in the directory yet, and
an output that is closed is one that is open. -/
def Allowed (w : World) : Call → Prop
  | .createOutputWithEstimate name _ => w.dir.view name = none
  | .closeOutput output _ => output ∈ w.outputs
  | .rename _ dest => w.dir.view dest = none
  | _ => True

instance (w : World) (c : Call) : Decidable (Allowed w c) :=
  match c with
  | .createOutputWithEstimate name _ => inferInstanceAs (Decidable (w.dir.view name = none))
  | .closeOutput output _ => inferInstanceAs (Decidable (output ∈ w.outputs))
  | .rename _ dest => inferInstanceAs (Decidable (w.dir.view dest = none))
  | .openFile _ | .fileLength _ | .deleteFile _ | .sync _ | .listAll | .close =>
    inferInstanceAs (Decidable True)

/-- What a call does to a flat directory: nothing, if it fails. -/
def effect (files : String → Option FileEntry) : Call → Result → String → Option FileEntry
  | .createOutputWithEstimate name _, .ok (.output output) =>
    Function.update files name (some (.writing output.id))
  | .closeOutput output bytes, .ok _ => fun n =>
    if files n = some (.writing output.id) then some (.closed bytes) else files n
  | .rename source dest, .ok _ =>
    Function.update (Function.update files source none) dest (files source)
  | .deleteFile name, .ok _ => Function.update files name none
  | _, _ => files

/-- The open outputs of a directory: each writes to one file at most, an output of the
cache to the file it was created as. -/
structure Open (s : NrtCachingDirectory) (output : Output) : Prop where
  fresh : output.id < s.nextId
  place : ∀ n, s.view n = some (.writing output.id) →
    if output.cached then n = output.name ∧ n ∈ s.cache else n ∉ s.cache

/-- The invariant of the worlds. -/
structure Valid (w : World) : Prop where
  sound : Sound w.dir
  fresh : ∀ n id, w.dir.view n = some (.writing id) → id < w.dir.nextId
  unique : ∀ n m id, w.dir.view n = some (.writing id) → w.dir.view m = some (.writing id) → n = m
  outputs : ∀ output ∈ w.outputs, Open w.dir output

theorem Open.moved {output : Output} (h : Open s output) (hm : Moved s t) : Open t output where
  fresh := h.fresh.trans_le hm.nextId
  place := by
    intro n hn
    rw [hm.view] at hn
    rw [hm.writing n _ hn]
    exact h.place n hn

/-- Calls that only move files. -/
theorem Valid.moved {w : World} (hv : Valid w) (hm : Moved w.dir t) :
    Valid ⟨t, w.outputs⟩ where
  sound := hm.sound
  fresh := by
    rw [hm.view]
    exact fun n id hn => (hv.fresh n id hn).trans_le hm.nextId
  unique := by
    rw [hm.view]
    exact hv.unique
  outputs := fun output ho => (hv.outputs output ho).moved hm

/-- A step that creates no output and writes to no file that was not written to before. -/
theorem Valid.of_less {w : World} {outputs : List Output} (hv : Valid w) (hs : Sound t)
    (hid : w.dir.nextId ≤ t.nextId) (hwriting : ∀ n id, t.view n = some (.writing id) →
      w.dir.view n = some (.writing id) ∧ (n ∈ t.cache ↔ n ∈ w.dir.cache))
    (hout : outputs ⊆ w.outputs) : Valid ⟨t, outputs⟩ where
  sound := hs
  fresh n id hn := (hv.fresh n id (hwriting n id hn).1).trans_le hid
  unique n m id hn hm := hv.unique n m id (hwriting n id hn).1 (hwriting m id hm).1
  outputs output ho := by
    refine ⟨(hv.outputs output (hout ho)).fresh.trans_le hid, fun n hn => ?_⟩
    obtain ⟨hold, hplace⟩ := hwriting n _ hn
    rw [hplace]
    exact (hv.outputs output (hout ho)).place n hold

/-- A call has its effect and keeps the invariant. -/
structure StepOk (fails : Nat → Bool) (w : World) (c : Call) : Prop where
  safe : (w.call fails c).1 ≠ .panic
  valid : Valid (w.call fails c).2
  view : (w.call fails c).2.dir.view = effect w.dir.view c (w.call fails c).1

variable {w : World} {c : Call} {r : Result}

theorem effect_err (files : String → Option FileEntry) (c : Call) (e : NrtError) :
    effect files c (.err e) = files := by
  cases c <;> rfl

theorem outputsAfter_err (outputs : List Output) (c : Call) (e : NrtError) :
    outputsAfter outputs c (.err e) ⊆ outputs := by
  cases c with
  | closeOutput output bytes => exact List.erase_subset
  | _ => exact fun _ h => h

theorem stepOk_of_run (hrun : NrtCachingDirectory.call fails c w.dir = (r, t)) (hr : r ≠ .panic)
    (hv : Valid ⟨t, outputsAfter w.outputs c r⟩) (he : t.view = effect w.dir.view c r) :
    StepOk fails w c := by
  refine ⟨?_, ?_, ?_⟩
  · rw [World.call, hrun]
    exact hr
  · rw [World.call, hrun]
    exact hv
  · rw [World.call, hrun]
    exact he

/-- A call that fails has moved files at most. -/
theorem stepOk_err (hv : Valid w) {e : NrtError}
    (hrun : NrtCachingDirectory.call fails c w.dir = (.err e, t)) (hm : Moved w.dir t) :
    StepOk fails w c := by
  apply stepOk_of_run hrun (fun h => nomatch h) _ (by rw [effect_err, hm.view])
  apply hv.of_less hm.sound hm.nextId _ (outputsAfter_err _ _ _)
  intro n id hn
  rw [hm.view] at hn
  exact ⟨hn, hm.writing n id hn⟩

/-- A call that moves files at most. -/
theorem stepOk_moved (hv : Valid w) {reply : Reply}
    (hrun : NrtCachingDirectory.call fails c w.dir = (.ok reply, t)) (hm : Moved w.dir t)
    (he : effect w.dir.view c (.ok reply) = w.dir.view)
    (ho : outputsAfter w.outputs c (.ok reply) = w.outputs) : StepOk fails w c := by
  apply stepOk_of_run hrun (fun h => nomatch h) _ (by rw [he, hm.view])
  rw [ho]
  exact hv.moved hm

/-- A new output. -/
theorem Valid.create (hv : Valid w) {cached : Bool} (hnone : w.dir.view name = none)
    (hs : Sound t) (hid : t.nextId = w.dir.nextId + 1)
    (hview : t.view = Function.update w.dir.view name (some (.writing w.dir.nextId)))
    (hplace : ∀ n, n ≠ name → (n ∈ t.cache ↔ n ∈ w.dir.cache))
    (hcached : name ∈ t.cache ↔ cached = true) :
    Valid ⟨t, ⟨name, w.dir.nextId, cached⟩ :: w.outputs⟩ := by
  have hold : ∀ n id, t.view n = some (.writing id) →
      (n = name ∧ id = w.dir.nextId) ∨ n ≠ name ∧ w.dir.view n = some (.writing id) := by
    intro n id hn
    rw [hview] at hn
    by_cases hname : n = name
    · rw [hname, Function.update_self] at hn
      cases hn
      exact .inl ⟨hname, rfl⟩
    · rw [Function.update_of_ne hname] at hn
      exact .inr ⟨hname, hn⟩
  refine ⟨hs, fun n id hn => ?_, fun n m id hn hm => ?_, fun output ho => ?_⟩
  · rw [hid]
    rcases hold n id hn with ⟨-, rfl⟩ | ⟨-, hn⟩
    · exact Nat.lt_succ_self _
    · exact Nat.lt_succ_of_lt (hv.fresh n id hn)
  · rcases hold n id hn with ⟨rfl, rfl⟩ | ⟨-, hn'⟩
    · rcases hold m _ hm with ⟨rfl, -⟩ | ⟨-, hm'⟩
      · rfl
      · exact absurd (hv.fresh m _ hm') (lt_irrefl _)
    · rcases hold m _ hm with ⟨-, rfl⟩ | ⟨-, hm'⟩
      · exact absurd (hv.fresh n _ hn') (lt_irrefl _)
      · exact hv.unique n m id hn' hm'
  · rcases List.mem_cons.1 ho with rfl | ho
    · refine ⟨by rw [hid]; exact Nat.lt_succ_self _, fun n hn => ?_⟩
      rcases hold n _ hn with ⟨rfl, -⟩ | ⟨-, hn⟩
      · dsimp only
        cases cached with
        | true => exact ⟨rfl, hcached.2 rfl⟩
        | false => exact fun h => Bool.false_ne_true (hcached.1 h)
      · exact absurd (hv.fresh n _ hn) (lt_irrefl _)
    · have hout := hv.outputs output ho
      refine ⟨by rw [hid]; exact Nat.lt_succ_of_lt hout.fresh, fun n hn => ?_⟩
      rcases hold n _ hn with ⟨-, hid'⟩ | ⟨hne, hn⟩
      · exact absurd hout.fresh (by rw [hid']; exact lt_irrefl _)
      · rw [hplace n hne]
        exact hout.place n hn

theorem create_ok (hv : Valid w) (estimatedBytes : Option Nat)
    (hc : w.dir.view name = none) :
    StepOk fails w (.createOutputWithEstimate name estimatedBytes) := by
  obtain ⟨hcache, hinner⟩ := view_eq_none.1 hc
  have hrun : NrtCachingDirectory.call fails (.createOutputWithEstimate name estimatedBytes)
      w.dir = ((if doCacheWrite w.dir estimatedBytes then createCached name
        else createInner fails name) >>= fun output => pure (.output output)) w.dir := rfl
  by_cases hcached : doCacheWrite w.dir estimatedBytes = true
  · rw [if_pos hcached] at hrun
    have hcreate : createCached name w.dir = (.ok ⟨name, w.dir.nextId, true⟩,
        { w.dir with
          cache := w.dir.cache.insert name (.writing w.dir.nextId),
          nextId := w.dir.nextId + 1 }) := by
      unfold createCached
      rw [get_bind]
      have hnew : cacheCall (fun cache =>
          ByteBuffersDirectory.createOutput cache name w.dir.nextId) w.dir =
          (.ok (w.dir.cache.insert name (.writing w.dir.nextId)), w.dir) := by
        rw [cacheCall, ByteBuffersDirectory.createOutput, if_neg hcache]
      rw [bind_ok hnew]
      rfl
    rw [bind_ok hcreate] at hrun
    have hview := view_insert_cache (s := w.dir) (t := { w.dir with
      cache := w.dir.cache.insert name (.writing w.dir.nextId), nextId := w.dir.nextId + 1 }) rfl rfl
    refine stepOk_of_run hrun (fun h => nomatch h) ?_ hview
    refine hv.create hc ⟨?_, ?_⟩ rfl hview (fun n hn => ?_) ?_
    · intro n hn
      rcases (AList.mem_insert _).1 hn with rfl | hn
      · exact hinner
      · exact hv.sound.onePlace n hn
    · dsimp only
      rw [bytesOf_insert_new hcache, FileEntry.length, Nat.zero_add]
      exact hv.sound.size
    · dsimp only
      rw [AList.mem_insert]
      exact ⟨fun h => h.resolve_left hn, .inr⟩
    · dsimp only
      rw [AList.mem_insert]
      exact ⟨fun _ => rfl, fun _ => .inl rfl⟩
  · rw [if_neg hcached] at hrun
    rcases delegateCall_cases fails w.dir (Delegate.createOutput name w.dir.nextId) with
      ⟨e, hcall, -⟩ | ⟨a, inner, hcreate, hcall⟩
    · have herr : createInner fails name w.dir = (.err e, w.dir.called) := by
        unfold createInner
        rw [get_bind, bind_err hcall]
      rw [bind_err herr] at hrun
      exact stepOk_err hv hrun (Moved.called hv.sound)
    · rw [Delegate.createOutput, if_neg hinner] at hcreate
      cases hcreate
      have hok : createInner fails name w.dir = (.ok ⟨name, w.dir.nextId, false⟩,
          { w.dir.called with
            inner := w.dir.inner.insert name (.writing w.dir.nextId),
            nextId := w.dir.nextId + 1 }) := by
        unfold createInner
        rw [get_bind, bind_ok hcall]
        rfl
      rw [bind_ok hok] at hrun
      have hview := view_insert_inner (s := w.dir) (t := { w.dir.called with
        inner := w.dir.inner.insert name (.writing w.dir.nextId),
        nextId := w.dir.nextId + 1 }) rfl rfl hcache
      refine stepOk_of_run hrun (fun h => nomatch h) ?_ hview
      refine hv.create hc ⟨?_, hv.sound.size⟩ rfl hview (fun n _ => Iff.rfl) ?_
      · intro n hn hin
        rcases (AList.mem_insert _).1 hin with rfl | hin
        · exact hcache hn
        · exact hv.sound.onePlace n hn hin
      · exact ⟨fun h => absurd h hcache, fun h => nomatch h⟩

theorem closeOutput_ok (hv : Valid w) {output : Output} (bytes : List U8)
    (hc : output ∈ w.outputs) : StepOk fails w (.closeOutput output bytes) := by
  have hopen := hv.outputs output hc
  have hrun : NrtCachingDirectory.call fails (.closeOutput output bytes) w.dir =
      (closeOutput fails output bytes >>= fun _ => pure Reply.done) w.dir := rfl
  -- a closed file is written to no more, and the others are the old ones
  have hless : ∀ t, Sound t → t.nextId = w.dir.nextId →
      t.view = effect w.dir.view (.closeOutput output bytes) (.ok .done) →
      (∀ n, n ∈ t.cache ↔ n ∈ w.dir.cache) → Valid ⟨t, w.outputs.erase output⟩ := by
    intro t hs hid hview hcache
    apply hv.of_less hs hid.ge _ List.erase_subset
    intro n id hn
    rw [hview] at hn
    dsimp only [effect] at hn
    split at hn
    · cases hn
    · exact ⟨hn, hcache n⟩
  unfold closeOutput at hrun
  cases hcached : output.cached with
  | true =>
    rw [hcached, if_pos rfl, modify_bind] at hrun
    have hplace : ∀ n, w.dir.view n = some (.writing output.id) →
        n = output.name ∧ n ∈ w.dir.cache := by
      intro n hn
      have := hopen.place n hn
      rwa [hcached, if_pos rfl] at this
    by_cases hlisted : w.dir.cache.lookup output.name = some (.writing output.id)
    · have hmem : output.name ∈ w.dir.cache := AList.lookup_isSome.1 (by rw [hlisted]; rfl)
      have hpub : publish output bytes w.dir = { w.dir with
          cache := w.dir.cache.insert output.name (.closed bytes),
          cacheSize := w.dir.cacheSize + bytes.length } := by
        rw [publish, ByteBuffersDirectory.publish, if_pos hlisted]
      rw [hpub] at hrun
      have hview : view { w.dir with
          cache := w.dir.cache.insert output.name (.closed bytes),
          cacheSize := w.dir.cacheSize + bytes.length } =
          effect w.dir.view (.closeOutput output bytes) (.ok .done) := by
        refine Eq.trans (view_insert_cache (s := w.dir) rfl rfl) ?_
        funext n
        dsimp only [effect]
        by_cases hn : n = output.name
        · rw [hn, Function.update_self, if_pos]
          rw [view_of_mem hmem, hlisted]
        · rw [Function.update_of_ne hn, if_neg]
          exact fun h => hn (hplace n h).1
      refine stepOk_of_run hrun (fun h => nomatch h) (hless _ ⟨fun n hn => ?_, ?_⟩ rfl hview ?_) hview
      · rcases (AList.mem_insert _).1 hn with rfl | hn
        · exact hv.sound.onePlace _ hmem
        · exact hv.sound.onePlace n hn
      · have hsize := hv.sound.size
        have := bytesOf_erase hlisted
        dsimp only
        rw [bytesOf_insert]
        dsimp only [FileEntry.length] at this ⊢
        omega
      · intro n
        dsimp only
        rw [AList.mem_insert]
        exact ⟨fun h => h.elim (fun h => h ▸ hmem) id, .inr⟩
    · have hpub : publish output bytes w.dir = w.dir := by
        rw [publish, ByteBuffersDirectory.publish, if_neg hlisted]
        rfl
      rw [hpub] at hrun
      have hview : w.dir.view = effect w.dir.view (.closeOutput output bytes) (.ok .done) := by
        funext n
        dsimp only [effect]
        rw [if_neg]
        intro h
        obtain ⟨rfl, hmem⟩ := hplace n h
        exact hlisted (by rwa [view_of_mem hmem] at h)
      exact stepOk_of_run hrun (fun h => nomatch h) (hless _ hv.sound rfl hview fun _ => Iff.rfl) hview
  | false =>
    rw [hcached, if_neg Bool.false_ne_true] at hrun
    have hplace : ∀ n, w.dir.view n = some (.writing output.id) → n ∉ w.dir.cache := by
      intro n hn
      have := hopen.place n hn
      rwa [hcached, if_neg Bool.false_ne_true] at this
    rcases delegateCall_cases fails w.dir (Delegate.closeOutput output.id bytes) with
      ⟨e, hcall, -⟩ | ⟨a, inner, hclose, hcall⟩
    · rw [bind_err hcall] at hrun
      exact stepOk_err hv hrun (Moved.called hv.sound)
    · rw [bind_ok hcall] at hrun
      unfold Delegate.closeOutput at hclose
      split at hclose
      next file hfind =>
        cases hclose
        have hentry := List.find?_some hfind
        rw [decide_eq_true_eq] at hentry
        have hlook : w.dir.inner.lookup file.1 = some (.writing output.id) := by
          rw [AList.lookup, ← Option.mem_def, List.mem_dlookup_iff w.dir.inner.nodupKeys, ← hentry]
          exact List.mem_of_find?_eq_some hfind
        have hin : file.1 ∈ w.dir.inner := AList.lookup_isSome.1 (by rw [hlook]; rfl)
        have hnot : file.1 ∉ w.dir.cache := fun h => hv.sound.onePlace _ h hin
        have hview : view { w.dir.called with
            inner := w.dir.inner.insert file.1 (.closed bytes) } =
            effect w.dir.view (.closeOutput output bytes) (.ok .done) := by
          refine Eq.trans (view_insert_inner (s := w.dir) rfl rfl hnot) ?_
          funext n
          dsimp only [effect]
          have hfile : w.dir.view file.1 = some (.writing output.id) := by
            rw [view_of_not_mem hnot, hlook]
          by_cases hn : n = file.1
          · rw [hn, Function.update_self, if_pos hfile]
          · rw [Function.update_of_ne hn, if_neg]
            exact fun h => hn (hv.unique n _ _ h hfile)
        refine stepOk_of_run hrun (fun h => nomatch h)
          (hless _ ⟨fun n hn hin' => ?_, hv.sound.size⟩ rfl hview fun _ => Iff.rfl) hview
        rcases (AList.mem_insert _).1 hin' with rfl | hin'
        · exact hnot hn
        · exact hv.sound.onePlace n hn hin'
      next hfind =>
        cases hclose
        have hview : w.dir.called.view =
            effect w.dir.view (.closeOutput output bytes) (.ok .done) := by
          funext n
          dsimp only [effect]
          rw [if_neg]
          · rfl
          intro h
          rw [view_of_not_mem (hplace n h), AList.lookup, ← Option.mem_def,
            List.mem_dlookup_iff w.dir.inner.nodupKeys] at h
          have := List.find?_eq_none.1 hfind _ h
          simp at this
        exact stepOk_of_run hrun (fun h => nomatch h)
          (hless _ (Moved.called hv.sound).sound rfl hview fun _ => Iff.rfl) hview

theorem deleteFile_ok (hv : Valid w) (name : String) : StepOk fails w (.deleteFile name) := by
  have hrun : NrtCachingDirectory.call fails (.deleteFile name) w.dir =
      ((if decide (name ∈ w.dir.cache) then Op.modify (removeEntry name)
        else delegateCall fails (Delegate.deleteFile name)) >>= fun _ => pure Reply.done) w.dir := rfl
  -- the other files stay where they are
  have hless : ∀ t, Sound t → t.nextId = w.dir.nextId →
      t.view = Function.update w.dir.view name none →
      (∀ n, n ≠ name → (n ∈ t.cache ↔ n ∈ w.dir.cache)) → Valid ⟨t, w.outputs⟩ := by
    intro t hs hid hview hcache
    apply hv.of_less hs hid.ge _ (List.Subset.refl _)
    intro n id hn
    rw [hview] at hn
    by_cases hname : n = name
    · rw [hname, Function.update_self] at hn
      cases hn
    · rw [Function.update_of_ne hname] at hn
      exact ⟨hn, hcache n hname⟩
  by_cases hmem : name ∈ w.dir.cache
  · rw [if_pos (decide_eq_true hmem), modify_bind] at hrun
    obtain ⟨entry, hlook⟩ := Option.isSome_iff_exists.1 (AList.lookup_isSome.2 hmem)
    rw [removeEntry_of_lookup hlook] at hrun
    have hview := view_erase_cache (s := w.dir) (t := { w.dir with
      cache := w.dir.cache.erase name, cacheSize := w.dir.cacheSize - entry.length }) rfl rfl
      (hv.sound.onePlace name hmem)
    refine stepOk_of_run hrun (fun h => nomatch h) (hless _ ⟨fun n hn => ?_, ?_⟩ rfl hview ?_) hview
    · exact hv.sound.onePlace n (AList.mem_erase.1 hn).2
    · have hsize := hv.sound.size
      have := bytesOf_erase hlook
      dsimp only
      omega
    · intro n hn
      dsimp only
      rw [AList.mem_erase]
      exact ⟨And.right, fun h => ⟨hn, h⟩⟩
  · rw [if_neg (by simpa using hmem)] at hrun
    rcases delegateCall_cases fails w.dir (Delegate.deleteFile name) with
      ⟨e, hcall, -⟩ | ⟨a, inner, hdelete, hcall⟩
    · rw [bind_err hcall] at hrun
      exact stepOk_err hv hrun (Moved.called hv.sound)
    · rw [bind_ok hcall] at hrun
      unfold Delegate.deleteFile at hdelete
      split at hdelete
      · cases hdelete
        have hview := view_erase_inner (s := w.dir) (t := { w.dir.called with
          inner := w.dir.inner.erase name }) rfl rfl hmem
        refine stepOk_of_run hrun (fun h => nomatch h)
          (hless _ ⟨fun n hn hin => ?_, hv.sound.size⟩ rfl hview fun _ _ => Iff.rfl) hview
        exact hv.sound.onePlace n hn (AList.mem_erase.1 hin).2
      · cases hdelete

theorem rename_ok (hv : Valid w) {source dest : String} (hc : w.dir.view dest = none)
    (hstrands : strandsCopy fails [source] w.dir.cache w.dir.innerCalls = false) :
    StepOk fails w (.rename source dest) := by
  have hrun : NrtCachingDirectory.call fails (.rename source dest) w.dir =
      (rename fails source dest >>= fun _ => pure Reply.done) w.dir := rfl
  unfold rename at hrun
  have hcases := unCache_cases fails source hv.sound
  rw [if_neg (by rw [hstrands]; exact Bool.false_ne_true)] at hcases
  rcases hcases with ⟨e, t, hun, hm⟩ | ⟨t, hun, hm, hsource⟩
  · rw [bind_err (bind_err hun)] at hrun
    exact stepOk_err hv hrun hm
  have hdest : dest ∉ t.cache := fun h => (view_eq_none.1 hc).1 (hm.shrinks dest h)
  have hmove : (unCache fails source >>= fun _ => do
      let exists_ ← Op.get fun s => decide (dest ∈ s.cache)
      if exists_ then Op.throw (.illegalArgument ("target file " ++ dest ++ " already exists"))
      else delegateCall fails (Delegate.rename source dest)) w.dir =
      delegateCall fails (Delegate.rename source dest) t := by
    rw [bind_ok hun, get_bind, decide_eq_false hdest]
    rfl
  rcases delegateCall_cases fails t (Delegate.rename source dest) with
    ⟨e, hcall, -⟩ | ⟨_, inner, hren, hcall⟩
  · rw [bind_err (hmove.trans hcall)] at hrun
    exact stepOk_err hv hrun (hm.trans (Moved.called hm.sound))
  rw [bind_ok (hmove.trans hcall)] at hrun
  unfold Delegate.rename at hren
  split at hren
  · cases hren
  next entry hlook =>
  cases hren
  have hentry : w.dir.view source = some entry := by
    rw [← hm.view, view_of_not_mem hsource, hlook]
  have hview : view { t.called with inner := (t.inner.erase source).insert dest entry } =
      effect w.dir.view (.rename source dest) (.ok .done) := by
    have herase : view { t with inner := t.inner.erase source } =
        Function.update t.view source none := view_erase_inner (s := t) rfl rfl hsource
    refine Eq.trans (view_insert_inner (s := { t with inner := t.inner.erase source }) rfl rfl
      hdest) ?_
    rw [herase, hm.view, effect, hentry]
  have hold : ∀ n id, view { t.called with inner := (t.inner.erase source).insert dest entry } n =
      some (.writing id) → (n = dest ∧ w.dir.view source = some (.writing id)) ∨
        n ≠ source ∧ w.dir.view n = some (.writing id) := by
    intro n id hn
    rw [hview] at hn
    dsimp only [effect] at hn
    by_cases hnd : n = dest
    · rw [hnd, Function.update_self] at hn
      exact .inl ⟨hnd, hn⟩
    · rw [Function.update_of_ne hnd] at hn
      by_cases hns : n = source
      · rw [hns, Function.update_self] at hn
        cases hn
      · rw [Function.update_of_ne hns] at hn
        exact .inr ⟨hns, hn⟩
  refine stepOk_of_run hrun (fun h => nomatch h) ⟨⟨fun n hn hin => ?_, hm.sound.size⟩, ?_, ?_, ?_⟩ hview
  · rcases (AList.mem_insert _).1 hin with rfl | hin
    · exact hdest hn
    · exact hm.sound.onePlace n hn (AList.mem_erase.1 hin).2
  · intro n id hn
    change id < t.nextId
    rcases hold n id hn with ⟨-, hn⟩ | ⟨-, hn⟩
    · exact (hv.fresh _ id hn).trans_le hm.nextId
    · exact (hv.fresh n id hn).trans_le hm.nextId
  · intro n m id hn hm'
    rcases hold n id hn with ⟨hnd, hn₁⟩ | ⟨hns, hn₁⟩
    · rcases hold m id hm' with ⟨hmd, -⟩ | ⟨hms, hm₁⟩
      · exact hnd.trans hmd.symm
      · exact absurd (hv.unique m source id hm₁ hn₁) hms
    · rcases hold m id hm' with ⟨-, hm₁⟩ | ⟨-, hm₁⟩
      · exact absurd (hv.unique n source id hn₁ hm₁) hns
      · exact hv.unique n m id hn₁ hm₁
  · intro output ho
    have hopen := (hv.outputs output ho).moved hm
    refine ⟨hopen.fresh, fun n hn => ?_⟩
    rcases hold n _ hn with ⟨hnd, hn₁⟩ | ⟨-, hn₁⟩
    · rw [← hm.view] at hn₁
      have hplace := hopen.place source hn₁
      split at hplace
      · exact absurd hplace.2 hsource
      next hnot =>
        rw [if_neg hnot, hnd]
        exact hdest
    · rw [← hm.view] at hn₁
      exact hopen.place n hn₁

/-- `sync`: when it returns the names are out of the cache. -/
theorem sync_run (hv : Valid w) {names : List String}
    (hstrands : strandsCopy fails names w.dir.cache w.dir.innerCalls = false) :
    (∃ e t, NrtCachingDirectory.call fails (.sync names) w.dir = (.err e, t) ∧ Moved w.dir t) ∨
      ∃ t, NrtCachingDirectory.call fails (.sync names) w.dir = (.ok .done, t) ∧ Moved w.dir t ∧
        ∀ n ∈ names, n ∉ t.cache := by
  have hrun : NrtCachingDirectory.call fails (.sync names) w.dir =
      ((names.forM (unCache fails) >>= fun _ => delegateCall fails fun files => .ok ((), files)) >>=
        fun _ => pure Reply.done) w.dir := rfl
  have hcases := unCacheAll_cases fails names hv.sound
  rw [if_neg (by rw [hstrands]; exact Bool.false_ne_true)] at hcases
  rcases hcases with ⟨e, t, hun, hm⟩ | ⟨t, hun, hm, hout⟩
  · rw [bind_err (bind_err hun)] at hrun
    exact .inl ⟨e, t, hrun, hm⟩
  rcases delegateCall_cases fails t (fun files => .ok ((), files)) with
    ⟨e, hcall, -⟩ | ⟨_, inner, hsame, hcall⟩
  · rw [bind_err ((bind_ok hun).trans hcall)] at hrun
    exact .inl ⟨e, _, hrun, hm.trans (Moved.called hm.sound)⟩
  · cases hsame
    rw [bind_ok ((bind_ok hun).trans hcall)] at hrun
    exact .inr ⟨_, hrun, hm.trans (Moved.called hm.sound), hout⟩

/-- A second `close` moves nothing. -/
theorem close_again (hclosed : s.closed = true) :
    NrtCachingDirectory.call fails .close s = (.ok .done, { s with closed := true }) := by
  have hrun : NrtCachingDirectory.call fails .close s =
      (Op.when (!s.closed) (do
        let names ← Op.get listCachedFiles
        names.forM (unCache fails)) >>= fun _ => pure Reply.done)
        { s with closed := true } := rfl
  rw [hrun, hclosed]
  rfl

theorem close_first (fails : Nat → Bool) (hclosed : s.closed = false) :
    NrtCachingDirectory.call fails .close s =
      (s.listCachedFiles.forM (unCache fails) >>= fun _ => pure Reply.done)
        { s with closed := true } := by
  have hrun : NrtCachingDirectory.call fails .close s =
      (Op.when (!s.closed) (do
        let names ← Op.get listCachedFiles
        names.forM (unCache fails)) >>= fun _ => pure Reply.done)
        { s with closed := true } := rfl
  rw [hrun, hclosed]
  rfl

/-- `close`: the flag is set at once, and the first call moves all files. -/
theorem close_run (hv : Valid w) (hstrands : w.dir.closed = false →
      strandsCopy fails w.dir.listCachedFiles w.dir.cache w.dir.innerCalls = false) :
    (∃ e t, NrtCachingDirectory.call fails .close w.dir = (.err e, t) ∧
      Moved { w.dir with closed := true } t) ∨
    ∃ t, NrtCachingDirectory.call fails .close w.dir = (.ok .done, t) ∧
      Moved { w.dir with closed := true } t ∧
      (if w.dir.closed then t.cache = w.dir.cache else ∀ n, n ∉ t.cache) := by
  have hs : Sound { w.dir with closed := true } := ⟨hv.sound.onePlace, hv.sound.size⟩
  cases hclosed : w.dir.closed with
  | true => exact .inr ⟨_, close_again hclosed, Moved.refl hs, by rw [if_pos rfl]⟩
  | false =>
    have hloop := close_first fails hclosed
    have hcases := unCacheAll_cases fails w.dir.listCachedFiles hs
    rw [if_neg (by rw [hstrands hclosed]; exact Bool.false_ne_true)] at hcases
    rcases hcases with ⟨e, t, hun, hm⟩ | ⟨t, hun, hm, hout⟩
    · rw [bind_err hun] at hloop
      exact .inl ⟨e, t, hloop, hm⟩
    · rw [bind_ok hun] at hloop
      refine .inr ⟨t, hloop, hm, ?_⟩
      rw [if_neg Bool.false_ne_true]
      intro n hn
      apply hout n _ hn
      rw [listCachedFiles, ByteBuffersDirectory.listAll, List.mem_insertionSort]
      exact AList.mem_keys.1 (hm.shrinks n hn)

/-- A call of the delegate that only reads. -/
theorem delegateRead_cases {α : Type} (fails : Nat → Bool) (s : NrtCachingDirectory)
    {f : Entries → Except IoError (α × Entries)}
    (hf : ∀ a inner, f s.inner = .ok (a, inner) → inner = s.inner) :
    (∃ e, delegateCall fails f s = (.err e, s.called) ∧
      (fails s.innerCalls = true ∨ ∃ e, f s.inner = .error e)) ∨
    ∃ a, f s.inner = .ok (a, s.inner) ∧ delegateCall fails f s = (.ok a, s.called) := by
  rcases delegateCall_cases fails s f with herr | ⟨a, inner, hok, hcall⟩
  · exact .inl herr
  · obtain rfl := hf a inner hok
    exact .inr ⟨a, hok, hcall⟩

/-- A call that reads one file: in the cache, if it is there, else in the delegate. -/
theorem read_cases {α : Type} (fails : Nat → Bool) (name : String) (hs : Sound s) (g : α → Reply)
    (f : Entries → Except IoError α) (f' : Entries → Except IoError (α × Entries))
    (hf : ∀ a inner, f' s.inner = .ok (a, inner) → inner = s.inner) :
    let run := ((do
      let cached ← Op.get fun s => decide (name ∈ s.cache)
      if cached then cacheCall f else delegateCall fails f') >>= fun a =>
        (pure (g a) : Prog Reply)) s
    Moved s run.2 ∧ ((∃ e, run.1 = .err e) ∨ ∃ a, run.1 = .ok (g a)) ∧
      (∀ a, name ∈ s.cache → f s.cache = .ok a → run.1 = .ok (g a)) ∧
      ∀ a, name ∉ s.cache → fails s.innerCalls = false → f' s.inner = .ok (a, s.inner) →
        run.1 = .ok (g a) := by
  intro run
  by_cases hmem : name ∈ s.cache
  · have hrun : run = (cacheCall f >>= fun a => pure (g a)) s := by
      simp only [run, Op.bind_apply, Op.get, decide_eq_true hmem, if_true]
    cases hfc : f s.cache with
    | error e =>
      have hcall : cacheCall f s = (.err (.io e), s) := by rw [cacheCall, hfc]
      rw [hrun, bind_err hcall]
      exact ⟨Moved.refl hs, .inl ⟨_, rfl⟩, fun a _ h => (nomatch h), fun a h => absurd hmem h⟩
    | ok b =>
      have hcall : cacheCall f s = (.ok b, s) := by rw [cacheCall, hfc]
      rw [hrun, bind_ok hcall]
      refine ⟨Moved.refl hs, .inr ⟨b, rfl⟩, fun a _ h => ?_, fun a h => absurd hmem h⟩
      cases h
      rfl
  · have hrun : run = (delegateCall fails f' >>= fun a => pure (g a)) s := by
      simp only [run, Op.bind_apply, Op.get, decide_eq_false hmem, Bool.false_eq_true, if_false]
    rcases delegateRead_cases fails s hf with ⟨e, hcall, hwhy⟩ | ⟨b, hok, hcall⟩
    · rw [hrun, bind_err hcall]
      refine ⟨Moved.called hs, .inl ⟨e, rfl⟩, fun a h => absurd h hmem, fun a _ hfails hok => ?_⟩
      rcases hwhy with hfail | ⟨e, he⟩
      · rw [hfails] at hfail
        cases hfail
      · rw [hok] at he
        cases he
    · rw [hrun, bind_ok hcall]
      refine ⟨Moved.called hs, .inr ⟨b, rfl⟩, fun a h => absurd h hmem, fun a _ _ hok' => ?_⟩
      rw [hok] at hok'
      cases hok'
      rfl

/-- A call that changes nothing of the view. -/
theorem stepOk_read (hv : Valid w)
    (hm : Moved w.dir (NrtCachingDirectory.call fails c w.dir).2)
    (hr : (∃ e, (NrtCachingDirectory.call fails c w.dir).1 = .err e) ∨
      ∃ reply, (NrtCachingDirectory.call fails c w.dir).1 = .ok reply ∧
        effect w.dir.view c (.ok reply) = w.dir.view ∧
        outputsAfter w.outputs c (.ok reply) = w.outputs) : StepOk fails w c := by
  rcases hr with ⟨e, hr⟩ | ⟨reply, hr, he, ho⟩
  · exact stepOk_err hv (Prod.ext hr rfl) hm
  · exact stepOk_moved hv (Prod.ext hr rfl) hm he ho

theorem openFile_read {files : Entries} (bytes : List U8) (inner : Entries)
    (h : Delegate.openFile files name = .ok (bytes, inner)) : inner = files := by
  unfold Delegate.openFile at h
  split at h
  · cases h
    rfl
  · cases h

theorem fileLength_read {files : Entries} (n : Nat) (inner : Entries)
    (h : Delegate.fileLength files name = .ok (n, inner)) : inner = files := by
  unfold Delegate.fileLength at h
  split at h
  · cases h
    rfl
  · cases h

theorem openFile_ok (hv : Valid w) (name : String) : StepOk fails w (.openFile name) := by
  obtain ⟨hm, hr, -⟩ := read_cases fails name hv.sound .bytes
    (fun cache => ByteBuffersDirectory.openFile cache name)
    (fun files => Delegate.openFile files name) openFile_read
  exact stepOk_read hv hm (hr.imp_right fun ⟨a, ha⟩ => ⟨_, ha, rfl, rfl⟩)

theorem fileLength_ok (hv : Valid w) (name : String) : StepOk fails w (.fileLength name) := by
  obtain ⟨hm, hr, -⟩ := read_cases fails name hv.sound .length
    (fun cache => ByteBuffersDirectory.fileLength cache name)
    (fun files => Delegate.fileLength files name) fileLength_read
  exact stepOk_read hv hm (hr.imp_right fun ⟨a, ha⟩ => ⟨_, ha, rfl, rfl⟩)

/-- The names of both stores in order. -/
def allNames (s : NrtCachingDirectory) : BTreeSet String :=
  s.inner.keys.foldl BTreeSet.insert ((listCachedFiles s).foldl BTreeSet.insert .empty)

theorem mem_foldl_insert {names : List String} {t : BTreeSet String} :
    name ∈ names.foldl BTreeSet.insert t ↔ name ∈ names ∨ name ∈ t := by
  induction names generalizing t with
  | nil => simp
  | cons n names ih =>
    rw [List.foldl_cons, ih, BTreeSet.mem_insert, List.mem_cons]
    tauto

theorem mem_allNames : name ∈ s.allNames ↔ s.view name ≠ none := by
  rw [allNames, mem_foldl_insert, mem_foldl_insert, listCachedFiles, ByteBuffersDirectory.listAll,
    List.mem_insertionSort, ← AList.mem_keys, ← AList.mem_keys, ne_eq, view_eq_none]
  have := BTreeSet.not_mem_empty (a := name)
  tauto

theorem listAll_cases (fails : Nat → Bool) (s : NrtCachingDirectory) :
    (∃ e, NrtCachingDirectory.call fails .listAll s = (.err e, s.called) ∧
      fails s.innerCalls = true) ∨
    NrtCachingDirectory.call fails .listAll s = (.ok (.names s.allNames.elems), s.called) := by
  have hrun : NrtCachingDirectory.call fails .listAll s =
      ((delegateCall fails (fun files => .ok (files.keys, files)) >>= fun names =>
        pure (names.foldl BTreeSet.insert
          ((listCachedFiles s).foldl BTreeSet.insert .empty)).elems) >>= fun names =>
        pure (Reply.names names)) s := rfl
  rcases delegateRead_cases fails s
    (f := fun files => .ok (files.keys, files)) (fun a inner h => by cases h; rfl) with
    ⟨e, hcall, hwhy⟩ | ⟨names, hok, hcall⟩
  · rw [bind_err (bind_err hcall)] at hrun
    exact .inl ⟨e, hrun, hwhy.resolve_right fun ⟨e, he⟩ => nomatch he⟩
  · cases hok
    have hnames : (delegateCall fails (fun files => .ok (files.keys, files)) >>= fun names =>
        pure (names.foldl BTreeSet.insert
          ((listCachedFiles s).foldl BTreeSet.insert .empty)).elems) s =
        (.ok s.allNames.elems, s.called) := bind_ok hcall
    exact .inr (hrun.trans (bind_ok hnames))

theorem listAll_ok (hv : Valid w) : StepOk fails w .listAll := by
  rcases listAll_cases fails w.dir with ⟨e, hrun, -⟩ | hrun
  · exact stepOk_err hv hrun (Moved.called hv.sound)
  · exact stepOk_moved hv hrun (Moved.called hv.sound) rfl rfl

theorem sync_ok (hv : Valid w) {names : List String}
    (hstrands : strandsCopy fails names w.dir.cache w.dir.innerCalls = false) :
    StepOk fails w (.sync names) := by
  rcases sync_run hv hstrands with ⟨e, t, hrun, hm⟩ | ⟨t, hrun, hm, -⟩
  · exact stepOk_err hv hrun hm
  · exact stepOk_moved hv hrun hm rfl rfl

theorem close_ok (hv : Valid w) (hstrands : w.dir.closed = false →
      strandsCopy fails w.dir.listCachedFiles w.dir.cache w.dir.innerCalls = false) :
    StepOk fails w .close := by
  have hclosed : ∀ t, Moved { w.dir with closed := true } t → Valid ⟨t, w.outputs⟩ := by
    intro t hm
    apply hv.of_less hm.sound hm.nextId _ (List.Subset.refl _)
    intro n id hn
    rw [hm.view] at hn
    exact ⟨hn, hm.writing n id hn⟩
  rcases close_run hv hstrands with ⟨e, t, hrun, hm⟩ | ⟨t, hrun, hm, -⟩
  · exact stepOk_of_run hrun (fun h => nomatch h) (hclosed t hm) hm.view
  · exact stepOk_of_run hrun (fun h => nomatch h) (hclosed t hm) hm.view

/-- Whether a copy to the delegate strands a file: its output can neither be closed nor
deleted. -/
def Call.strands (fails : Nat → Bool) (s : NrtCachingDirectory) : Call → Bool
  | .sync names => strandsCopy fails names s.cache s.innerCalls
  | .rename source _ => strandsCopy fails [source] s.cache s.innerCalls
  | .close => !s.closed && strandsCopy fails s.listCachedFiles s.cache s.innerCalls
  | _ => false

/-- Every call that strands no file has its effect on the view, also when it fails. -/
theorem call_ok (hv : Valid w) (hc : Allowed w c) (hstrands : c.strands fails w.dir = false) :
    StepOk fails w c := by
  cases c with
  | createOutputWithEstimate name estimatedBytes => exact create_ok hv estimatedBytes hc
  | closeOutput output bytes => exact closeOutput_ok hv bytes hc
  | openFile name => exact openFile_ok hv name
  | fileLength name => exact fileLength_ok hv name
  | rename source dest => exact rename_ok hv hc hstrands
  | deleteFile name => exact deleteFile_ok hv name
  | sync names => exact sync_ok hv hstrands
  | listAll => exact listAll_ok hv
  | close =>
    refine close_ok hv fun hclosed => ?_
    rwa [Call.strands, hclosed, Bool.not_false, Bool.true_and] at hstrands

/-- A call that strands a file leaves it in both stores. -/
theorem call_strands (hv : Valid w) (hstrands : c.strands fails w.dir = true) :
    Stranded (w.call fails c).2.dir := by
  cases c with
  | sync names =>
    rw [Call.strands] at hstrands
    have hcases := unCacheAll_cases fails names hv.sound
    rw [if_pos hstrands] at hcases
    obtain ⟨e, t, hun, ht⟩ := hcases
    have hrun : NrtCachingDirectory.call fails (.sync names) w.dir = (.err e, t) :=
      bind_err (bind_err hun)
    rw [World.call, hrun]
    exact ht
  | rename source dest =>
    rw [Call.strands] at hstrands
    have hcases := unCache_cases fails source hv.sound
    rw [if_pos hstrands] at hcases
    obtain ⟨e, t, hun, ht⟩ := hcases
    have hrun : NrtCachingDirectory.call fails (.rename source dest) w.dir = (.err e, t) :=
      bind_err (bind_err hun)
    rw [World.call, hrun]
    exact ht
  | close =>
    rw [Call.strands, Bool.and_eq_true, Bool.not_eq_true'] at hstrands
    have hs : Sound { w.dir with closed := true } := ⟨hv.sound.onePlace, hv.sound.size⟩
    have hcases := unCacheAll_cases fails w.dir.listCachedFiles hs
    rw [if_pos hstrands.2] at hcases
    obtain ⟨e, t, hun, ht⟩ := hcases
    have hrun : NrtCachingDirectory.call fails .close w.dir = (.err e, t) :=
      (close_first fails hstrands.1).trans (bind_err hun)
    rw [World.call, hrun]
    exact ht
  | _ => cases hstrands

/-! ## Runs -/

/-- A run of calls from the world `w₀` that strand no file, with what each of them
returned. -/
inductive Run (fails : Nat → Bool) (w₀ : World) : List (Call × Result) → World → Prop where
  | start : Run fails w₀ [] w₀
  | call {trace : List (Call × Result)} {w : World} (h : Run fails w₀ trace w) (c : Call)
      (hc : Allowed w c) (hstrands : c.strands fails w.dir = false) :
      Run fails w₀ (trace ++ [(c, (w.call fails c).1)]) (w.call fails c).2

/-- The files of a flat directory after the calls of a run. -/
def replay (files : String → Option FileEntry) (trace : List (Call × Result)) :
    String → Option FileEntry :=
  trace.foldl (fun files step => effect files step.1 step.2) files

/-- What a call has to do. -/
structure Meets (fails : Nat → Bool) (w : World) (c : Call) : Prop where
  safe : (w.call fails c).1 ≠ .panic
  view : (w.call fails c).2.dir.view = effect w.dir.view c (w.call fails c).1
  onePlace : ∀ n, (w.call fails c).2.dir.view n ≠ none →
    (n ∈ (w.call fails c).2.dir.cache ↔ n ∉ (w.call fails c).2.dir.inner)
  ramBytesUsed : (w.call fails c).2.dir.ramBytesUsed = bytesOf (w.call fails c).2.dir.cache
  openFile : ∀ n bytes, c = .openFile n → w.dir.view n = some (.closed bytes) →
    n ∈ w.dir.cache ∨ fails w.dir.innerCalls = false → (w.call fails c).1 = .ok (.bytes bytes)
  fileLength : ∀ n bytes, c = .fileLength n → w.dir.view n = some (.closed bytes) →
    n ∈ w.dir.cache ∨ fails w.dir.innerCalls = false →
    (w.call fails c).1 = .ok (.length bytes.length)
  listAll : c = .listAll → fails w.dir.innerCalls = false →
    ∃ names, (w.call fails c).1 = .ok (.names names) ∧ names.Pairwise (· < ·) ∧
      ∀ n, n ∈ names ↔ w.dir.view n ≠ none
  sync : ∀ names, c = .sync names → (w.call fails c).1 = .ok .done →
    ∀ n ∈ names, (w.call fails c).2.dir.view n ≠ none → n ∈ (w.call fails c).2.dir.inner
  close : c = .close → (w.call fails c).1 = .ok .done →
    ∀ n, (w.call fails c).2.dir.view n ≠ none → n ∈ (w.call fails c).2.dir.inner

theorem mem_inner_of_view (h : s.view name ≠ none) (hc : name ∉ s.cache) : name ∈ s.inner := by
  rw [view_of_not_mem hc, ne_eq, AList.lookup_eq_none, not_not] at h
  exact h

theorem openFile_answers (hv : Valid w) {bytes : List U8}
    (h : w.dir.view name = some (.closed bytes))
    (hd : name ∈ w.dir.cache ∨ fails w.dir.innerCalls = false) :
    (w.call fails (.openFile name)).1 = .ok (.bytes bytes) := by
  obtain ⟨-, -, hcached, hinner⟩ := read_cases fails name hv.sound .bytes
    (fun cache => ByteBuffersDirectory.openFile cache name)
    (fun files => Delegate.openFile files name) openFile_read
  by_cases hmem : name ∈ w.dir.cache
  · rw [view_of_mem hmem] at h
    exact hcached bytes hmem (by simp [ByteBuffersDirectory.openFile, h])
  · rw [view_of_not_mem hmem] at h
    exact hinner bytes hmem (hd.resolve_left hmem) (by simp [Delegate.openFile, h])

theorem fileLength_answers (hv : Valid w) {bytes : List U8}
    (h : w.dir.view name = some (.closed bytes))
    (hd : name ∈ w.dir.cache ∨ fails w.dir.innerCalls = false) :
    (w.call fails (.fileLength name)).1 = .ok (.length bytes.length) := by
  obtain ⟨-, -, hcached, hinner⟩ := read_cases fails name hv.sound .length
    (fun cache => ByteBuffersDirectory.fileLength cache name)
    (fun files => Delegate.fileLength files name) fileLength_read
  by_cases hmem : name ∈ w.dir.cache
  · rw [view_of_mem hmem] at h
    exact hcached _ hmem (by simp [ByteBuffersDirectory.fileLength, h, FileEntry.length])
  · rw [view_of_not_mem hmem] at h
    exact hinner _ hmem (hd.resolve_left hmem) (by simp [Delegate.fileLength, h, FileEntry.length])

/-- A call meets what it has to do, unless it strands a file, or it is a `close` of a closed
directory that has a file in its cache. -/
theorem meets_iff (hv : Valid w) (hc : Allowed w c) :
    Meets fails w c ↔ c.strands fails w.dir = false ∧
      (c = .close → w.dir.closed = true → ∀ n, n ∉ w.dir.cache) := by
  constructor
  · intro hm
    refine ⟨Bool.not_eq_true _ ▸ fun hstrands => ?_, ?_⟩
    · obtain ⟨n, hcache, hinner⟩ := call_strands hv hstrands
      exact (hm.onePlace n fun h => (view_eq_none.1 h).1 hcache).1 hcache hinner
    rintro rfl hclosed n hn
    have hrun : w.call fails .close = (.ok .done, ⟨{ w.dir with closed := true }, w.outputs⟩) := by
      rw [World.call, close_again hclosed]
      rfl
    have hinner := hm.close rfl (by rw [hrun]) n
    rw [hrun] at hinner
    apply hv.sound.onePlace n hn (hinner _)
    exact fun h => (view_eq_none.1 h).1 hn
  · rintro ⟨hstrands, hfine⟩
    have hok := call_ok hv hc hstrands
    have hsound := hok.valid.sound
    refine ⟨hok.safe, hok.view, fun n hn => ⟨hsound.onePlace n, fun h => ?_⟩, hsound.size,
      ?_, ?_, ?_, ?_, ?_⟩
    · by_contra hcache
      exact h (mem_inner_of_view hn hcache)
    · rintro n bytes rfl h hd
      exact openFile_answers hv h hd
    · rintro n bytes rfl h hd
      exact fileLength_answers hv h hd
    · rintro rfl hfails
      rcases listAll_cases fails w.dir with ⟨e, -, hfail⟩ | hrun
      · rw [hfails] at hfail
        cases hfail
      · refine ⟨_, by rw [World.call, hrun], w.dir.allNames.sorted, fun n => mem_allNames⟩
    · rintro names rfl hdone n hn hview
      rcases sync_run hv hstrands with ⟨e, t, hrun, -⟩ | ⟨t, hrun, -, hout⟩
      · rw [World.call, hrun] at hdone
        cases hdone
      · rw [World.call, hrun] at hview ⊢
        exact mem_inner_of_view hview (hout n hn)
    · rintro rfl hdone n hview
      have hcopies : w.dir.closed = false →
          strandsCopy fails w.dir.listCachedFiles w.dir.cache w.dir.innerCalls = false := by
        intro hclosed
        rwa [Call.strands, hclosed, Bool.not_false, Bool.true_and] at hstrands
      rcases close_run hv hcopies with ⟨e, t, hrun, -⟩ | ⟨t, hrun, -, hout⟩
      · rw [World.call, hrun] at hdone
        cases hdone
      · rw [World.call, hrun] at hview ⊢
        apply mem_inner_of_view hview
        cases hclosed : w.dir.closed with
        | true =>
          rw [hclosed, if_pos rfl] at hout
          rw [hout]
          exact hfine rfl hclosed n
        | false =>
          rw [hclosed, if_neg Bool.false_ne_true] at hout
          exact hout n

theorem Run.valid {w₀ : World} {trace : List (Call × Result)} (h : Run fails w₀ trace w)
    (hv : Valid w₀) : Valid w ∧ w.dir.view = replay w₀.dir.view trace := by
  induction h with
  | start => exact ⟨hv, rfl⟩
  | call h c hc hstrands ih =>
    have hok := call_ok ih.1 hc hstrands
    refine ⟨hok.valid, ?_⟩
    rw [hok.view, ih.2, replay, replay, List.foldl_append]
    rfl

theorem view_new (delegate : Files) (maxMergeSizeBytes maxCachedBytes : Nat) :
    (new delegate maxMergeSizeBytes maxCachedBytes).view =
      fun n => (delegate.lookup n).map .closed := by
  funext n
  rw [view_of_not_mem (AList.notMem_empty n)]
  exact List.dlookup_map₂ (f := fun _ => FileEntry.closed) n

theorem valid_new (delegate : Files) (maxMergeSizeBytes maxCachedBytes : Nat) :
    Valid ⟨new delegate maxMergeSizeBytes maxCachedBytes, []⟩ := by
  have hclosed : ∀ n id, (new delegate maxMergeSizeBytes maxCachedBytes).view n ≠
      some (.writing id) := by
    intro n id h
    rw [view_new] at h
    simp at h
  refine ⟨⟨fun n hn => absurd hn (AList.notMem_empty n), rfl⟩, ?_, ?_, ?_⟩
  · exact fun n id h => absurd h (hclosed n id)
  · exact fun n m id h => absurd h (hclosed n id)
  · exact fun output ho => absurd ho List.not_mem_nil

/-- In every run that strands no file, also when calls of the delegate fail, the directory is
the flat directory that has run the same calls with the same results, and the next call does
what it has to do, unless it strands a file, or it is a `close` after an earlier `close` with
a file in the cache. -/
theorem runs_lose_no_file (fails : Nat → Bool) (delegate : Files)
    (maxMergeSizeBytes maxCachedBytes : Nat) {trace : List (Call × Result)} {w : World}
    (h : Run fails ⟨new delegate maxMergeSizeBytes maxCachedBytes, []⟩ trace w) :
    w.dir.view = replay (fun n => (delegate.lookup n).map .closed) trace ∧
      ∀ c, Allowed w c →
        (Meets fails w c ↔ c.strands fails w.dir = false ∧
          (c = .close → w.dir.closed = true → ∀ n, n ∉ w.dir.cache)) := by
  obtain ⟨hv, hview⟩ := h.valid (valid_new delegate maxMergeSizeBytes maxCachedBytes)
  rw [← view_new delegate maxMergeSizeBytes maxCachedBytes]
  exact ⟨hview, fun c hc => meets_iff hv hc⟩

/-- The world after the calls `cs`. -/
def World.callAll (fails : Nat → Bool) (w : World) (cs : List Call) : World :=
  cs.foldl (fun w c => (w.call fails c).2) w

theorem runs_lose_no_file_sync :
    let w := (World.mk (new ∅ 100 100) []).callAll (fun _ => false)
      [.createOutputWithEstimate "_0.tim" (some 1), .closeOutput ⟨"_0.tim", 0, true⟩ [7]]
    Meets (fun _ => false) w (.sync ["_0.tim"]) :=
  ((runs_lose_no_file (fun _ => false) ∅ 100 100
    (.call (.call .start (.createOutputWithEstimate "_0.tim" (some 1)) (by decide) rfl)
      (.closeOutput ⟨"_0.tim", 0, true⟩ [7]) (by decide) rfl)).2 (.sync ["_0.tim"]) trivial).2
    ⟨by decide, fun h => nomatch h⟩

/-- The first `close` fails at the copy, and the second one returns with the file in the
cache. -/
theorem runs_lose_no_file_closed_twice :
    ¬ ∀ (fails : Nat → Bool) (delegate : Files) (maxMergeSizeBytes maxCachedBytes : Nat)
      (trace : List (Call × Result)) (w : World),
      Run fails ⟨new delegate maxMergeSizeBytes maxCachedBytes, []⟩ trace w →
      ∀ c, Allowed w c → Meets fails w c := by
  intro h
  have hrun : Run (· == 0) ⟨new ∅ 100 100, []⟩ _ _ :=
    .call (.call (.call .start (.createOutputWithEstimate "_0.tim" (some 1)) (by decide) rfl)
      (.closeOutput ⟨"_0.tim", 0, true⟩ [7]) (by decide) rfl) .close trivial (by decide)
  have hclose := (h _ _ _ _ _ _ hrun .close trivial).close rfl (by decide) "_0.tim" (by decide)
  revert hclose
  decide

end LuceneRust.Store.NrtCachingDirectory
