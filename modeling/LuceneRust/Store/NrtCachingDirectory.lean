import LuceneRust.Lib.StateHoare
import LuceneRust.Store.FsCore

/-!
# `lucene_store::nrt_caching_directory`

Small new files are written into a directory in memory and move to the delegate when they
are synced, renamed, or when the directory is closed.

The delegate is a flat directory.  A call of it either does what it says or fails and
changes nothing: `fails` tells of each call in its turn whether it fails.  Its `copy_from`
is the one of the trait, which makes several such calls.  The bytes of an output are the
ones that it is closed with.
-/

namespace LuceneRust.Store

open RustSem StateHoare

/-- What a directory knows of a file: `FileEntry`.  A file whose output is still open has
the identity of that output in place of its bytes. -/
inductive FileEntry where
  | writing (id : Nat)
  | closed (bytes : List U8)
  deriving Repr, DecidableEq

/-- `FileEntry::length`: 0 until the output is closed. -/
def FileEntry.length : FileEntry → Nat
  | .writing _ => 0
  | .closed bytes => bytes.length

abbrev Entries := AList fun _ : String => FileEntry

/-- The files of a directory that are all closed. -/
def Entries.ofFiles (files : Files) : Entries where
  entries := files.entries.map fun file => ⟨file.1, .closed file.2⟩
  nodupKeys := by
    have h : (files.entries.map fun file => (⟨file.1, .closed file.2⟩ :
        Sigma fun _ : String => FileEntry)).keys = files.entries.keys := by
      simp [List.keys, Function.comp_def]
    rw [List.NodupKeys, h]
    exact files.nodupKeys

/-! ## `ByteBuffersDirectory` -/

namespace ByteBuffersDirectory

/-- `list_all`. -/
def listAll (files : Entries) : List String := files.keys.insertionSort (· ≤ ·)

/-- `open`. -/
def openFile (files : Entries) (name : String) : Except IoError (List U8) :=
  match files.lookup name with
  | none => .error (noSuchFile name)
  | some (.closed bytes) => .ok bytes
  | some (.writing _) =>
    .error ⟨.other, "Can't open a file still open for writing: " ++ name⟩

/-- `file_length`. -/
def fileLength (files : Entries) (name : String) : Except IoError Nat :=
  match files.lookup name with
  | none => .error (noSuchFile name)
  | some entry => .ok entry.length

/-- `create_output`. -/
def createOutput (files : Entries) (name : String) (id : Nat) : Except IoError Entries :=
  if name ∈ files then .error ⟨.alreadyExists, "File already exists: " ++ name⟩
  else .ok (files.insert name (.writing id))

/-- The close of an output: the file gets its bytes if it is still listed, and the hook
gets their number. -/
def publish (files : Entries) (name : String) (id : Nat) (bytes : List U8) : Entries × Nat :=
  if files.lookup name = some (.writing id) then
    (files.insert name (.closed bytes), bytes.length)
  else (files, 0)

end ByteBuffersDirectory

/-! ## The delegate -/

namespace Delegate

/-- `open` and `file_length` of the delegate know the bytes of a closed file. -/
def openFile (files : Entries) (name : String) : Except IoError (List U8 × Entries) :=
  match files.lookup name with
  | some (.closed bytes) => .ok (bytes, files)
  | _ => .error osNotFound

/-- `file_length`. -/
def fileLength (files : Entries) (name : String) : Except IoError (Nat × Entries) :=
  match files.lookup name with
  | some entry => .ok (entry.length, files)
  | none => .error osNotFound

/-- `create_output`. -/
def createOutput (name : String) (id : Nat) (files : Entries) : Except IoError (Unit × Entries) :=
  if name ∈ files then .error osAlreadyExists else .ok ((), files.insert name (.writing id))

/-- The close of an output.  The file may have another name by then, or none. -/
def closeOutput (id : Nat) (bytes : List U8) (files : Entries) :
    Except IoError (Unit × Entries) :=
  match files.entries.find? fun file => file.2 = .writing id with
  | some file => .ok ((), files.insert file.1 (.closed bytes))
  | none => .ok ((), files)

/-- `rename`. -/
def rename (source dest : String) (files : Entries) : Except IoError (Unit × Entries) :=
  match files.lookup source with
  | none => .error osNotFound
  | some entry => .ok ((), (files.erase source).insert dest entry)

/-- `delete_file`. -/
def deleteFile (name : String) (files : Entries) : Except IoError (Unit × Entries) :=
  if name ∈ files then .ok ((), files.erase name) else .error osNotFound

end Delegate

/-! ## `NrtCachingDirectory` -/

/-- `Error`, the variants that the directory returns. -/
inductive NrtError where
  | io (e : IoError)
  | illegalArgument (message : String)
  deriving Repr, DecidableEq

/-- An output, and which of the two directories it writes to. -/
structure Output where
  name : String
  id : Nat
  cached : Bool
  deriving Repr, DecidableEq

/-- `NrtCachingDirectory`.  `innerCalls` counts the calls of the delegate, and `nextId` is
the identity of the next output. -/
structure NrtCachingDirectory where
  inner : Entries
  innerCalls : Nat
  cache : Entries
  cacheSize : Nat
  maxMergeSizeBytes : Nat
  maxCachedBytes : Nat
  closed : Bool
  nextId : Nat
  deriving DecidableEq

namespace NrtCachingDirectory

variable (fails : Nat → Bool)

abbrev Prog := Op NrtError NrtCachingDirectory

/-- `new`. -/
def new (delegate : Files) (maxMergeSizeBytes maxCachedBytes : Nat) : NrtCachingDirectory where
  inner := .ofFiles delegate
  innerCalls := 0
  cache := ∅
  cacheSize := 0
  maxMergeSizeBytes := maxMergeSizeBytes
  maxCachedBytes := maxCachedBytes
  closed := false
  nextId := 0

/-- A call of the delegate. -/
def delegateCall {α : Type} (f : Entries → Except IoError (α × Entries)) : Prog α := fun s =>
  let called := { s with innerCalls := s.innerCalls + 1 }
  if fails s.innerCalls then (.err (.io ⟨.other, "I/O error"⟩), called)
  else
    match f s.inner with
    | .ok (a, inner) => (.ok a, { called with inner := inner })
    | .error e => (.err (.io e), called)

/-- A call of the cache that leaves it as it is. -/
def cacheCall {α : Type} (f : Entries → Except IoError α) : Prog α := fun s =>
  match f s.cache with
  | .ok a => (.ok a, s)
  | .error e => (.err (.io e), s)

/-- `ram_bytes_used`. -/
def ramBytesUsed (s : NrtCachingDirectory) : Nat := s.cacheSize

/-- `list_cached_files`. -/
def listCachedFiles (s : NrtCachingDirectory) : List String :=
  ByteBuffersDirectory.listAll s.cache

/-- `do_cache_write`. -/
def doCacheWrite (s : NrtCachingDirectory) (estimatedBytes : Option Nat) : Bool :=
  match estimatedBytes with
  | none => false
  | some bytes =>
    bytes ≤ s.maxMergeSizeBytes ∧
      min (bytes + s.ramBytesUsed) (2 ^ 64 - 1) ≤ s.maxCachedBytes

/-- `cache.create_output`. -/
def createCached (name : String) : Prog Output := do
  let id ← Op.get nextId
  let cache ← cacheCall fun cache => ByteBuffersDirectory.createOutput cache name id
  Op.modify fun s => { s with cache := cache, nextId := id + 1 }
  pure ⟨name, id, true⟩

/-- `inner.create_output_with_estimate`, and `create_output` in `copy_from`. -/
def createInner (name : String) : Prog Output := do
  let id ← Op.get nextId
  delegateCall fails (Delegate.createOutput name id)
  Op.modify fun s => { s with nextId := id + 1 }
  pure ⟨name, id, false⟩

/-- The close of an output in memory: its directory publishes the bytes and the hook counts
them. -/
def publish (output : Output) (bytes : List U8) (s : NrtCachingDirectory) :
    NrtCachingDirectory :=
  let published := ByteBuffersDirectory.publish s.cache output.name output.id bytes
  { s with cache := published.1, cacheSize := s.cacheSize + published.2 }

/-- `close` of an output. -/
def closeOutput (output : Output) (bytes : List U8) : Prog Unit :=
  if output.cached then Op.modify (publish output bytes)
  else delegateCall fails (Delegate.closeOutput output.id bytes)

/-- The part of `copy_from` that may leave something of the file. -/
def copyFile (name : String) : Prog Unit := do
  let bytes ← cacheCall fun cache => ByteBuffersDirectory.openFile cache name
  let output ← createInner fails name
  closeOutput fails output bytes

/-- `copy_from` of the delegate, for the file `name` of the cache. -/
def copyFrom (name : String) : Prog Unit := do
  match ← Op.attempt (copyFile fails name) with
  | .ok () => pure ()
  | .error e => do
    -- `IOUtils.deleteFilesIgnoringExceptions`
    let _ ← Op.attempt (delegateCall fails (Delegate.deleteFile name))
    Op.throw e

/-- `cache.remove_entry`, with the change of `cache_size`. -/
def removeEntry (name : String) (s : NrtCachingDirectory) : NrtCachingDirectory :=
  match s.cache.lookup name with
  | some entry =>
    { s with cache := s.cache.erase name, cacheSize := s.cacheSize - entry.length }
  | none => s

/-- `un_cache`.  The assertion is that the file is not in the delegate too. -/
def unCache (fileName : String) : Prog Unit := do
  let cached ← Op.get fun s => decide (fileName ∈ s.cache)
  Op.when cached do
    let inner ← Op.get inner
    Op.lift (.guardOk (fileName ∉ inner))
    copyFrom fails fileName
    Op.modify (removeEntry fileName)

/-- `close`. -/
def close : Prog Unit := do
  let closed ← Op.get closed
  Op.modify fun s => { s with closed := true }
  Op.when (!closed) do
    let names ← Op.get listCachedFiles
    names.forM (unCache fails)

/-- `list_all`. -/
def listAll : Prog (List String) := do
  let cached ← Op.get listCachedFiles
  let names ← delegateCall fails fun files => .ok (files.keys, files)
  pure (names.foldl BTreeSet.insert (cached.foldl BTreeSet.insert .empty)).elems

/-- `open`. -/
def openFile (name : String) : Prog (List U8) := do
  let cached ← Op.get fun s => decide (name ∈ s.cache)
  if cached then cacheCall fun cache => ByteBuffersDirectory.openFile cache name
  else delegateCall fails fun files => Delegate.openFile files name

/-- `file_length`. -/
def fileLength (name : String) : Prog Nat := do
  let cached ← Op.get fun s => decide (name ∈ s.cache)
  if cached then cacheCall fun cache => ByteBuffersDirectory.fileLength cache name
  else delegateCall fails fun files => Delegate.fileLength files name

/-- `create_output_with_estimate`. -/
def createOutputWithEstimate (name : String) (estimatedBytes : Option Nat) : Prog Output := do
  let cached ← Op.get (doCacheWrite · estimatedBytes)
  if cached then createCached name else createInner fails name

/-- `sync`.  Whether the delegate's `sync` succeeds is up to the delegate. -/
def sync (names : List String) : Prog Unit := do
  names.forM (unCache fails)
  delegateCall fails fun files => .ok ((), files)

/-- `rename`. -/
def rename (source dest : String) : Prog Unit := do
  unCache fails source
  let exists_ ← Op.get fun s => decide (dest ∈ s.cache)
  if exists_ then
    Op.throw (.illegalArgument ("target file " ++ dest ++ " already exists"))
  else delegateCall fails (Delegate.rename source dest)

/-- `delete_file`. -/
def deleteFile (name : String) : Prog Unit := do
  let cached ← Op.get fun s => decide (name ∈ s.cache)
  if cached then Op.modify (removeEntry name)
  else delegateCall fails (Delegate.deleteFile name)

end NrtCachingDirectory

end LuceneRust.Store
