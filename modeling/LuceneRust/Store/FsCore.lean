import LuceneRust.RustSem.BTreeSet
import LuceneRust.RustSem.Bytes
import LuceneRust.Util.Base36
import Mathlib.Data.List.AList
import Mathlib.Data.String.Basic

/-!
# `FsCore`, the state of a directory over the file system

The file system is a map from names to bytes.  A call of `fs::remove_file`
may be refused at any time with an error that is not "not found".  `Env`
tells, of each remove call in its turn, whether it is refused: the answer
does not depend on whether the file is there, as with a mock file system that
is asked before the real call.

A delete that is refused is parked in `pendingDeletes` and is retried from
inside other operations.  The bytes of a new file are the bytes that its
output is going to write: they are an argument of the call that creates it.
The root of the directory is taken to be there.
-/

namespace LuceneRust.Store

open RustSem

/-- The kinds of `std::io::Error` that the directory tells apart. -/
inductive ErrorKind where
  | notFound
  | alreadyExists
  | other
  deriving Repr, DecidableEq

/-- `Error::Io`. -/
structure IoError where
  kind : ErrorKind
  message : String
  deriving Repr, DecidableEq

/-- `Error::no_such_file`. -/
def noSuchFile (message : String) : IoError := ⟨.notFound, message⟩

/-- `ENOENT`. -/
def osNotFound : IoError := ⟨.notFound, "No such file or directory (os error 2)"⟩

/-- `EEXIST`. -/
def osAlreadyExists : IoError := ⟨.alreadyExists, "File exists (os error 17)"⟩

/-- The names of a directory and the bytes of each file. -/
abbrev Files := AList fun _ : String => List U8

/-- What the directory does not decide: whether it is built for Windows, and
which remove calls the file system refuses. -/
structure Env where
  windows : Bool
  refused : Nat → Bool

/-- `FsCore`, with the file system that it works on.  `removeCalls` counts the
calls of `fs::remove_file`. -/
structure FsCore where
  files : Files
  pendingDeletes : BTreeSet String
  opsSinceLastDelete : Nat
  nextTempFileCounter : Nat
  removeCalls : Nat
  deriving DecidableEq

/-- `temp_file_name`: past `i64::MAX` the counter stays at `i64::MAX`. -/
def tempFileName (pre suf : String) (counter : Nat) : String :=
  pre ++ "_" ++ suf ++ "_" ++ Util.toBase36 (min counter (2 ^ 63 - 1) : Nat) ++ ".tmp"

namespace FsCore

/-- `FsCore::new` over a directory with the given files. -/
def new (files : Files) : FsCore := ⟨files, .empty, 0, 0, 0⟩

/-- `is_pending`. -/
def isPending (s : FsCore) (name : String) : Bool := name ∈ s.pendingDeletes

/-- `list_all`: the names in order, without those that are pending. -/
def listAll (s : FsCore) : List String :=
  let names := s.files.keys.insertionSort (· ≤ ·)
  if s.pendingDeletes.elems.isEmpty then names else names.filter (!s.isPending ·)

/-- `file_length`. -/
def fileLength (s : FsCore) (name : String) : Except IoError Nat :=
  if s.isPending name then
    .error (noSuchFile ("file \"" ++ name ++ "\" is pending delete"))
  else
    match s.files.lookup name with
    | some bytes => .ok bytes.length
    | none => .error osNotFound

/-- `ensure_can_read`. -/
def ensureCanRead (s : FsCore) (name : String) : Except IoError Unit :=
  if s.isPending name then
    .error (noSuchFile
      ("file \"" ++ name ++ "\" is pending delete and cannot be opened for read"))
  else .ok ()

/-- `FsDirectory::open`. -/
def openFile (s : FsCore) (name : String) : Except IoError (List U8) := do
  s.ensureCanRead name
  match s.files.lookup name with
  | some bytes => .ok bytes
  | none => .error osNotFound

/-- `self.pending().insert(name)`. -/
def park (s : FsCore) (name : String) : FsCore :=
  { s with pendingDeletes := s.pendingDeletes.insert name }

/-- `self.pending().remove(name)`. -/
def unpark (s : FsCore) (name : String) : FsCore :=
  { s with pendingDeletes := s.pendingDeletes.remove name }

/-- `private_delete_file`. -/
def privateDeleteFile (env : Env) (s : FsCore) (name : String) (isPendingDelete : Bool) :
    FsCore × Except IoError Unit :=
  let called := { s with removeCalls := s.removeCalls + 1 }
  if env.refused s.removeCalls then (called.park name, .ok ())
  else if name ∈ s.files then
    ({ called with files := s.files.erase name }.unpark name, .ok ())
  else
    (called.unpark name,
      if isPendingDelete && env.windows then .ok () else .error osNotFound)

/-- The loop of `delete_pending_files`. -/
def deleteAll (env : Env) : FsCore → List String → FsCore × Except IoError Unit
  | s, [] => (s, .ok ())
  | s, name :: names =>
    match s.privateDeleteFile env name true with
    | (s, .ok ()) => deleteAll env s names
    | (s, .error e) => (s, .error e)

/-- `delete_pending_files`. -/
def deletePendingFiles (env : Env) (s : FsCore) : FsCore × Except IoError Unit :=
  deleteAll env s s.pendingDeletes.elems

/-- `maybe_delete_pending_files`. -/
def maybeDeletePendingFiles (env : Env) (s : FsCore) : FsCore × Except IoError Unit :=
  let pending := s.pendingDeletes.elems.length
  if pending = 0 then (s, .ok ())
  else
    let count := s.opsSinceLastDelete + 1
    if pending ≤ count then
      deletePendingFiles env { s with opsSinceLastDelete := 0 }
    else ({ s with opsSinceLastDelete := count }, .ok ())

/-- `create_new`: an existing name fails. -/
def createNew (s : FsCore) (name : String) (bytes : List U8) :
    FsCore × Except IoError String :=
  if name ∈ s.files then (s, .error osAlreadyExists)
  else ({ s with files := s.files.insert name bytes }, .ok name)

/-- What `create_output` and `rename` do with a name that is pending: the
delete is tried once more, and the name is taken out of the set whether the
delete was refused or not. -/
def revive (env : Env) (s : FsCore) (name : String) : FsCore × Except IoError Unit :=
  if s.isPending name then
    match (s.unpark name).privateDeleteFile env name true with
    | (s, .ok ()) => (s.unpark name, .ok ())
    | (s, .error e) => (s, .error e)
  else (s, .ok ())

/-- `create_output`. -/
def createOutput (env : Env) (s : FsCore) (name : String) (bytes : List U8) :
    FsCore × Except IoError String :=
  match s.maybeDeletePendingFiles env with
  | (s, .error e) => (s, .error e)
  | (s, .ok ()) =>
    match s.revive env name with
    | (s, .error e) => (s, .error e)
    | (s, .ok ()) => s.createNew name bytes

/-- The loop of `create_temp_output`, for a number of passes.  `none` is a
loop that has not ended yet. -/
def tempLoop (pre suf : String) (bytes : List U8) :
    Nat → FsCore → Option (FsCore × Except IoError String)
  | 0, _ => none
  | fuel + 1, s =>
    let name := tempFileName pre suf s.nextTempFileCounter
    let s := { s with nextTempFileCounter := (s.nextTempFileCounter + 1) % 2 ^ 64 }
    if s.isPending name then tempLoop pre suf bytes fuel s
    else
      match s.createNew name bytes with
      | (s, .error e) =>
        if e.kind = .alreadyExists then tempLoop pre suf bytes fuel s
        else some (s, .error e)
      | (s, .ok name) => some (s, .ok name)

/-- `create_temp_output`, with the number of passes that its loop may take. -/
def createTempOutput (env : Env) (fuel : Nat) (s : FsCore) (pre suf : String)
    (bytes : List U8) : Option (FsCore × Except IoError String) :=
  match s.maybeDeletePendingFiles env with
  | (s, .error e) => some (s, .error e)
  | (s, .ok ()) => tempLoop pre suf bytes fuel s

/-- `index_output::sync`: every name has to be there. -/
def syncFiles (s : FsCore) (names : List String) : Except IoError Unit :=
  if ∀ name ∈ names, name ∈ s.files then .ok () else .error osNotFound

/-- `sync`. -/
def sync (env : Env) (s : FsCore) (names : List String) : FsCore × Except IoError Unit :=
  match s.syncFiles names with
  | .error e => (s, .error e)
  | .ok () => s.maybeDeletePendingFiles env

/-- `index_output::rename`: `rename(2)`. -/
def renameFile (s : FsCore) (source dest : String) : FsCore × Except IoError Unit :=
  match s.files.lookup source with
  | none => (s, .error osNotFound)
  | some bytes => ({ s with files := (s.files.erase source).insert dest bytes }, .ok ())

/-- `rename`. -/
def rename (env : Env) (s : FsCore) (source dest : String) :
    FsCore × Except IoError Unit :=
  if s.isPending source then
    (s, .error (noSuchFile
      ("file \"" ++ source ++ "\" is pending delete and cannot be moved")))
  else
    match s.maybeDeletePendingFiles env with
    | (s, .error e) => (s, .error e)
    | (s, .ok ()) =>
      match s.revive env dest with
      | (s, .error e) => (s, .error e)
      | (s, .ok ()) => s.renameFile source dest

/-- `sync_meta_data`: syncing the directory itself is best effort. -/
def syncMetaData (env : Env) (s : FsCore) : FsCore × Except IoError Unit :=
  s.maybeDeletePendingFiles env

/-- `delete_file`. -/
def deleteFile (env : Env) (s : FsCore) (name : String) : FsCore × Except IoError Unit :=
  if s.isPending name then
    (s, .error (noSuchFile ("file \"" ++ name ++ "\" is already pending delete")))
  else
    match s.privateDeleteFile env name false with
    | (s, .error e) => (s, .error e)
    | (s, .ok ()) => s.maybeDeletePendingFiles env

/-- `pending_deletions`. -/
def pendingDeletions (env : Env) (s : FsCore) : FsCore × Except IoError (List String) :=
  match s.deletePendingFiles env with
  | (s, .error e) => (s, .error e)
  | (s, .ok ()) => (s, .ok s.pendingDeletes.elems)

end FsCore

/-! ## The calls of a directory -/

/-- A call of one of the operations of the directory. -/
inductive DirCall where
  | createOutput (name : String) (bytes : List U8)
  | createTempOutput (pre suf : String) (bytes : List U8)
  | rename (source dest : String)
  | deleteFile (name : String)
  | sync (names : List String)
  | syncMetaData
  | pendingDeletions
  | listAll
  deriving Repr, DecidableEq

/-- What a call returns: the name of a new file, or a list of names. -/
inductive Answer where
  | done
  | file (name : String)
  | names (l : List String)
  deriving Repr, DecidableEq

namespace FsCore

/-- A call, and the passes that the loop of `create_temp_output` may take. -/
def call (env : Env) (fuel : Nat) (s : FsCore) :
    DirCall → Option (FsCore × Except IoError Answer)
  | .createOutput name bytes => some ((s.createOutput env name bytes).map id (·.map .file))
  | .createTempOutput pre suf bytes =>
    (s.createTempOutput env fuel pre suf bytes).map (Prod.map id (·.map .file))
  | .rename source dest => some ((s.rename env source dest).map id (·.map fun _ => .done))
  | .deleteFile name => some ((s.deleteFile env name).map id (·.map fun _ => .done))
  | .sync names => some ((s.sync env names).map id (·.map fun _ => .done))
  | .syncMetaData => some ((s.syncMetaData env).map id (·.map fun _ => .done))
  | .pendingDeletions => some ((s.pendingDeletions env).map id (·.map .names))
  | .listAll => some (s, .ok (.names s.listAll))

end FsCore

end LuceneRust.Store
