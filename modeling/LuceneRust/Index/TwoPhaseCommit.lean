import LuceneRust.Index.SegmentInfos
import LuceneRust.Lib.CrashHoare
import LuceneRust.Store.FsCore

/-!
# `lucene_index::segment_infos`, the two phases of a commit

`writePending` writes the file of a commit under a name that no reader looks
for, and `finishPending` renames it.  The directory is a map from names to
bytes.  Each of its calls takes effect or fails, and the process may die
before each of them: `Faults` tells, of each call in its turn, what happens.
The bytes of an output are in the file once it is closed; a `close` that fails
or is cut short leaves the first so many of them (`Faults.torn`).
-/

namespace LuceneRust.Index

open RustSem
open CrashHoare (Prog Ran)
open Store (Files IoError osNotFound)

/-- What happens to each call on the directory. -/
structure Faults where
  /-- The call fails. -/
  fails : Nat → Bool
  /-- The process dies before the call is through. -/
  crash : Nat → Bool
  /-- How many bytes an output that is not closed has written. -/
  torn : Nat → Nat

/-- A directory, and how many calls were made on it. -/
structure DirState where
  files : Files
  calls : Nat

/-- An error of the commit: of the file format, or of the directory. -/
inductive CommitError where
  | infos (e : SegmentInfosError)
  | io (e : IoError)
  deriving Repr, DecidableEq

/-- The error of a call that fails. -/
def osError : IoError := ⟨.other, "Input/output error (os error 5)"⟩

/-- A call on the directory.  `failed` is what a call leaves that does not go
through. -/
def dirCall (fx : Faults) (failed : Nat → Files → Files)
    (effect : Files → Except IoError Files) : Prog DirState (Except IoError Unit) := fun s =>
  if fx.crash s.calls then .crashed ⟨failed s.calls s.files, s.calls⟩
  else if fx.fails s.calls then
    .returned ⟨failed s.calls s.files, s.calls + 1⟩ (.error osError)
  else
    match effect s.files with
    | .ok files => .returned ⟨files, s.calls + 1⟩ (.ok ())
    | .error e => .returned ⟨s.files, s.calls + 1⟩ (.error e)

/-- A call that fails without an effect. -/
def unchanged (_ : Nat) (files : Files) : Files := files

section

variable (fx : Faults)

/-- `Directory::sync_meta_data`. -/
def syncMetaData : Prog DirState (Except IoError Unit) := dirCall fx unchanged .ok

/-- `Directory::create_output`: an empty file until it is closed. -/
def createOutput (name : String) : Prog DirState (Except IoError Unit) :=
  dirCall fx unchanged fun files => .ok (files.insert name [])

/-- `FsIndexOutput::close`: the bytes that were written to the output are in
the file. -/
def closeOutput (name : String) (bytes : List U8) : Prog DirState (Except IoError Unit) :=
  dirCall fx (fun n files => files.insert name (bytes.take (fx.torn n)))
    fun files => .ok (files.insert name bytes)

/-- `Directory::sync` of one name. -/
def syncFile (name : String) : Prog DirState (Except IoError Unit) :=
  dirCall fx unchanged fun files => if name ∈ files then .ok files else .error osNotFound

/-- `Directory::delete_file`. -/
def deleteFile (name : String) : Prog DirState (Except IoError Unit) :=
  dirCall fx unchanged fun files =>
    if name ∈ files then .ok (files.erase name) else .error osNotFound

/-- `Directory::rename`. -/
def rename (source dest : String) : Prog DirState (Except IoError Unit) :=
  dirCall fx unchanged fun files =>
    match files.lookup source with
    | none => .error osNotFound
    | some bytes => .ok ((files.erase source).insert dest bytes)

/-- The name of a generation, which a negative one does not have. -/
def commitName (sis : SegmentInfos) (name : Int → Option String) :
    Outcome CommitError String :=
  .okOr (name sis.generation) (.infos (.store (.corrupted
    ("invalid generation for a segments_N file name: " ++ toString sis.generation))))

/-- What `write_pending` does once the file is there: it is closed and synced,
and deleted when that fails. -/
def writeOutput (pendingName : String) (bytes : List U8) :
    Prog DirState (Outcome CommitError String) := do
  match ← closeOutput fx pendingName bytes with
  | .error e =>
    let _ ← deleteFile fx pendingName
    return .err (.io e)
  | .ok () =>
    match ← syncFile fx pendingName with
    | .error e =>
      let _ ← deleteFile fx pendingName
      return .err (.io e)
    | .ok () => return .ok pendingName

/-- `write_pending`.  A panic of `to_bytes` ends it before the file is there. -/
def writePending (bmi2 : Bool) (crc32 : List U8 → U32) (sis : SegmentInfos) :
    Prog DirState (Outcome CommitError String) :=
  match checkWritableGenerations sis with
  | .err e => return .err (.infos e)
  | .panic => return .panic
  | .ok () =>
    match commitName sis Store.pendingSegmentsFileName with
    | .err e => return .err e
    | .panic => return .panic
    | .ok pendingName => do
      match ← syncMetaData fx with
      | .error e => return .err (.io e)
      | .ok () =>
        match toBytes bmi2 crc32 sis with
        | .err e => return .err (.infos (.store e))
        | .panic => return .panic
        | .ok bytes =>
          match ← createOutput fx pendingName with
          | .error e => return .err (.io e)
          | .ok () => writeOutput fx pendingName bytes

/-- `finish_pending`. -/
def finishPending (sis : SegmentInfos) : Prog DirState (Outcome CommitError String) :=
  match commitName sis Store.pendingSegmentsFileName with
  | .err e => return .err e
  | .panic => return .panic
  | .ok pendingName =>
    match commitName sis Store.segmentsFileName with
    | .err e => return .err e
    | .panic => return .panic
    | .ok fileName => do
      match ← rename fx pendingName fileName with
      | .error e => return .err (.io e)
      | .ok () =>
        match ← syncMetaData fx with
        | .ok () => return .ok fileName
        | .error e =>
          match ← rename fx fileName pendingName with
          | .ok () => return .err (.io e)
          | .error _ =>
            let _ ← deleteFile fx fileName
            return .err (.io e)

/-- `rollback_pending`. -/
def rollbackPending (sis : SegmentInfos) : Prog DirState Unit :=
  match Store.pendingSegmentsFileName sis.generation with
  | none => return ()
  | some pendingName => do
    let _ ← deleteFile fx pendingName
    return ()

end

/-- An error of the format as an error of the commit. -/
def ofInfos {α : Type} : Result α → Outcome CommitError α
  | .ok a => .ok a
  | .err e => .err (.infos e)
  | .panic => .panic

/-- `Directory::list_all`. -/
def listAll (files : Files) : List String := files.keys.insertionSort (· ≤ ·)

/-- `open_commit_file`. -/
def openCommitFile (files : Files) (generation : Int) : Outcome CommitError (List U8) := do
  let name ← .okOr (Store.segmentsFileName generation)
    (.infos (.store (.corrupted "no segments_N commit file found")))
  .okOr (files.lookup name) (.io osNotFound)

/-- `read_latest_commit`. -/
def readLatestCommit (files : Files) : Outcome CommitError (Int × List U8) := do
  let generation ← ofInfos (ofStore (Store.lastCommitGeneration (listAll files)))
  let bytes ← openCommitFile files generation
  .ok (generation, bytes)

/-- `read_latest`. -/
def readLatest (crc32 : List U8 → U32) (files : Files) : Outcome CommitError SegmentInfos := do
  let (generation, bytes) ← readLatestCommit files
  ofInfos (parse crc32 bytes generation)

end LuceneRust.Index
