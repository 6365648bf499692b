import LuceneRust.Index.DeletionPolicy
import LuceneRust.Index.TwoPhaseCommit
import LuceneRust.Lib.StateHoare

/-!
# `lucene_index::index_file_deleter`

The deleter counts, for each file of the directory, the commit points and the
checkpoint that name it, and deletes a file with its last reference.
`FileDeleter` is the half of its state that counts, with the directory;
`IndexFileDeleter` adds the commit points.  The state of the deletion policy
is a part of the state here, since each function of the policy is one step.

A call on the directory may fail (`DirFaults`), and a delete that fails may
have removed the file.  The parser of the `.si` files is the parameter
`parseSi`.
-/

namespace LuceneRust.Index

open RustSem
open StateHoare (Op)
open Store (Files IoError osNotFound startsWith)

/-- `index_file_deleter::Error`. -/
inductive DeleterError where
  | store (e : Store.Error)
  | io (e : IoError)
  | segmentInfo (message : String)
  | segmentInfos (e : SegmentInfosError)
  | policy (e : PolicyError)
  | unreferencedCommitFile (name : String)
  deriving Repr, DecidableEq

/-- What happens to each call on the directory. -/
structure DirFaults where
  /-- The call fails. -/
  fails : Nat → Bool
  /-- A delete that fails removes the file all the same. -/
  removes : Nat → Bool

/-! ## File names -/

/-- `is_segments_file_name`. -/
def isSegmentsFileName (name : String) : Bool :=
  startsWith name "segments" && name != "segments.gen"

/-- A character of `[a-z0-9]`. -/
def isBaseChar (c : Char) : Bool := ('a' ≤ c && c ≤ 'z') || ('0' ≤ c && c ≤ '9')

/-- A character that the `.` of a Java pattern does not match. -/
def isLineTerminator (c : Char) : Bool :=
  c == '\n' || c == '\r' || c.toNat == 0x85 || c.toNat == 0x2028 || c.toNat == 0x2029

/-- `is_index_file_name`. -/
def isIndexFileName (name : String) : Bool :=
  if "write.lock".toList.isSuffixOf name.toList then false
  else if startsWith name "segments" || startsWith name "pending_segments" then true
  else if name.toList.any isLineTerminator then false
  else
    match name.toList with
    | '_' :: rest =>
      if (rest.takeWhile isBaseChar).length = 0 then false
      else
        match rest.dropWhile isBaseChar with
        | '.' :: _ => true
        | '_' :: tail => tail.contains '.'
        | _ => false
    | _ => false

/-- `parse_segment_name`.  A first character of more than one byte has no
boundary behind its first byte. -/
def parseSegmentName (fileName : String) : String :=
  match fileName.toList with
  | [] => fileName
  | c :: rest =>
    if c.toNat < 128 then String.ofList (c :: rest.takeWhile fun c => c != '_' && c != '.')
    else fileName

/-- `liv_file_name`. -/
def livFileName (segmentName : String) (delGen : Int) : String :=
  if delGen = 0 then segmentName ++ ".liv"
  else segmentName ++ "_" ++ Util.toBase36 delGen ++ ".liv"

/-- `push` of a name that is not there yet. -/
def pushNew (files : List String) (name : String) : List String :=
  if name ∈ files then files else files ++ [name]

/-- `SegmentCommitInfo::files`. -/
def SegmentCommitInfo.files (sci : SegmentCommitInfo) (siFiles : List String) : List String :=
  let files := siFiles.foldl pushNew []
  let files :=
    if sci.delGen.toInt = -1 then files
    else pushNew files (livFileName sci.segmentName sci.delGen.toInt)
  let files := sci.fieldInfosFiles.foldl pushNew files
  sci.dvUpdateFiles.foldl (fun files field => field.2.foldl pushNew files) files

/-- `with_self_listing`. -/
def withSelfListing (segmentName : String) (files : List String) : List String :=
  if segmentName ++ ".si" ∈ files then files else files ++ [segmentName ++ ".si"]

/-! ## Reference counts -/

/-- The counts of the files that the deleter knows. -/
abbrev RefCounts := AList fun _ : String => Nat

/-- `u32::MAX`. -/
def u32Max : Nat := 2 ^ 32 - 1

/-- The directory, how many calls were made on it, and the counts. -/
structure FileDeleter where
  files : Files
  calls : Nat
  refCounts : RefCounts

namespace FileDeleter

/-- `ref_count`. -/
def refCount (s : FileDeleter) (name : String) : Nat := (s.refCounts.lookup name).getD 0

/-- `exists`. -/
def «exists» (s : FileDeleter) (name : String) : Bool := 0 < s.refCount name

/-- One name of `inc_ref_all`. -/
def incRef (s : FileDeleter) (name : String) : FileDeleter :=
  { s with refCounts := s.refCounts.insert name (min (s.refCount name + 1) u32Max) }

/-- `inc_ref_all`. -/
def incRefAll (s : FileDeleter) (names : List String) : FileDeleter := names.foldl incRef s

/-- `unrefed_files`. -/
def unrefedFiles (s : FileDeleter) : List String :=
  (s.refCounts.keys.filter fun name => s.refCounts.lookup name = some 0).insertionSort (· ≤ ·)

section

variable (fx : DirFaults)

/-- A call on the directory that only reads. -/
def readCall : Op DeleterError FileDeleter Unit := fun s =>
  if fx.fails s.calls then (.err (.io osError), { s with calls := s.calls + 1 })
  else (.ok (), { s with calls := s.calls + 1 })

/-- `Directory::list_all`. -/
def listAll : Op DeleterError FileDeleter (List String) := do
  readCall fx
  Op.get fun s => Index.listAll s.files

/-- `Directory::open`, with the bytes of the file. -/
def openFile (name : String) : Op DeleterError FileDeleter (List U8) := do
  readCall fx
  let bytes ← Op.get fun s => s.files.lookup name
  Op.lift (.okOr bytes (.io osNotFound))

/-- `Directory::delete_file`. -/
def deleteFile (name : String) (s : FileDeleter) : Option DeleterError × FileDeleter :=
  if fx.fails s.calls then
    (some (.io osError), { s with
      calls := s.calls + 1
      files := if fx.removes s.calls then s.files.erase name else s.files })
  else if name ∈ s.files then
    (none, { s with calls := s.calls + 1, files := s.files.erase name })
  else (some (.io osNotFound), { s with calls := s.calls + 1 })

/-- One name of a pass of `delete_files`. -/
def deleteOne (segmentsPass : Bool) (st : Option DeleterError × FileDeleter) (name : String) :
    Option DeleterError × FileDeleter :=
  if isSegmentsFileName name = segmentsPass then
    let s := { st.2 with refCounts := st.2.refCounts.erase name }
    let (e, s) := deleteFile fx name s
    (st.1.or e, s)
  else st

/-- `delete_files`. -/
def deleteFiles (names : List String) : Op DeleterError FileDeleter Unit := fun s =>
  match names.foldl (deleteOne fx true) (none, s) with
  | (some e, s) => (.err e, s)
  | (none, s) =>
    match names.foldl (deleteOne fx false) (none, s) with
    | (some e, s) => (.err e, s)
    | (none, s) => (.ok (), s)

/-- One name of `dec_ref_all`: the counts, and the names that are to be
deleted. -/
def decRef (st : RefCounts × List String) (name : String) : Outcome Empty (RefCounts × List String) :=
  match st.1.lookup name with
  | none => .ok st
  | some count => do
    .guardOk (0 < count)
    if count - 1 = 0 then .ok (st.1.erase name, st.2 ++ [name])
    else .ok (st.1.insert name (count - 1), st.2)

/-- `dec_ref_all`. -/
def decRefAll (names : List String) : Op DeleterError FileDeleter Unit := fun s =>
  match names.foldlM decRef (s.refCounts, []) with
  | .ok (refCounts, toDelete) => deleteFiles fx toDelete { s with refCounts := refCounts }
  | _ => (.panic, s)

end

end FileDeleter

/-! ## Commit points -/

/-- `DeletionPolicy`. -/
inductive DeletionPolicy where
  | keepOnlyLastCommit
  | keepAll
  deriving Repr, DecidableEq

/-- `CommitPoint`. -/
structure CommitPoint where
  generation : Int
  segmentsFileName : String
  files : List String
  segmentCount : Nat
  userData : List (String × String)
  deriving Repr, DecidableEq

/-- `IndexFileDeleter`.  A custom policy is a `SnapshotDeletionPolicy` over the
given primary policy, with the state `snapshots`. -/
structure IndexFileDeleter extends FileDeleter where
  policy : DeletionPolicy
  custom : Option Primary
  snapshots : SnapshotState
  commits : List CommitPoint
  lastFiles : List String
  siFiles : AList fun _ : String => Id × List String

/-- The `IndexCommit` of a commit point. -/
def CommitPoint.toIndexCommit (c : CommitPoint) : IndexCommit :=
  ⟨c.generation, c.segmentsFileName, c.files, c.segmentCount, c.userData, false⟩

/-- `commits.sort_by_key(|c| c.generation)`. -/
def sortCommits (commits : List CommitPoint) : List CommitPoint :=
  commits.insertionSort fun a b => a.generation ≤ b.generation

namespace IndexFileDeleter

/-- A program over the counts, run on the deleter. -/
def onFiles {α : Type} (x : Op DeleterError FileDeleter α) :
    Op DeleterError IndexFileDeleter α := fun d =>
  let (r, s) := x d.toFileDeleter
  (r, { d with toFileDeleter := s })

/-- `index_commits`. -/
def indexCommits (d : IndexFileDeleter) : List IndexCommit :=
  d.commits.map CommitPoint.toIndexCommit

/-- `forget_dead_segments`. -/
def forgetDeadSegments (d : IndexFileDeleter) : IndexFileDeleter :=
  let referenced := d.refCounts.keys.map parseSegmentName
  { d with siFiles := ⟨d.siFiles.entries.filter fun e => e.1 ∈ referenced,
      d.siFiles.nodupKeys.sublist List.filter_sublist⟩ }

section

variable (fx : DirFaults)

/-- `deleteCommits`: every commit that is not kept loses its references. -/
def dropCommits (kept doomed : List CommitPoint) : Op DeleterError IndexFileDeleter Unit := do
  Op.modify fun d => { d with commits := kept }
  doomed.forM fun commit => onFiles (FileDeleter.decRefAll fx commit.files)

/-- `apply_policy`. -/
def applyPolicy (init : Bool) : Op DeleterError IndexFileDeleter Unit := do
  let d ← Op.get fun d => d
  match d.custom with
  | some primary =>
    let (list, snapshots) :=
      if init then d.snapshots.onInit primary d.indexCommits
      else d.snapshots.onCommit primary d.indexCommits
    Op.modify fun d => { d with snapshots := snapshots }
    let decided := d.commits.zip list
    dropCommits fx ((decided.filter fun p => !p.2.deleted).map Prod.fst)
      ((decided.filter fun p => p.2.deleted).map Prod.fst)
  | none =>
    if d.policy = .keepAll ∨ d.commits.length < 2 then pure ()
    else
      dropCommits fx (d.commits.drop (d.commits.length - 1))
        (d.commits.take (d.commits.length - 1))

/-- `revisit_policy`. -/
def revisitPolicy : Op DeleterError IndexFileDeleter Unit := do
  let commits ← Op.get fun d => d.commits
  if commits = [] then pure ()
  else do
    applyPolicy fx false
    Op.modify forgetDeadSegments

/-- `refresh`. -/
def refresh : Op DeleterError IndexFileDeleter Unit := onFiles do
  let files ← FileDeleter.listAll fx
  let toDelete ← Op.get fun s => files.filter fun name => isIndexFileName name && !s.exists name
  FileDeleter.deleteFiles fx toDelete

variable (parseSi : SegmentCommitInfo → List U8 → Except String (List String))

/-- `segment_info_files`. -/
def segmentInfoFiles (sci : SegmentCommitInfo) : Op DeleterError IndexFileDeleter (List String) := do
  let bytes ← onFiles (FileDeleter.openFile fx (sci.segmentName ++ ".si"))
  match parseSi sci bytes with
  | .ok files => pure (withSelfListing sci.segmentName files)
  | .error message => Op.lift (.err (.segmentInfo message))

/-- `ensure_si_files`. -/
def ensureSiFiles (sci : SegmentCommitInfo) : Op DeleterError IndexFileDeleter Unit := do
  let known ← Op.get fun d => d.siFiles.lookup sci.segmentName
  if known.map Prod.fst = some sci.segmentId then pure ()
  else do
    let files ← segmentInfoFiles fx parseSi sci
    Op.modify fun d =>
      { d with siFiles := d.siFiles.insert sci.segmentName (sci.segmentId, files) }

/-- The second loop of `commit_files`. -/
def collectFiles (out : List String) :
    List SegmentCommitInfo → Op DeleterError IndexFileDeleter (List String)
  | [] => pure out
  | sci :: segments => do
    let known ← Op.get fun d => d.siFiles.lookup sci.segmentName
    let (_, siFiles) ← Op.lift (.expect known)
    collectFiles ((sci.files siFiles).foldl pushNew out) segments

/-- `commit_files`. -/
def commitFiles (infos : SegmentInfos) (includeSegmentsFile : Bool) :
    Op DeleterError IndexFileDeleter (List String) := do
  let out :=
    if includeSegmentsFile then (Store.segmentsFileName infos.generation).toList else []
  infos.segments.forM (ensureSiFiles fx parseSi)
  collectFiles out infos.segments

/-- The commit point of a commit. -/
def newCommitPoint (infos : SegmentInfos) (segmentsFileName : String) (files : List String) :
    CommitPoint :=
  ⟨infos.generation, segmentsFileName, files, infos.segments.length, infos.userData⟩

/-- `checkpoint`. -/
def checkpoint (infos : SegmentInfos) (isCommit : Bool) :
    Op DeleterError IndexFileDeleter Unit := do
  let files ← commitFiles fx parseSi infos isCommit
  Op.modify fun d => { d with toFileDeleter := d.incRefAll files }
  if isCommit then do
    let name := (Store.segmentsFileName infos.generation).getD "segments"
    Op.modify fun d =>
      { d with commits := sortCommits (d.commits ++ [newCommitPoint infos name files]) }
    applyPolicy fx false
  else do
    let previous ← Op.get fun d => d.lastFiles
    Op.modify fun d => { d with lastFiles := [] }
    onFiles (FileDeleter.decRefAll fx previous)
    Op.modify fun d => { d with lastFiles := files }
  Op.modify forgetDeadSegments

variable (crc32 : List U8 → U32)

/-- One file of the listing in `open_inner`. -/
def scanFile (fileName : String) : Op DeleterError IndexFileDeleter Unit :=
  if isIndexFileName fileName = false then pure ()
  else do
    Op.modify fun d =>
      if fileName ∈ d.refCounts then d
      else { d with refCounts := d.refCounts.insert fileName 0 }
    if isSegmentsFileName fileName = false then pure ()
    else do
      let generation ← Op.lift (match Store.generationFromSegmentsFileName fileName with
        | .ok g => .ok g
        | .err e => .err (.store e)
        | .panic => .panic)
      let bytes ← onFiles (FileDeleter.openFile fx fileName)
      let sis ← Op.lift (match parse crc32 bytes generation with
        | .ok sis => .ok sis
        | .err e => .err (.segmentInfos e)
        | .panic => .panic)
      let files ← commitFiles fx parseSi sis true
      Op.modify fun d => { d with toFileDeleter := d.incRefAll files }
      Op.modify fun d => { d with
        commits := d.commits ++ [{ newCommitPoint sis fileName files with
          generation := generation }] }

/-- The walk over the directory in `open_inner`. -/
def scan : Op DeleterError IndexFileDeleter Unit := do
  let files ← onFiles (FileDeleter.listAll fx)
  files.forM (scanFile fx parseSi crc32)
  Op.modify fun d => { d with commits := sortCommits d.commits }

/-- `open_inner`, behind the walk over the directory. -/
def openScanned (current : SegmentInfos) : Op DeleterError IndexFileDeleter Unit := do
  let unrefed ← Op.get fun d => d.unrefedFiles
  match unrefed.find? isSegmentsFileName with
  | some name => Op.lift (.err (.unreferencedCommitFile name))
  | none => do
    onFiles (FileDeleter.deleteFiles fx unrefed)
    checkpoint fx parseSi current false
    applyPolicy fx true

/-- `open_inner`, from a deleter with nothing in it. -/
def openInner (current : SegmentInfos) : Op DeleterError IndexFileDeleter Unit := do
  scan fx parseSi crc32
  openScanned fx parseSi current

end

/-- The deleter that `open_with_policy` starts from, over a policy that was
not used before. -/
def new (files : Files) (primary : Primary) : IndexFileDeleter :=
  { files := files
    calls := 0
    refCounts := ∅
    policy := .keepOnlyLastCommit
    custom := some primary
    snapshots := SnapshotState.new
    commits := []
    lastFiles := []
    siFiles := ∅ }

end IndexFileDeleter

end LuceneRust.Index
