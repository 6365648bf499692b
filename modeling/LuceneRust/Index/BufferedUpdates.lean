import LuceneRust.RustSem.Bytes
import Mathlib.Data.List.AList

/-!
# `lucene_index::buffered_updates`

Deletes and doc-values updates are buffered twice: once for the segments that
are written (`global`) and once, with the position in the document buffer, for
the next segment (`private`).  A buffer is frozen into a packet, and the
stream stamps the packets with their generations.

The shapes of a query are left open (`κ`), since the writer only asks whether
a query is `MatchAll`.  A hash map is an association list with unique keys.
The source sorts the entries of a packet, so that the files it writes do not
depend on the order of a hash map; here they are in the order of the map.
-/

namespace LuceneRust.Index

open RustSem

/-- `Term`. -/
structure Term where
  field : String
  bytes : List U8
  deriving Repr, DecidableEq

/-- `UpdateValue`. -/
inductive UpdateValue where
  | none
  | numeric (v : Int)
  | binary (v : List U8)
  deriving Repr, DecidableEq

/-- `DocValuesUpdate`. -/
inductive DocValuesUpdate where
  | numeric (term : Term) (field : String) (value : Option Int)
  | binary (term : Term) (field : String) (value : Option (List U8))
  deriving Repr, DecidableEq

namespace DocValuesUpdate

/-- `DocValuesUpdate::term`. -/
def term : DocValuesUpdate → Term
  | numeric t _ _ => t
  | binary t _ _ => t

/-- `DocValuesUpdate::field`. -/
def field : DocValuesUpdate → String
  | numeric _ f _ => f
  | binary _ f _ => f

/-- `DocValuesUpdate::is_numeric`. -/
def isNumeric : DocValuesUpdate → Bool
  | numeric .. => true
  | binary .. => false

/-- The value that `add_doc_values_update` buffers. -/
def value : DocValuesUpdate → UpdateValue
  | numeric _ _ (some v) => .numeric v
  | binary _ _ (some v) => .binary v
  | _ => .none

/-- `retarget_update`. -/
def retarget (t : Term) : DocValuesUpdate → DocValuesUpdate
  | numeric _ f v => numeric t f v
  | binary _ f v => binary t f v

end DocValuesUpdate

/-- `BufferedUpdate`. -/
structure BufferedUpdate where
  term : Term
  docIdUpto : Nat
  value : UpdateValue
  deriving Repr, DecidableEq

/-- `FieldUpdatesBuffer`. -/
structure FieldUpdatesBuffer where
  isNumeric : Bool
  updates : List BufferedUpdate
  deriving Repr, DecidableEq

/-- `MAX_DOC_ID_UPTO`. -/
def maxDocIdUpto : Nat := 2 ^ 31 - 1

/-- `FIRST_SEQ_NO`. -/
def firstSeqNo : Nat := 1

variable {κ : Type} [DecidableEq κ]

/-- `BufferedUpdates`. -/
structure BufferedUpdates (κ : Type) where
  deleteTerms : AList fun _ : Term => Nat
  deleteQueries : AList fun _ : κ => Nat
  fieldUpdates : AList fun _ : String => FieldUpdatesBuffer
  numFieldUpdates : Nat

namespace BufferedUpdates

/-- `BufferedUpdates::default`. -/
def empty : BufferedUpdates κ := ⟨∅, ∅, ∅, 0⟩

/-- `BufferedUpdates::add_term`: the higher limit wins. -/
def addTerm (b : BufferedUpdates κ) (term : Term) (docIdUpto : Nat) : BufferedUpdates κ :=
  match b.deleteTerms.lookup term with
  | some current =>
    if docIdUpto > current then
      { b with deleteTerms := b.deleteTerms.insert term docIdUpto }
    else b
  | none => { b with deleteTerms := b.deleteTerms.insert term docIdUpto }

/-- `BufferedUpdates::add_query`. -/
def addQuery (b : BufferedUpdates κ) (query : κ) (docIdUpto : Nat) : BufferedUpdates κ :=
  { b with deleteQueries := b.deleteQueries.insert query docIdUpto }

/-- `BufferedUpdates::add_doc_values_update`. -/
def addDocValuesUpdate (b : BufferedUpdates κ) (update : DocValuesUpdate) (docIdUpto : Nat) :
    BufferedUpdates κ :=
  let buffer := (b.fieldUpdates.lookup update.field).getD ⟨update.isNumeric, []⟩
  let buffer :=
    { buffer with updates := buffer.updates ++ [⟨update.term, docIdUpto, update.value⟩] }
  { b with
    fieldUpdates := b.fieldUpdates.insert update.field buffer
    numFieldUpdates := b.numFieldUpdates + 1 }

/-- `BufferedUpdates::any`. -/
def any (b : BufferedUpdates κ) : Bool :=
  !b.deleteTerms.entries.isEmpty || !b.deleteQueries.entries.isEmpty
    || decide (0 < b.numFieldUpdates)

end BufferedUpdates

/-- `FrozenBufferedUpdates`. -/
structure FrozenBufferedUpdates (κ : Type) where
  deleteTerms : List (Term × Nat)
  deleteQueries : List (κ × Nat)
  fieldUpdates : List (String × FieldUpdatesBuffer)
  privateSegment : Option String
  delGen : Int

namespace FrozenBufferedUpdates

/-- `FrozenBufferedUpdates::new`, and `take` of a buffer that is then
cleared. -/
def ofUpdates (updates : BufferedUpdates κ) (privateSegment : Option String) :
    FrozenBufferedUpdates κ where
  deleteTerms := updates.deleteTerms.entries.map fun e => (e.1, e.2)
  deleteQueries := updates.deleteQueries.entries.map fun e => (e.1, e.2)
  fieldUpdates := updates.fieldUpdates.entries.map fun e => (e.1, e.2)
  privateSegment := privateSegment
  delGen := -1

/-- `FrozenBufferedUpdates::applies_to`. -/
def appliesTo (p : FrozenBufferedUpdates κ) (segmentGen : Int) : Bool := segmentGen ≤ p.delGen

/-- `FrozenBufferedUpdates::limit_for`. -/
def limitFor (p : FrozenBufferedUpdates κ) (segmentGen : Int) (entryLimit : Nat) : Nat :=
  if segmentGen = p.delGen then entryLimit else maxDocIdUpto

end FrozenBufferedUpdates

/-- `BufferedUpdatesStream`. -/
structure BufferedUpdatesStream (κ : Type) where
  updates : List (FrozenBufferedUpdates κ)
  nextGen : Int

namespace BufferedUpdatesStream

/-- `BufferedUpdatesStream::new`. -/
def new : BufferedUpdatesStream κ := ⟨[], 1⟩

/-- `BufferedUpdatesStream::push`.  The generation of the packet is
`s.nextGen`. -/
def push (s : BufferedUpdatesStream κ) (packet : FrozenBufferedUpdates κ) :
    BufferedUpdatesStream κ :=
  ⟨s.updates ++ [{ packet with delGen := s.nextGen }], s.nextGen + 1⟩

/-- `BufferedUpdatesStream::next_gen`.  The generation that is left out is
`s.nextGen`. -/
def skipGen (s : BufferedUpdatesStream κ) : BufferedUpdatesStream κ :=
  { s with nextGen := s.nextGen + 1 }

/-- `BufferedUpdatesStream::any`. -/
def any (s : BufferedUpdatesStream κ) : Bool := !s.updates.isEmpty

/-- `BufferedUpdatesStream::clear`, and what `take_pending` leaves. -/
def clear (s : BufferedUpdatesStream κ) : BufferedUpdatesStream κ := { s with updates := [] }

/-- `BufferedUpdatesStream::restore_pending`. -/
def restorePending (s : BufferedUpdatesStream κ) (packets : List (FrozenBufferedUpdates κ)) :
    BufferedUpdatesStream κ :=
  { s with updates := packets ++ s.updates }

end BufferedUpdatesStream

/-- `DeleteQueue`. -/
structure DeleteQueue (κ : Type) where
  nextSeqNo : Nat
  global : BufferedUpdates κ
  privateUpdates : BufferedUpdates κ
  globalBytes : Nat

namespace DeleteQueue

/-- `DeleteQueue::new`. -/
def new : DeleteQueue κ := ⟨firstSeqNo, .empty, .empty, 0⟩

/-- `DeleteQueue::add_global_bytes`. -/
def addGlobalBytes (q : DeleteQueue κ) (bytes : Nat) : DeleteQueue κ :=
  { q with globalBytes := q.globalBytes + bytes }

/-- `DeleteQueue::next_sequence_number`.  The number is `q.nextSeqNo`. -/
def nextSequenceNumber (q : DeleteQueue κ) : DeleteQueue κ :=
  { q with nextSeqNo := q.nextSeqNo + 1 }

/-- `DeleteQueue::add_term_deletes`. -/
def addTermDeletes (q : DeleteQueue κ) (terms : List Term) (docIdUpto : Nat) : DeleteQueue κ :=
  { q with
    global := terms.foldl (fun b t => b.addTerm t maxDocIdUpto) q.global
    privateUpdates := terms.foldl (fun b t => b.addTerm t docIdUpto) q.privateUpdates }.nextSequenceNumber

/-- `DeleteQueue::add_query_deletes`. -/
def addQueryDeletes (q : DeleteQueue κ) (queries : List κ) (docIdUpto : Nat) : DeleteQueue κ :=
  { q with
    global := queries.foldl (fun b c => b.addQuery c maxDocIdUpto) q.global
    privateUpdates := queries.foldl (fun b c => b.addQuery c docIdUpto) q.privateUpdates
    }.nextSequenceNumber

/-- `DeleteQueue::add_doc_values_updates`. -/
def addDocValuesUpdates (q : DeleteQueue κ) (updates : List DocValuesUpdate)
    (docIdUpto : Nat) : DeleteQueue κ :=
  { q with
    global := updates.foldl (fun b u => b.addDocValuesUpdate u maxDocIdUpto) q.global
    privateUpdates := updates.foldl (fun b u => b.addDocValuesUpdate u docIdUpto) q.privateUpdates
    }.nextSequenceNumber

/-- The packet of `DeleteQueue::freeze_global_buffer`. -/
def frozenGlobal (q : DeleteQueue κ) : Option (FrozenBufferedUpdates κ) :=
  if q.global.any then some (.ofUpdates q.global none) else none

/-- What `DeleteQueue::freeze_global_buffer` leaves. -/
def clearGlobal (q : DeleteQueue κ) : DeleteQueue κ :=
  { q with global := .empty, globalBytes := 0 }

/-- The packet of `DeleteQueue::freeze_private_buffer`. -/
def frozenPrivate (q : DeleteQueue κ) (segmentName : String) :
    Option (FrozenBufferedUpdates κ) :=
  if q.privateUpdates.any then some (.ofUpdates q.privateUpdates (some segmentName)) else none

/-- What `DeleteQueue::freeze_private_buffer` leaves. -/
def clearPrivate (q : DeleteQueue κ) : DeleteQueue κ := { q with privateUpdates := .empty }

/-- `DeleteQueue::clear`. -/
def clear (q : DeleteQueue κ) : DeleteQueue κ := q.clearGlobal.clearPrivate

end DeleteQueue

end LuceneRust.Index
