import LuceneRust.Index.BufferedUpdates
import LuceneRust.RustSem.SortedVec
import LuceneRust.Util.FixedBitSet

/-!
# `IndexWriter::resolve_delete_query`

The documents of one segment that a delete by query hits.  A doc id is an
`i32`.

The block-tree dictionary of a field is its entries: the terms in the order of
its `iter`, each with the doc ids that its postings decode to.  Reading them
from the files cannot fail here.
-/

namespace LuceneRust.Index

open RustSem
open Util (FixedBitSet)

/-- `DeleteQuery`. -/
inductive DeleteQuery where
  | term (term : Term)
  | prefixOf (field : String) (bytes : List U8)
  | termRange (field : String) (lower upper : Option (List U8))
      (includeLower includeUpper : Bool)
  | matchAll
  | any (clauses : List DeleteQuery)
  | all (clauses : List DeleteQuery)
  | not (inner : DeleteQuery)

/-- The error of a doc id that is not one of the segment,
`deletes::Error::DocOutOfRange`. -/
structure DocOutOfRange where
  docId : Int
  maxDoc : Nat
  deriving DecidableEq, Repr

/-- A call that resolves doc ids. -/
abbrev Resolved := Outcome DocOutOfRange

/-- One term of a field, with the doc ids of its postings. -/
structure TermEntry where
  bytes : List U8
  docs : List Int

/-- `DeleteSegmentView`. -/
structure DeleteSegmentView where
  maxDoc : Nat
  liveDocs : Option FixedBitSet
  fields : String → Option (List TermEntry)

/-- `n as i32`. -/
def asI32 (n : Nat) : Int := (BitVec.ofNat 32 n).toInt

/-- `bits.get(idx)`. -/
def getBit (bits : FixedBitSet) (idx : Nat) : Resolved Bool :=
  match bits.get idx with
  | .ok b => .ok b
  | _ => .panic

/-- The loop of `resolve_term_doc_ids` over the postings. -/
def liveTermDocs (bits : FixedBitSet) : List Int → Resolved (List Int)
  | [] => .ok []
  | docId :: docs => do
    let maxDoc := bits.numBits
    if 0 ≤ docId ∧ docId.toNat < maxDoc then
      let alive ← getBit bits docId.toNat
      let out ← liveTermDocs bits docs
      .ok (if alive then docId :: out else out)
    else .err ⟨docId, maxDoc⟩

namespace DeleteSegmentView

variable (opened : DeleteSegmentView)

/-- `resolve_term_doc_ids`. -/
def resolveTermDocIds (field : String) (term : List U8) : Resolved (List Int) :=
  match opened.fields field with
  | none => .ok []
  | some fieldTerms =>
    match fieldTerms.find? fun entry => entry.bytes == term with
    | none => .ok []
    | some entry =>
      match opened.liveDocs with
      | none => .ok entry.docs
      | some bits => liveTermDocs bits entry.docs

/-- The closure `live`. -/
def live (doc : Int) : Resolved Bool :=
  match opened.liveDocs with
  | none => .ok true
  | some bits => getBit bits doc.toNat

/-- `(0..n as i32).filter(|&d| live(d) && keep(d))`, over the doc ids that are
left. -/
def liveDocsWhere (keep : Int → Bool) : List Int → Resolved (List Int)
  | [] => .ok []
  | d :: docs => do
    let alive ← opened.live d
    let out ← liveDocsWhere keep docs
    .ok (if alive && keep d then d :: out else out)

/-- The doc ids `0..n as i32`. -/
def docRange (n : Nat) : List Int := (List.range (asI32 n).toNat).map Int.ofNat

end DeleteSegmentView

/-- `TermSpan`. -/
inductive TermSpan where
  | take
  | skip
  | stop
  deriving DecidableEq, Repr

/-- The classifier of a `Prefix`. -/
def prefixSpan (bytes t : List U8) : TermSpan :=
  if bytes.isPrefixOf t then .take
  else if bytes < t then .stop
  else .skip

/-- The term is below the lower bound. -/
def belowLower (lower : Option (List U8)) (includeLower : Bool) (t : List U8) : Bool :=
  match lower with
  | none => false
  | some lo => if includeLower then decide (t < lo) else decide (t ≤ lo)

/-- The term is above the upper bound. -/
def aboveUpper (upper : Option (List U8)) (includeUpper : Bool) (t : List U8) : Bool :=
  match upper with
  | none => false
  | some hi => if includeUpper then decide (hi < t) else decide (hi ≤ t)

/-- The classifier of a `TermRange`. -/
def rangeSpan (lower upper : Option (List U8)) (includeLower includeUpper : Bool)
    (t : List U8) : TermSpan :=
  if belowLower lower includeLower t then .skip
  else if aboveUpper upper includeUpper t then .stop
  else .take

/-- The walk of `resolve_term_span` over the dictionary. -/
def matchedTerms (classify : List U8 → TermSpan) : List TermEntry → List (List U8)
  | [] => []
  | entry :: terms =>
    match classify entry.bytes with
    | .take => entry.bytes :: matchedTerms classify terms
    | .skip => matchedTerms classify terms
    | .stop => []

namespace DeleteSegmentView

variable (opened : DeleteSegmentView)

/-- The second loop of `resolve_term_span`: the doc ids of the kept terms. -/
def termsDocIds (field : String) : List (List U8) → Resolved (List Int)
  | [] => .ok []
  | term :: terms => do
    let docs ← opened.resolveTermDocIds field term
    let out ← termsDocIds field terms
    .ok (docs ++ out)

/-- `resolve_term_span`. -/
def resolveTermSpan (field : String) (classify : List U8 → TermSpan) : Resolved (List Int) :=
  match opened.fields field with
  | none => .ok []
  | some fieldTerms => do
    let out ← opened.termsDocIds field (matchedTerms classify fieldTerms)
    .ok (dedup (sortUnstable out))

mutual

/-- `resolve_delete_query`. -/
def resolveDeleteQuery (maxDocBound : Nat) : DeleteQuery → Resolved (List Int)
  | .term term => opened.resolveTermDocIds term.field term.bytes
  | .matchAll => opened.liveDocsWhere (fun _ => true) (docRange (min maxDocBound opened.maxDoc))
  | .prefixOf field bytes => opened.resolveTermSpan field (prefixSpan bytes)
  | .termRange field lower upper includeLower includeUpper =>
    opened.resolveTermSpan field (rangeSpan lower upper includeLower includeUpper)
  | .any clauses => do
    let out ← resolveAny maxDocBound clauses
    .ok (dedup (sortUnstable out))
  | .all clauses => resolveAll maxDocBound clauses
  | .not inner => do
    let excluded ← resolveDeleteQuery maxDocBound inner
    let excluded := dedup (sortUnstable excluded)
    opened.liveDocsWhere (fun d => !binarySearch excluded d)
      (docRange (min maxDocBound opened.maxDoc))

/-- The loop of `Any`. -/
def resolveAny (maxDocBound : Nat) : List DeleteQuery → Resolved (List Int)
  | [] => .ok []
  | clause :: clauses => do
    let docs ← resolveDeleteQuery maxDocBound clause
    let out ← resolveAny maxDocBound clauses
    .ok (docs ++ out)

/-- The case of `All`: the first clause, cut down by the others. -/
def resolveAll (maxDocBound : Nat) : List DeleteQuery → Resolved (List Int)
  | [] => .ok []
  | first :: clauses => do
    let out ← resolveDeleteQuery maxDocBound first
    retainClauses maxDocBound clauses (dedup (sortUnstable out))

/-- The loop of `All` over the other clauses. -/
def retainClauses (maxDocBound : Nat) : List DeleteQuery → List Int → Resolved (List Int)
  | [], out => .ok out
  | clause :: clauses, out => do
    let next ← resolveDeleteQuery maxDocBound clause
    let next := dedup (sortUnstable next)
    retainClauses maxDocBound clauses (out.filter fun d => binarySearch next d)

end

end DeleteSegmentView

end LuceneRust.Index
