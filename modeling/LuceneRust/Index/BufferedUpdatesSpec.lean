import LuceneRust.Index.SegmentDocs

/-!
# What buffered updates do to a document

A packet that was frozen from a buffer is an edit of each document at a position
below the limits of its entries.  `FrozenBufferedUpdates.set_prod` reads the values
that several packets set.
-/

namespace LuceneRust.Index

open EditLog (Edit)

variable {δ κ : Type} [DecidableEq κ]

variable (cfg : IndexingConfig δ κ)

/-- The values that the entries of a field's buffer set. -/
def FieldUpdatesBuffer.valuesSet (limit : Nat → Nat) (pos : Nat) (d : δ)
    (b : FieldUpdatesBuffer) : List UpdateValue :=
  (b.updates.filter fun u => cfg.hasTerm u.term d && pos < limit u.docIdUpto).map fun u =>
    bufferValue b.isNumeric u.value

namespace FrozenBufferedUpdates

/-- The values that a packet sets of one field. -/
def valuesSet (limit : Nat → Nat) (pos : Nat) (d : δ) (f : String)
    (p : FrozenBufferedUpdates κ) : List UpdateValue :=
  if (cfg.docValuesType f).isSome then
    p.fieldUpdates.flatMap fun e => if e.1 = f then e.2.valuesSet cfg limit pos d else []
  else []

/-- What a packet does to the document `d` at the position `pos`. -/
def edit (limit : Nat → Nat) (pos : Nat) (d : δ) (p : FrozenBufferedUpdates κ) :
    Edit String UpdateValue where
  killed :=
    p.deleteTerms.any (fun e => cfg.hasTerm e.1 d && pos < limit e.2)
      || p.deleteQueries.any fun e => cfg.matchesQuery e.1 d && pos < limit e.2
  set f := (p.valuesSet cfg limit pos d f).getLast?

omit [DecidableEq κ] in
theorem set_prod (limit : FrozenBufferedUpdates κ → Nat → Nat) (pos : Nat) (d : δ) (f : String)
    (ps : List (FrozenBufferedUpdates κ)) :
    (ps.map fun p => edit cfg (limit p) pos d p).prod.set f =
      (ps.flatMap fun p => valuesSet cfg (limit p) pos d f p).getLast? := by
  induction ps with
  | nil => rfl
  | cons p ps ih =>
    rw [List.map_cons, List.prod_cons, Edit.set_mul, ih, List.flatMap_cons, List.getLast?_append]
    rfl

end FrozenBufferedUpdates

end LuceneRust.Index
