import LuceneRust.RustSem.Bytes
import Mathlib

/-!
# `lucene_index::flush_policy`, and `ConcurrentIndexWriter::update_ram`

The accounting that decides when a buffer is flushed and when indexing
stalls.  A `usize` is a `Nat`, and sums saturate at `usizeMax`.

A `FlushControl` has one field that the source does not have: `shortfall`
adds up what the saturating subtractions have dropped.  Nothing reads it.

`Writer` is the part of the `ConcurrentIndexWriter` that `update_ram` uses.
Every call to the control is made inside an `update_ram`, under its lock, so a
run is a list of `update_ram` calls with a list of changes each.
-/

namespace LuceneRust.Index.FlushPolicy

open RustSem (saturatingMul)

/-! ## Saturating `usize` -/

/-- `usize::MAX`. -/
def usizeMax : Nat := 2 ^ 64 - 1

/-- `saturating_add`. -/
def saturatingAdd (a b : Nat) : Nat := min (a + b) usizeMax

/-! ## The control -/

/-- `SlotState`: one indexing buffer. -/
structure SlotState where
  numDocs : Nat
  ramBytes : Nat
  flushPending : Bool
  deriving DecidableEq, Repr

/-- `SlotState::default`. -/
def SlotState.default : SlotState where
  numDocs := 0
  ramBytes := 0
  flushPending := false

/-- `FlushControl`.  The last field is a record of the model. -/
structure FlushControl where
  slots : List SlotState
  activeBytes : Nat
  flushBytes : Nat
  deleteBytes : Nat
  applyAllDeletes : Bool
  pendingChanges : List Nat
  shortfall : Nat
  deriving DecidableEq, Repr

namespace FlushControl

/-- `FlushControl::new`. -/
def new (slots : Nat) : FlushControl where
  slots := List.replicate slots SlotState.default
  activeBytes := 0
  flushBytes := 0
  deleteBytes := 0
  applyAllDeletes := false
  pendingChanges := []
  shortfall := 0

/-- `active_bytes = active_bytes.saturating_sub(bytes)`. -/
def subActive (c : FlushControl) (bytes : Nat) : FlushControl :=
  { c with activeBytes := c.activeBytes - bytes,
           shortfall := c.shortfall + (bytes - c.activeBytes) }

/-- `flush_bytes = flush_bytes.saturating_sub(bytes)`. -/
def subFlush (c : FlushControl) (bytes : Nat) : FlushControl :=
  { c with flushBytes := c.flushBytes - bytes,
           shortfall := c.shortfall + (bytes - c.flushBytes) }

/-- `active_bytes = active_bytes.saturating_add(bytes)`. -/
def addActive (c : FlushControl) (bytes : Nat) : FlushControl :=
  { c with activeBytes := saturatingAdd c.activeBytes bytes }

/-- `flush_bytes = flush_bytes.saturating_add(bytes)`. -/
def addFlush (c : FlushControl) (bytes : Nat) : FlushControl :=
  { c with flushBytes := saturatingAdd c.flushBytes bytes }

/-- `set_delete_bytes_used`. -/
def setDeleteBytesUsed (c : FlushControl) (bytes : Nat) : FlushControl :=
  { c with deleteBytes := bytes }

/-- `commit_slot_bytes`. -/
def commitSlotBytes (c : FlushControl) (slot numDocs ramBytes : Nat) : FlushControl :=
  match c.slots[slot]? with
  | none => c
  | some s =>
    let c :=
      if s.flushPending then (c.subFlush s.ramBytes).addFlush ramBytes
      else (c.subActive s.ramBytes).addActive ramBytes
    { c with slots := c.slots.set slot { s with numDocs, ramBytes } }

/-- `set_flush_pending`. -/
def setFlushPending (c : FlushControl) (slot : Nat) : FlushControl :=
  match c.slots[slot]? with
  | none => c
  | some s =>
    if s.flushPending || s.numDocs == 0 then c
    else
      let c := { c with slots := c.slots.set slot { s with flushPending := true },
                        pendingChanges := c.pendingChanges ++ [slot] }
      (c.subActive s.ramBytes).addFlush s.ramBytes

/-- `checkout_for_flush`, with the bytes that it returns. -/
def checkoutForFlush (c : FlushControl) (slot : Nat) : Nat × FlushControl :=
  match c.slots[slot]? with
  | none => (0, c)
  | some s =>
    let c :=
      if s.flushPending then { c with pendingChanges := c.pendingChanges ++ [slot] }
      else (c.subActive s.ramBytes).addFlush s.ramBytes
    (s.ramBytes, { c with slots := c.slots.set slot SlotState.default })

/-- `flush_done`. -/
def flushDone (c : FlushControl) (bytes : Nat) : FlushControl := c.subFlush bytes

/-- `take_pending_changes`. -/
def takePendingChanges (c : FlushControl) : List Nat × FlushControl :=
  (c.pendingChanges, { c with pendingChanges := [] })

/-- `is_flush_pending`. -/
def isFlushPending (c : FlushControl) (slot : Nat) : Bool :=
  match c.slots[slot]? with
  | none => false
  | some s => s.flushPending

/-- `set_apply_all_deletes`. -/
def setApplyAllDeletes (c : FlushControl) : FlushControl :=
  { c with applyAllDeletes := true }

/-- `get_and_reset_apply_all_deletes`. -/
def getAndResetApplyAllDeletes (c : FlushControl) : Bool × FlushControl :=
  (c.applyAllDeletes, { c with applyAllDeletes := false })

/-- The loop of `find_largest_non_pending_writer`, over the slots from `i` on. -/
def findLargestFrom : Nat → List SlotState → Option (Nat × Nat) → Option (Nat × Nat)
  | _, [], best => best
  | i, s :: slots, best =>
    let better := match best with
      | none => true
      | some (_, ram) => decide (ram < s.ramBytes)
    findLargestFrom (i + 1) slots
      (if !s.flushPending && decide (0 < s.numDocs) && better then some (i, s.ramBytes)
        else best)

/-- `find_largest_non_pending_writer`. -/
def findLargestNonPendingWriter (c : FlushControl) : Option Nat :=
  (findLargestFrom 0 c.slots none).map (·.1)

/-- `mark_largest_writer_pending`. -/
def markLargestWriterPending (c : FlushControl) : FlushControl :=
  match c.findLargestNonPendingWriter with
  | none => c
  | some largest => c.setFlushPending largest

end FlushControl

/-! ## The policy -/

/-- `FlushByRamOrCountsPolicy`. -/
structure FlushByRamOrCountsPolicy where
  maxBufferedDocs : Option Nat
  ramBufferBytes : Option Nat
  deriving DecidableEq, Repr

namespace FlushByRamOrCountsPolicy

/-- The buffer that was added to is full by its document count. -/
def fullByCount (policy : FlushByRamOrCountsPolicy) (c : FlushControl) (i : Nat) : Bool :=
  match policy.maxBufferedDocs, c.slots[i]? with
  | some limit, some s => decide (limit ≤ s.numDocs)
  | _, _ => false

/-- `on_change` after the test of the document count. -/
def onRamChange (policy : FlushByRamOrCountsPolicy) (c : FlushControl) (slot : Option Nat) :
    FlushControl :=
  match policy.ramBufferBytes with
  | none => c
  | some limit =>
    if limit ≤ c.deleteBytes ∧ limit ≤ c.activeBytes ∧ slot.isSome then
      c.setApplyAllDeletes.markLargestWriterPending
    else if limit ≤ c.deleteBytes then c.setApplyAllDeletes
    else if limit ≤ saturatingAdd c.activeBytes c.deleteBytes ∧ slot.isSome then
      c.markLargestWriterPending
    else c

/-- `on_change`. -/
def onChange (policy : FlushByRamOrCountsPolicy) (c : FlushControl) (slot : Option Nat) :
    FlushControl :=
  match slot with
  | some i => if policy.fullByCount c i then c.setFlushPending i else policy.onRamChange c slot
  | none => policy.onRamChange c slot

end FlushByRamOrCountsPolicy

/-! ## The writer -/

/-- A call to the control inside the closure of an `update_ram`. -/
inductive Change where
  | commitSlotBytes (slot numDocs ramBytes : Nat)
  | setFlushPending (slot : Nat)
  | checkoutForFlush (slot : Nat)
  | flushDone (bytes : Nat)
  | setDeleteBytesUsed (bytes : Nat)
  | onChange (policy : FlushByRamOrCountsPolicy) (slot : Option Nat)
  | getAndResetApplyAllDeletes
  deriving DecidableEq, Repr

/-- The fields of `ConcurrentIndexWriter` that `update_ram` uses, the flag of
its stall control, and the checked-out buffers that are not yet done, each
with its bytes. -/
structure Writer where
  ramBufferBytes : Option Nat
  ram : FlushControl
  pending : List Bool
  stalled : Bool
  inFlight : List Nat
  deriving DecidableEq, Repr

namespace Writer

/-- The writer as it is opened. -/
def new (slots : Nat) (ramBufferBytes : Option Nat) : Writer where
  ramBufferBytes := ramBufferBytes
  ram := FlushControl.new slots
  pending := List.replicate slots false
  stalled := false
  inFlight := []

/-- One call to the control. -/
def change (w : Writer) : Change → Writer
  | .commitSlotBytes slot numDocs ramBytes =>
    { w with ram := w.ram.commitSlotBytes slot numDocs ramBytes }
  | .setFlushPending slot => { w with ram := w.ram.setFlushPending slot }
  | .checkoutForFlush slot =>
    { w with ram := (w.ram.checkoutForFlush slot).2,
             inFlight := (w.ram.checkoutForFlush slot).1 :: w.inFlight }
  | .flushDone bytes =>
    { w with ram := w.ram.flushDone bytes, inFlight := w.inFlight.erase bytes }
  | .setDeleteBytesUsed bytes => { w with ram := w.ram.setDeleteBytesUsed bytes }
  | .onChange policy slot => { w with ram := policy.onChange w.ram slot }
  | .getAndResetApplyAllDeletes => { w with ram := w.ram.getAndResetApplyAllDeletes.2 }

/-- The loop of `update_ram` over the changed flags. -/
def mirror (ram : FlushControl) : List Nat → List Bool → List Bool
  | [], pending => pending
  | i :: changed, pending => mirror ram changed (pending.set i (ram.isFlushPending i))

/-- The stall decision of `update_ram`. -/
def stalls (ram : FlushControl) (buffer : Nat) : Bool :=
  let limit := saturatingMul buffer 2
  decide (limit < saturatingAdd ram.activeBytes ram.flushBytes) &&
    decide (ram.activeBytes < limit)

/-- What `update_ram` does after the closure. -/
def finish (w : Writer) (buffer : Nat) : Writer :=
  let ram := w.ram.takePendingChanges.2
  { w with ram := ram, pending := mirror ram w.ram.takePendingChanges.1 w.pending,
           stalled := stalls ram buffer }

/-- `update_ram`, with a closure that makes these changes.  Without a RAM buffer
nothing is counted. -/
def updateRam (w : Writer) (changes : List Change) : Writer :=
  match w.ramBufferBytes with
  | none => w
  | some buffer => (changes.foldl change w).finish buffer

end Writer

end LuceneRust.Index.FlushPolicy
