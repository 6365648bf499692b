import LuceneRust.RustSem.Bytes

/-!
# `lucene_util::ternary_long_heap`

A heap of longs in a vector whose place 0 is not used.  A long is an `Int`, since the
heap only compares it.
-/

namespace LuceneRust.Util

open RustSem

/-- `TernaryLongHeap`. -/
structure TernaryLongHeap where
  initialCapacity : Nat
  heap : List Int
  size : Nat
  deriving Repr, DecidableEq

namespace TernaryLongHeap

/-- `ARITY`. -/
def arity : Nat := 3

/-- `heap[i] = value`. -/
def put (heap : List Int) (i : Nat) (value : Int) : Outcome Empty (List Int) := do
  .guardOk (i < heap.length)
  .ok (heap.set i value)

/-- One pass of the loop of `up_heap`. -/
def upPass (value : Int) (s : List Int × Nat) :
    Outcome Empty ((List Int × Nat) ⊕ (List Int × Nat)) := do
  if 1 < s.2 then
    let parent := (s.2 - 2) / arity + 1
    let parentVal ← .expect s.1[parent]?
    if parentVal ≤ value then .ok (.inr s)
    else do
      let heap ← put s.1 s.2 parentVal
      .ok (.inl (heap, parent))
  else .ok (.inr s)

/-- `up_heap`. -/
def upHeap (heap : List Int) (i : Nat) : Outcome Empty (List Int) := do
  let value ← .expect heap[i]?
  let (heap, i) ← iterate (upPass value) (i + 1) (heap, i)
  put heap i value

/-- The least of `heap[firstChild..=lastChild]`, the first one of several. -/
def bestChild (heap : List Int) (firstChild lastChild : Nat) : Outcome Empty (Nat × Int) := do
  let first ← .expect heap[firstChild]?
  let others ← .expect (slice heap (firstChild + 1) (lastChild + 1))
  .ok (others.zipIdx.foldl
    (fun best child => if child.1 < best.2 then (firstChild + 1 + child.2, child.1) else best)
    (firstChild, first))

/-- One pass of the loop of `down_heap`. -/
def downPass (value : Int) (size : Nat) (s : List Int × Nat) :
    Outcome Empty ((List Int × Nat) ⊕ (List Int × Nat)) := do
  let firstChild := arity * (s.2 - 1) + 2
  if size < firstChild then .ok (.inr s)
  else do
    let lastChild := min (firstChild + arity - 1) size
    let (best, bestVal) ← bestChild s.1 firstChild lastChild
    if value ≤ bestVal then .ok (.inr s)
    else do
      let heap ← put s.1 s.2 bestVal
      .ok (.inl (heap, best))

/-- `down_heap`. -/
def downHeap (heap : List Int) (i size : Nat) : Outcome Empty (List Int) := do
  if size = 0 then .ok heap
  else do
    let value ← .expect heap[i]?
    let (heap, i) ← iterate (downPass value size) (size + 1) (heap, i)
    put heap i value

/-- `new`. -/
def new (initialCapacity : Nat) : Outcome Empty TernaryLongHeap := do
  .guardOk (1 ≤ initialCapacity)
  .ok ⟨initialCapacity, List.replicate (initialCapacity + 1) 0, 0⟩

/-- `top`. -/
def top (h : TernaryLongHeap) : Outcome Empty Int := .expect h.heap[1]?

/-- `clear`. -/
def clear (h : TernaryLongHeap) : TernaryLongHeap := { h with size := 0 }

/-- `Vec::resize` with zeros. -/
def resize (heap : List Int) (n : Nat) : List Int :=
  heap.take n ++ List.replicate (n - heap.length) 0

/-- `push`. -/
def push (h : TernaryLongHeap) (element : Int) : Outcome Empty TernaryLongHeap := do
  let size := h.size + 1
  let heap := if size = h.heap.length then resize h.heap ((size * 3 + 1) / 2 + 1) else h.heap
  let heap ← put heap size element
  let heap ← upHeap heap size
  .ok { h with heap := heap, size := size }

/-- `insert_with_overflow`. -/
def insertWithOverflow (h : TernaryLongHeap) (value : Int) :
    Outcome Empty (Bool × TernaryLongHeap) := do
  if h.initialCapacity ≤ h.size then do
    let least ← .expect h.heap[1]?
    if value < least then .ok (false, h)
    else do
      let heap ← put h.heap 1 value
      let heap ← downHeap heap 1 h.size
      .ok (true, { h with heap := heap })
  else do
    let h ← h.push value
    .ok (true, h)

/-- `pop`. -/
def pop (h : TernaryLongHeap) : Outcome Empty (Int × TernaryLongHeap) := do
  .guardOk (0 < h.size)
  let result ← .expect h.heap[1]?
  let last ← .expect h.heap[h.size]?
  let heap ← put h.heap 1 last
  let size := h.size - 1
  let heap ← downHeap heap 1 size
  .ok (result, { h with heap := heap, size := size })

end TernaryLongHeap

end LuceneRust.Util
