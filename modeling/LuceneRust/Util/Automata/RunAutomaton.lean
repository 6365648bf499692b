import LuceneRust.Util.Automata.Automaton
import LuceneRust.RustSem.Bytes

/-!
# The run automaton

The model of `lucene-util/src/automaton/run_automaton.rs`, with
`get_start_points` of `automaton.rs`: the labels fall into classes between
start points, and a table has the destination for each state and class.

The table is a flat list with `stride` entries for each state, and `none`
stands for the source's `-1`.  A read of the table that the source makes
unchecked is `Outcome.expect` all the same, so that a run that does not
panic has stayed in bounds.
-/

namespace LuceneRust.Util.Automata

open RustSem

/-! ## Start points -/

/-- `Vec::dedup`. -/
def dedup : List Int → List Int
  | [] => []
  | [p] => [p]
  | p :: p' :: ps => if p = p' then dedup (p' :: ps) else p :: dedup (p' :: ps)

/-- What `get_start_points` pushes for one transition. -/
def startPoints (t : Transition) : List Int :=
  if t.max < MAX_CODE_POINT then [t.min, t.max + 1] else [t.min]

/-- `get_start_points`. -/
def Automaton.getStartPoints (a : Automaton) : List Int :=
  dedup ((MIN_CODE_POINT :: a.transitions.flatMap (·.flatMap startPoints)).insertionSort (· ≤ ·))

/-! ## The constructor -/

/-- The inner loop of `new`: while the transition ends before `p`, the next
one. -/
def advance (p : Int) (t : Transition) : List Transition → Transition × List Transition
  | [] => (t, [])
  | u :: us => if t.max < p then advance p u us else (t, u :: us)

/-- The pass of `new` over the points of one state, from the transition `t`
on. -/
def fillFrom (t : Transition) (left : List Transition) : List Int → List (Option Nat)
  | [] => []
  | p :: ps =>
    let (t, left) := advance p t left
    (if t.min ≤ p ∧ p ≤ t.max then some t.dest else none) :: fillFrom t left ps

/-- The row of one state. -/
def fillRow (points : List Int) : List Transition → List (Option Nat)
  | [] => points.map fun _ => none
  | t :: left => fillFrom t left points

/-- The loop of `new` over the labels `js` of the class map, with the class
`i` so far. -/
def fillClassmap (points : List Int) : Nat → List Nat → Result (List Nat)
  | _, [] => pure []
  | i, j :: js => do
    let i := if i + 1 < points.length ∧ points[i + 1]? = some (j : Int) then i + 1 else i
    -- `u8::try_from(i).expect(..)`
    Outcome.guardOk (i < 256)
    let classes ← fillClassmap points i js
    pure (i :: classes)

/-- `RunAutomaton`. -/
structure RunAutomaton where
  automaton : Automaton
  alphabetSize : Int
  size : Nat
  accept : List Bool
  transitions : List (Option Nat)
  points : List Int
  stride : Nat
  classmap : List Nat
  deriving Repr, DecidableEq

namespace RunAutomaton

/-- The message of `new`. -/
def deterministicError : AutomatonError :=
  .illegalArgument "Automaton must be deterministic"

/-- `new`. -/
def new (a : Automaton) (alphabetSize : Int) : Result RunAutomaton :=
  if !a.deterministic then .err deterministicError
  else do
    let points := a.getStartPoints
    let size := max a.numStates 1
    let classmap ← fillClassmap points 0 (List.range 256)
    pure
      { automaton := a
        alphabetSize := alphabetSize
        size := size
        accept := (List.range size).map a.isAccept
        transitions := (List.range size).flatMap fun n => fillRow points (a.row n)
        points := points
        stride := points.length
        classmap := classmap }

variable (run : RunAutomaton)

/-- The loop of `get_char_class`, with the bounds `a` and `b`. -/
def charClassLoop (c : Int) : Nat → Nat → Nat → Nat
  | 0, a, _ => a
  | fuel + 1, a, b =>
    if b - a > 1 then
      let d := (a + b) / 2
      -- `d < b`, and `b` is the number of points at most
      let p := run.points.getD d 0
      if p > c then charClassLoop c fuel a d
      else if p < c then charClassLoop c fuel d b
      else d
    else a

/-- `get_char_class`. -/
def getCharClass (c : Int) : Nat :=
  run.charClassLoop c run.points.length 0 run.points.length

/-- The class of a label: the class map below 256, and `get_char_class` for
the others. -/
def labelClass (c : Int) : Result Nat :=
  if 0 ≤ c ∧ c < 256 then Outcome.expect run.classmap[c.toNat]?
  else pure (run.getCharClass c)

/-- `is_accept`. -/
def isAccept (state : Nat) : Result Bool :=
  Outcome.expect run.accept[state]?

/-- `step`. -/
def step (state : Nat) (c : Int) : Result (Option Nat) := do
  let cls ← run.labelClass c
  Outcome.expect run.transitions[state * run.stride + cls]?

/-- `step_byte`. -/
def stepByte (state : Nat) (b : U8) : Result (Option Nat) := do
  let cls ← Outcome.expect run.classmap[b.toNat]?
  Outcome.expect run.transitions[state * run.stride + cls]?

/-- `as u8`. -/
def asByte (p : Int) : Nat :=
  (p % 256).toNat

/-- The row of a state, as `last_live_byte` and `first_live_byte_from` slice
it. -/
def slice (state : Nat) : Result (List (Option Nat)) := do
  Outcome.guardOk (state * run.stride + run.stride ≤ run.transitions.length)
  pure ((run.transitions.drop (state * run.stride)).take run.stride)

/-- `last_live_byte`. -/
def lastLiveByte (state : Nat) : Result (Option Nat) := do
  let row ← run.slice state
  let byteClasses := (run.points.takeWhile (· < 256)).length
  match (List.range byteClasses).reverse.find? fun i => (row.getD i none).isSome with
  | none => pure none
  | some i =>
    match run.points[i + 1]? with
    | none => pure (some 255)
    | some next => pure (some (asByte (min (next - 1) 255)))

/-- `first_live_byte_from`. -/
def firstLiveByteFrom (state fromByte : Nat) : Result (Option Nat) :=
  if fromByte > 255 then pure none
  else do
    let row ← run.slice state
    let cls ← Outcome.expect run.classmap[fromByte]?
    let dest ← Outcome.expect row[cls]?
    if dest.isSome then pure (some fromByte)
    else
      let classes := (List.range' (cls + 1) (run.stride - (cls + 1))).takeWhile fun i =>
        run.points.getD i 0 < 256
      match classes.find? fun i => (row.getD i none).isSome with
      | none => pure none
      | some i => pure (some (asByte (run.points.getD i 0)))

/-- The loop of `run_labels`, from the state `p`. -/
def runLabelsFrom (p : Nat) : List Int → Result Bool
  | [] => run.isAccept p
  | c :: labels => do
    let cls ← run.labelClass c
    match ← Outcome.expect run.transitions[p * run.stride + cls]? with
    | none => pure false
    | some next => runLabelsFrom next labels

/-- `run_labels`. -/
def runLabels (labels : List Int) : Result Bool :=
  run.runLabelsFrom 0 labels

/-- The loop of `run_bytes`, from the state `p`. -/
def runBytesFrom (p : Nat) : List U8 → Result Bool
  | [] => run.isAccept p
  | b :: s => do
    let cls ← Outcome.expect run.classmap[b.toNat]?
    match ← Outcome.expect run.transitions[p * run.stride + cls]? with
    | none => pure false
    | some next => runBytesFrom next s

/-- `run_bytes`. -/
def runBytes (s : List U8) : Result Bool :=
  run.runBytesFrom 0 s

end RunAutomaton

end LuceneRust.Util.Automata
