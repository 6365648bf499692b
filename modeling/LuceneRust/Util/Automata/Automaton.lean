import LuceneRust.RustSem.Outcome
import LuceneRust.Lib.NfaPaths
import Mathlib.Data.List.Sort
import Mathlib.Tactic.Linarith

/-!
# The automaton and its builder

The model of `lucene-util/src/automaton/automaton.rs`: a finite automaton
with interval labels, state `0` initial, that is built one source state at a
time.

The source packs the transitions of all states in one array and keeps an
offset and a count for each state.  The transitions of a state are one slice
of that array, and those of the current state are its tail.  The model keeps
the slices: `transitions` has one list for each state.  The offset of a state
is `-1` exactly as long as its list is empty.

Labels are integers.  The builder works on code points, so that the `+ 1` and
`- 1` of a label do not leave `i32` there.  Functions that take any label
compute with `addI32`, which panics on an overflow.

* `finishRow` is the work of `finish_current_state` on one slice: sort, merge
  what touches, sort again.
* `Automaton.nfa` is what an automaton means: an edge for each label that a
  transition covers.
-/

namespace LuceneRust.Util.Automata

open RustSem

/-- `MIN_CODE_POINT`. -/
def MIN_CODE_POINT : Int := 0

/-- `MAX_CODE_POINT`. -/
def MAX_CODE_POINT : Int := 0x10FFFF

/-- The errors that the modelled functions return. -/
inductive AutomatonError where
  | illegalArgument (message : String)
  deriving Repr, DecidableEq

/-- How a call of the automaton package ends. -/
abbrev Result (α : Type) := Outcome AutomatonError α

/-- A value of the type `i32`. -/
def IsI32 (x : Int) : Prop :=
  -2 ^ 31 ≤ x ∧ x < 2 ^ 31

instance (x : Int) : Decidable (IsI32 x) :=
  inferInstanceAs (Decidable (-2 ^ 31 ≤ x ∧ x < 2 ^ 31))

/-- `x + y` on `i32`: an overflow is a panic. -/
def addI32 (x y : Int) : Result Int := do
  Outcome.guardOk (IsI32 (x + y))
  pure (x + y)

theorem addI32_ok {x y : Int} (h : IsI32 (x + y)) : addI32 x y = .ok (x + y) := by
  unfold addI32
  rw [guardOk_pos h]
  rfl

/-- One `min..=max` labelled edge of its source state. -/
structure Transition where
  dest : Nat
  min : Int
  max : Int
  deriving Repr, DecidableEq

namespace Transition

/-- The label `c` is one of the labels of `t`. -/
def Covers (t : Transition) (c : Int) : Prop :=
  t.min ≤ c ∧ c ≤ t.max

instance (t : Transition) (c : Int) : Decidable (t.Covers c) :=
  inferInstanceAs (Decidable (t.min ≤ c ∧ c ≤ t.max))

/-- The order of `[dest, min, max]`. -/
def DestLe (t u : Transition) : Prop :=
  t.dest < u.dest ∨ t.dest = u.dest ∧ (t.min < u.min ∨ t.min = u.min ∧ t.max ≤ u.max)

/-- The order of `(min, max, dest)`. -/
def LabelLe (t u : Transition) : Prop :=
  t.min < u.min ∨ t.min = u.min ∧ (t.max < u.max ∨ t.max = u.max ∧ t.dest ≤ u.dest)

instance (t u : Transition) : Decidable (t.DestLe u) :=
  inferInstanceAs (Decidable (_ ∨ _))

instance (t u : Transition) : Decidable (t.LabelLe u) :=
  inferInstanceAs (Decidable (_ ∨ _))

end Transition

/-! ## Finishing a state -/

/-- The merge pass of `finish_current_state` behind the first transition: the
run `t` takes in what touches or overlaps it and goes to the same state. -/
def mergeRun (t : Transition) : List Transition → List Transition
  | [] => [t]
  | u :: us =>
    if t.dest = u.dest ∧ u.min ≤ t.max + 1 then
      mergeRun { t with max := max t.max u.max } us
    else
      t :: mergeRun u us

/-- The merge pass of `finish_current_state`. -/
def mergeTouching : List Transition → List Transition
  | [] => []
  | t :: ts => mergeRun t ts

/-- The overlap check of `finish_current_state`: every transition starts
behind the end of the one before it. -/
def noOverlap (lastMax : Int) : List Transition → Bool
  | [] => true
  | t :: ts => if t.min ≤ lastMax then false else noOverlap t.max ts

/-- The overlap check of a whole state. -/
def rowDeterministic : List Transition → Bool
  | [] => true
  | t :: ts => noOverlap t.max ts

/-- What `finish_current_state` leaves of the transitions of a state. -/
def finishRow (ts : List Transition) : List Transition :=
  if ts.length ≤ 1 then ts
  else (mergeTouching (ts.insertionSort Transition.DestLe)).insertionSort Transition.LabelLe

/-! ## The automaton -/

/-- `Automaton`. -/
structure Automaton where
  /-- The transitions of each state (the slices of the packed array). -/
  transitions : List (List Transition)
  /-- The accept flag of each state. -/
  accepts : List Bool
  /-- The state that transitions are being added to. -/
  curState : Option Nat
  /-- False once a state has overlapping transitions. -/
  deterministic : Bool
  deriving Repr, DecidableEq

namespace Automaton

/-- `new Automaton()`. -/
def empty : Automaton where
  transitions := []
  accepts := []
  curState := none
  deterministic := true

/-- `get_num_states`. -/
def numStates (a : Automaton) : Nat :=
  a.transitions.length

/-- The transitions of a state.  A state past the end reads as one without
transitions. -/
def row (a : Automaton) (state : Nat) : List Transition :=
  a.transitions.getD state []

/-- `get_num_transitions`. -/
def numTransitions (a : Automaton) (state : Nat) : Nat :=
  (a.row state).length

/-- `is_accept`. -/
def isAccept (a : Automaton) (state : Nat) : Bool :=
  a.accepts.getD state false

/-- `create_state`. -/
def createState (a : Automaton) : Automaton × Nat :=
  ({ a with transitions := a.transitions ++ [[]], accepts := a.accepts ++ [false] }, a.numStates)

/-- `set_accept`. -/
def setAccept (a : Automaton) (state : Nat) (accept : Bool) : Result Automaton := do
  Outcome.guardOk (state < a.numStates)
  pure { a with accepts := a.accepts.set state accept }

/-- `finish_current_state`. -/
def finishCurrentState (a : Automaton) (cur : Nat) : Automaton :=
  let num := a.numTransitions cur
  if num ≤ 1 then a
  else
    let merged := finishRow (a.row cur)
    { a with
      transitions := a.transitions.set cur merged
      deterministic := a.deterministic && rowDeterministic merged }

/-- The state that transitions were being added to is finished, if there is one. -/
def leaveState (a : Automaton) : Automaton :=
  match a.curState with
  | some cur => a.finishCurrentState cur
  | none => a

/-- The part of `add_transition` that turns to a new source state. -/
def enterState (a : Automaton) (source : Nat) : Result Automaton :=
  if a.curState = some source then pure a
  else do
    let a := a.leaveState
    -- "from state already had transitions added"
    Outcome.guardOk (a.row source = [])
    pure { a with curState := some source }

/-- `add_transition`. -/
def addTransition (a : Automaton) (source dest : Nat) (min max : Int) : Result Automaton := do
  Outcome.guardOk (source < a.numStates)
  Outcome.guardOk (dest < a.numStates)
  let a ← a.enterState source
  pure { a with transitions := a.transitions.modify source (· ++ [⟨dest, min, max⟩]) }

/-- `add_transition_label`. -/
def addTransitionLabel (a : Automaton) (source dest : Nat) (label : Int) : Result Automaton :=
  a.addTransition source dest label label

/-- `add_epsilon`: the transitions of `dest`, and its accept flag, onto
`source`. -/
def addEpsilon (a : Automaton) (source dest : Nat) : Result Automaton := do
  let a' ← (a.row dest).foldlM (fun a t => a.addTransition source t.dest t.min t.max) a
  if a'.isAccept dest then a'.setAccept source true else pure a'

/-- `finish_state`. -/
def finishState (a : Automaton) : Automaton :=
  { a.leaveState with curState := none }

/-- `next_impl` below `high`, from `low`: binary search in the transitions of
one state for the one that covers `label`. -/
def searchRow (row : List Transition) (label : Int) : Nat → Nat → Nat → Option Nat
  | 0, _, _ => none
  | fuel + 1, low, high =>
    -- `high` is one past the source's `high`
    if low < high then
      let mid := (low + (high - 1)) / 2
      match row[mid]? with
      | none => none
      | some t =>
        if label < t.min then searchRow row label fuel low mid
        else if t.max < label then searchRow row label fuel (mid + 1) high
        else some t.dest
    else none

/-- `step`: the destination on `label`, and nothing for the source's `-1`. -/
def step (a : Automaton) (state : Nat) (label : Int) : Option Nat :=
  searchRow (a.row state) label (a.numTransitions state + 1) 0 (a.numTransitions state)

/-! ## What an automaton means -/

/-- `a` has an edge from `q` to `d` with the label `c`. -/
def Edge (a : Automaton) (q : Nat) (c : Int) (d : Nat) : Prop :=
  ∃ t ∈ a.row q, t.dest = d ∧ t.Covers c

/-- The automaton over single labels. -/
def nfa (a : Automaton) : NFA Int Nat where
  step q c := {d | a.Edge q c d}
  start := {0}
  accept := {q | a.isAccept q = true}

/-- The label strings that `a` accepts. -/
def Accepts (a : Automaton) (s : List Int) : Prop :=
  s ∈ a.nfa.accepts

end Automaton

/-! ## The builder -/

/-- `Builder`: transitions in any order, each with its source. -/
structure Builder where
  accepts : List Bool
  transitions : List (Nat × Transition)
  deriving Repr, DecidableEq

namespace Builder

/-- `new Builder()`. -/
def empty : Builder where
  accepts := []
  transitions := []

/-- `get_num_states`. -/
def numStates (b : Builder) : Nat :=
  b.accepts.length

/-- `add_transition`. -/
def addTransition (b : Builder) (source dest : Nat) (min max : Int) : Builder :=
  { b with transitions := b.transitions ++ [(source, ⟨dest, min, max⟩)] }

/-- `add_transition_label`. -/
def addTransitionLabel (b : Builder) (source dest : Nat) (label : Int) : Builder :=
  b.addTransition source dest label label

/-- `create_state`. -/
def createState (b : Builder) : Builder × Nat :=
  ({ b with accepts := b.accepts ++ [false] }, b.accepts.length)

/-- `set_accept`. -/
def setAccept (b : Builder) (state : Nat) (accept : Bool) : Result Builder := do
  Outcome.guardOk (state < b.numStates)
  pure { b with accepts := b.accepts.set state accept }

/-- `is_accept`. -/
def isAccept (b : Builder) (state : Nat) : Bool :=
  b.accepts.getD state false

/-- The order of `(source, min, max, dest)`. -/
def KeyLe (t u : Nat × Transition) : Prop :=
  t.1 < u.1 ∨ t.1 = u.1 ∧ t.2.LabelLe u.2

instance (t u : Nat × Transition) : Decidable (KeyLe t u) :=
  inferInstanceAs (Decidable (_ ∨ _))

/-- The loop of `finish` that makes the states. -/
def finishStates (b : Builder) : Result Automaton :=
  (List.range b.numStates).foldlM
    (fun a state => (a.createState.1).setAccept state (b.isAccept state)) Automaton.empty

/-- `finish`. -/
def finish (b : Builder) : Result Automaton := do
  let a ← b.finishStates
  let a ← (b.transitions.insertionSort KeyLe).foldlM
    (fun a t => a.addTransition t.1 t.2.dest t.2.min t.2.max) a
  pure a.finishState

end Builder

end LuceneRust.Util.Automata
