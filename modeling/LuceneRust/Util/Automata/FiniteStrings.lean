import LuceneRust.Util.Automata.Automaton

/-!
# The strings of a finite language

The model of `lucene-util/src/automaton/finite_strings.rs`: a cursor that goes
through the automaton depth first and returns one accepted string a call.

The first `string.len()` entries of the source's `nodes` are in use, and an
entry is reset before it is used again.  The model keeps those entries, the
deepest one first.  An end state of `-1` is `none`.
-/

namespace LuceneRust.Util.Automata

open RustSem

/-- `get_transition`. -/
def Automaton.getTransition (a : Automaton) (state index : Nat) : Result Transition :=
  Outcome.expect (a.row state)[index]?

/-- `PathNode`. -/
structure PathNode where
  state : Nat
  /-- The source's `to`. -/
  toState : Nat
  transition : Nat
  label : Int
  t : Transition
  deriving Repr, DecidableEq

namespace PathNode

/-- `reset_state`. -/
def resetState (a : Automaton) (state : Nat) : Result PathNode := do
  let t ← a.getTransition state 0
  pure { state := state, toState := t.dest, transition := 0, label := t.min, t := t }

/-- `next_label`, with `-1` once all labels of all transitions are used up. -/
def nextLabel (a : Automaton) (node : PathNode) : Result (PathNode × Int) :=
  if node.label > node.t.max then
    let transition := node.transition + 1
    if transition ≥ a.numTransitions node.state then
      pure ({ node with transition := transition, label := -1 }, -1)
    else do
      let t ← a.getTransition node.state transition
      let label ← addI32 t.min 1
      pure ({ node with transition := transition, t := t, label := label, toState := t.dest }, t.min)
  else do
    let label ← addI32 node.label 1
    pure ({ node with label := label }, node.label)

end PathNode

/-- `FiniteStringsCursor`. -/
structure FiniteStringsCursor where
  endState : Option Nat
  pathStates : List Bool
  string : List Int
  nodes : List PathNode
  emitEmptyString : Bool
  deriving Repr, DecidableEq

namespace FiniteStringsCursor

/-- The message of `next_string`. -/
def cyclesError : AutomatonError :=
  .illegalArgument "automaton has cycles"

/-- `with_range`. -/
def withRange (a : Automaton) (startState : Nat) (endState : Option Nat) :
    Result FiniteStringsCursor :=
  let it : FiniteStringsCursor :=
    { endState := endState
      pathStates := List.replicate a.numStates false
      string := []
      nodes := []
      emitEmptyString := a.isAccept 0 }
  if a.numStates > startState ∧ a.numTransitions startState > 0 then do
    let node ← PathNode.resetState a startState
    pure
      { it with
        pathStates := it.pathStates.set startState true
        nodes := [node]
        string := [(startState : Int)] }
  else pure it

/-- `new`. -/
def new (a : Automaton) : Result FiniteStringsCursor :=
  withRange a 0 none

/-- One pass of the loop of `next_string`. -/
def pass (a : Automaton) (it : FiniteStringsCursor) :
    Result (FiniteStringsCursor ⊕ FiniteStringsCursor × Option (List Int)) :=
  match it.nodes with
  | [] => pure (.inr (it, none))
  | node :: rest => do
    let (node, label) ← node.nextLabel a
    if label ≠ -1 then do
      let it := { it with
        nodes := node :: rest
        string := it.string.set rest.length label }
      if a.numTransitions node.toState ≠ 0 ∧ it.endState ≠ some node.toState then do
        let onPath ← Outcome.expect it.pathStates[node.toState]?
        if onPath then .err cyclesError
        else do
          let child ← PathNode.resetState a node.toState
          pure (.inl
            { it with
              pathStates := it.pathStates.set node.toState true
              nodes := child :: it.nodes
              string := it.string ++ [0] })
      else if it.endState = some node.toState ∨ a.isAccept node.toState then
        pure (.inr (it, some it.string))
      else pure (.inl it)
    else do
      Outcome.guardOk (node.state < it.pathStates.length)
      let it := { it with
        pathStates := it.pathStates.set node.state false
        nodes := rest
        string := it.string.take rest.length }
      if a.isAccept node.state then pure (.inr (it, some it.string))
      else pure (.inl it)

/-- `next_string`, in `fuel` passes at most. -/
def nextString (a : Automaton) (fuel : Nat) (it : FiniteStringsCursor) :
    Result (FiniteStringsCursor × Option (List Int)) :=
  if it.emitEmptyString then pure ({ it with emitEmptyString := false }, some [])
  else iterate (pass a) fuel it

/-- The strings that `next_string` returns before it returns nothing, in
`fuel` calls at most. -/
def drain (a : Automaton) : Nat → FiniteStringsCursor → Result (List (List Int))
  | 0, _ => .panic
  | fuel + 1, it => do
    match ← it.nextString a fuel with
    | (_, none) => pure []
    | (it, some s) => do
      let strings ← drain a fuel it
      pure (s :: strings)

/-- All the strings of a new cursor. -/
def strings (a : Automaton) (fuel : Nat) : Result (List (List Int)) := do
  let it ← new a
  it.drain a fuel

end FiniteStringsCursor

end LuceneRust.Util.Automata
