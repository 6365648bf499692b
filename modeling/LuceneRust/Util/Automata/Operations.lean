import LuceneRust.Util.Automata.Automaton

/-!
# Operations on automata

The model of the functions of `lucene-util/src/automaton/operations.rs` that
look at the graph of an automaton: the live states, `remove_dead_states`,
`is_total_range` and `topo_sort_states`, and the run of a label string.

The bit sets and the `vec![false; n]` of the source are lists of Booleans, and
an index out of their range is a panic.  The work lists are queues.
-/

namespace LuceneRust.Util.Automata

open RustSem

/-! ## Live states -/

/-- A work list and the states that were ever put on it. -/
structure WorkList where
  live : List Bool
  work : List Nat
  deriving Repr, DecidableEq

/-- The body of the loop over the neighbours of a state: a neighbour that is
not marked is marked and queued. -/
def WorkList.push (s : WorkList) (q : Nat) : Result WorkList := do
  let seen ← Outcome.expect s.live[q]?
  if seen then pure s
  else pure { live := s.live.set q true, work := s.work ++ [q] }

/-- One pass of the loop over the work list, for the neighbours `next`. -/
def workPass (next : Nat → List Nat) (s : WorkList) : Result (WorkList ⊕ List Bool) :=
  match s.work with
  | [] => pure (.inr s.live)
  | q :: work => do
    let s ← (next q).foldlM WorkList.push { s with work := work }
    pure (.inl s)

/-- `get_live_states_from_initial`. -/
def getLiveStatesFromInitial (a : Automaton) : Result (List Bool) :=
  let n := a.numStates
  if n = 0 then pure []
  else
    iterate (workPass fun q => (a.row q).map (·.dest)) (n + 2)
      { live := (List.replicate n false).set 0 true, work := [0] }

/-- The body of the loop that reverses the transitions of a state. -/
def pushReverse (s : Nat) (reverse : List (List Nat)) (t : Transition) :
    Result (List (List Nat)) := do
  Outcome.guardOk (t.dest < reverse.length)
  pure (reverse.modify t.dest (· ++ [s]))

/-- The reversed transitions of `get_live_states_to_accept`. -/
def reverseRows (a : Automaton) : Result (List (List Nat)) :=
  (List.range a.numStates).foldlM (fun reverse s => (a.row s).foldlM (pushReverse s) reverse)
    (List.replicate a.numStates [])

/-- `get_live_states_to_accept`. -/
def getLiveStatesToAccept (a : Automaton) : Result (List Bool) := do
  let n := a.numStates
  let reverse ← reverseRows a
  let accepting := (List.range n).filter a.isAccept
  iterate (workPass fun q => reverse.getD q []) (n + 2)
    { live := (List.range n).map a.isAccept, work := accepting }

/-- `get_live_states`. -/
def getLiveStates (a : Automaton) : Result (List Bool) := do
  let live ← getLiveStatesFromInitial a
  let toAccept ← getLiveStatesToAccept a
  pure (List.zipWith (· && ·) live toAccept)

/-! ## Removing dead states -/

/-- The first loop of `remove_dead_states`: a state of `result` for each live
state, and the map to them. -/
def copyLiveStates (a : Automaton) (live : List Bool) : Result (Automaton × List Nat) :=
  (List.range a.numStates).foldlM
    (fun (result, map) i =>
      if live.getD i false then do
        let (result, ns) := result.createState
        let result ← result.setAccept ns (a.isAccept i)
        pure (result, map.set i ns)
      else pure (result, map))
    (Automaton.empty, List.replicate a.numStates 0)

/-- `remove_dead_states`. -/
def removeDeadStates (a : Automaton) : Result Automaton := do
  let live ← getLiveStates a
  if live.all id then pure a
  else
    let (result, map) ← copyLiveStates a live
    let result ← (List.range a.numStates).foldlM
      (fun result i =>
        if live.getD i false then
          (a.row i).foldlM
            (fun result t =>
              if live.getD t.dest false then
                result.addTransition (map.getD i 0) (map.getD t.dest 0) t.min t.max
              else pure result)
            result
        else pure result)
      result
    pure result.finishState

/-! ## Totality -/

/-- The loop of `is_total_range` over the transitions of a state: the end of
the last one, unless one starts behind a gap. -/
def coverRow (previous : Int) : List Transition → Result (Option Int)
  | [] => pure (some previous)
  | t :: ts => do
    let next ← addI32 previous 1
    if t.min > next then pure none else coverRow t.max ts

/-- The checks of `is_total_range` on one state. -/
def totalState (a : Automaton) (minAlphabet maxAlphabet : Int) (state : Nat) : Result Bool :=
  if !a.isAccept state then pure false
  else do
    let previous ← addI32 minAlphabet (-1)
    match ← coverRow previous (a.row state) with
    | none => pure false
    | some previous => pure (!decide (previous < maxAlphabet))

/-- The loop of `is_total_range` over the live states. -/
def totalStates (a : Automaton) (minAlphabet maxAlphabet : Int) : List Nat → Result Bool
  | [] => pure true
  | state :: states => do
    if ← totalState a minAlphabet maxAlphabet state then
      totalStates a minAlphabet maxAlphabet states
    else pure false

/-- `is_total_range`. -/
def isTotalRange (a : Automaton) (minAlphabet maxAlphabet : Int) : Result Bool := do
  let live ← getLiveStates a
  let states := (List.range a.numStates).filter (live.getD · false)
  let passed ← totalStates a minAlphabet maxAlphabet states
  -- `seen` counts the states that have passed
  pure (passed && decide (states.length > 0))

/-- `is_total`. -/
def isTotal (a : Automaton) : Result Bool :=
  isTotalRange a MIN_CODE_POINT MAX_CODE_POINT

/-! ## Topological order -/

/-- The variables of `topo_sort_states`; the top of the stack comes first. -/
structure TopoState where
  onStack : List Bool
  visited : List Bool
  stack : List Nat
  states : List Nat
  deriving Repr, DecidableEq

/-- The message of `topo_sort_states`. -/
def cycleError : AutomatonError :=
  .illegalArgument "Input automaton has a cycle."

/-- The loop over the transitions of the state on top of the stack: the first
destination that was not visited. -/
def TopoState.scan (s : TopoState) : List Transition → Result (Option Nat)
  | [] => pure none
  | t :: ts => do
    let visited ← Outcome.expect s.visited[t.dest]?
    if !visited then pure (some t.dest)
    else do
      let onStack ← Outcome.expect s.onStack[t.dest]?
      if onStack then .err cycleError else s.scan ts

/-- One pass of the loop of `topo_sort_states`. -/
def topoPass (a : Automaton) (s : TopoState) : Result (TopoState ⊕ List Nat) :=
  match s.stack with
  | [] => pure (.inr s.states.reverse)
  | state :: rest => do
    match ← s.scan (a.row state) with
    | some dest =>
      pure (.inl
        { s with
          visited := s.visited.set dest true
          stack := dest :: s.stack
          onStack := s.onStack.set state true })
    | none =>
      pure (.inl
        { s with
          onStack := s.onStack.set state false
          stack := rest
          states := s.states ++ [state] })

/-- `topo_sort_states`. -/
def topoSortStates (a : Automaton) : Result (List Nat) :=
  let n := a.numStates
  if n = 0 then pure []
  else
    iterate (topoPass a) (2 * n + 2)
      { onStack := List.replicate n false
        visited := List.replicate n false
        stack := [0]
        states := [] }

/-! ## Running a label string -/

/-- `run_ints`, from a state. -/
def runIntsFrom (a : Automaton) (state : Nat) : List Int → Bool
  | [] => a.isAccept state
  | label :: s =>
    match a.step state label with
    | none => false
    | some next => runIntsFrom a next s

/-- `run_ints`. -/
def runInts (a : Automaton) (s : List Int) : Bool :=
  runIntsFrom a 0 s

end LuceneRust.Util.Automata
