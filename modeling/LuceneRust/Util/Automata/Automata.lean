import LuceneRust.Util.Automata.Operations
import LuceneRust.RustSem.Bytes

/-!
# Factories for common automata

The model of the factories of `lucene-util/src/automaton/automata.rs` for
intervals of byte strings and of decimal numerals.

The four mutually recursive constructors of decimal intervals go down with
the position `n` in the numerals.  `fuel` counts the positions that are left,
so that going past the end would be a panic.
-/

namespace LuceneRust.Util.Automata

open RustSem

/-! ## Simple automata -/

/-- `make_empty`. -/
def makeEmpty : Automaton :=
  Automaton.empty.finishState

/-- `make_any_binary`. -/
def makeAnyBinary : Result Automaton := do
  let (a, s) := Automaton.empty.createState
  let a ← a.setAccept s true
  let a ← a.addTransition s s 0 255
  pure a.finishState

/-- `make_non_empty_binary`. -/
def makeNonEmptyBinary : Result Automaton := do
  let (a, s1) := Automaton.empty.createState
  let (a, s2) := a.createState
  let a ← a.setAccept s2 true
  let a ← a.addTransition s1 s2 0 255
  let a ← a.addTransition s2 s2 0 255
  pure a.finishState

/-- A byte as a label. -/
def byteLabel (b : U8) : Int :=
  b.toNat

/-- The loop of `make_binary`: a new state for each byte, from `last` on. -/
def appendLabels (a : Automaton) (last : Nat) : List U8 → Result (Automaton × Nat)
  | [] => pure (a, last)
  | b :: term => do
    let (a, st) := a.createState
    let a ← a.addTransitionLabel last st (byteLabel b)
    appendLabels a st term

/-- `make_binary`. -/
def makeBinary (term : List U8) : Result Automaton := do
  let (a, last) := Automaton.empty.createState
  let (a, last) ← appendLabels a last term
  let a ← a.setAccept last true
  pure a.finishState

/-! ## Intervals of byte strings -/

/-- `cmp` of byte strings. -/
def cmpBytes : List U8 → List U8 → Ordering
  | [], [] => .eq
  | [], _ :: _ => .lt
  | _ :: _, [] => .gt
  | x :: xs, y :: ys => if x < y then .lt else if y < x then .gt else cmpBytes xs ys

/-- `add_transition`, where `cond` holds. -/
def Automaton.addTransitionIf (a : Automaton) (cond : Prop) [Decidable cond]
    (source dest : Nat) (min max : Int) : Result Automaton :=
  if cond then a.addTransition source dest min max else pure a

/-- `set_accept` to true, where `cond` holds. -/
def Automaton.setAcceptIf (a : Automaton) (cond : Prop) [Decidable cond] (state : Nat) :
    Result Automaton :=
  if cond then a.setAccept state true else pure a

/-- The branch of `make_binary_interval` where `max` is `min` and zeros: `min`
and up to `maxLength - min.len()` zeros. -/
def zeroTailInterval (min : List U8) (minInclusive : Bool) (maxLength : Nat) :
    Result Automaton := do
  let (a, last) := Automaton.empty.createState
  let (a, last) ← appendLabels a last min
  let a ← a.setAcceptIf (minInclusive = true) last
  let (a, _) ← (List.range' min.length (maxLength - min.length)).foldlM
    (fun (a, last) _ => do
      let (a, st) := a.createState
      let a ← a.addTransitionLabel last st 0
      let a ← a.setAccept st true
      pure (a, st))
    (a, last)
  pure a.finishState

/-- The variables of the loop over `min` of `make_binary_interval`;
`firstMaxState` is `none` for the source's `-1`. -/
structure IntervalState where
  a : Automaton
  equalPrefix : Bool
  lastState : Nat
  firstMaxState : Option Nat
  sharedPrefixLength : Nat
  deriving Repr, DecidableEq

/-- The body of the loop over `min`.  Where the bounds still agree `max` is
not empty, so that `max.len() - 1` does not underflow. -/
def intervalMinStep (min : List U8) (minInclusive : Bool) (max : Option (List U8))
    (maxInclusive : Bool) (sinkState : Nat) (s : IntervalState) (i : Nat) :
    Result IntervalState := do
  let minByte ← Outcome.expect min[i]?
  let minLabel := byteLabel minByte
  let maxLabel : Int :=
    match max with
    | some max => if s.equalPrefix && decide (i < max.length) then byteLabel (max.getD i 0) else -1
    | none => -1
  let (a, nextState) :=
    if minInclusive && decide (i = min.length - 1) &&
        (!s.equalPrefix || decide (minLabel ≠ maxLabel)) then
      (s.a, sinkState)
    else s.a.createState
  if s.equalPrefix then
    if minLabel = maxLabel then do
      let a ← a.addTransitionLabel s.lastState nextState minLabel
      pure { s with a := a, lastState := nextState }
    else
      match max with
      | some max => do
        let a ← a.addTransitionLabel s.lastState nextState minLabel
        let a ← a.addTransitionIf (maxLabel > minLabel + 1) s.lastState sinkState (minLabel + 1)
          (maxLabel - 1)
        if maxInclusive || decide (i < max.length - 1) then do
          let (a, firstMaxState) := a.createState
          let a ← a.setAcceptIf (i < max.length - 1) firstMaxState
          let a ← a.addTransitionLabel s.lastState firstMaxState maxLabel
          pure
            { a := a
              equalPrefix := false
              lastState := nextState
              firstMaxState := some firstMaxState
              sharedPrefixLength := i }
        else
          pure
            { s with
              a := a
              equalPrefix := false
              lastState := nextState
              sharedPrefixLength := i }
      | none => do
        let a ← a.addTransition s.lastState sinkState (minLabel + 1) 0xff
        let a ← a.addTransitionLabel s.lastState nextState minLabel
        pure
          { s with
            a := a
            equalPrefix := false
            lastState := nextState
            sharedPrefixLength := 0 }
  else do
    let a ← a.addTransitionLabel s.lastState nextState minLabel
    let a ← a.addTransitionIf (minLabel < 255) s.lastState sinkState (minLabel + 1) 255
    pure { s with a := a, lastState := nextState }

/-- The body of the loop over `max`; the state is the automaton with
`last_state`. -/
def intervalMaxStep (max : List U8) (maxInclusive : Bool) (sinkState : Nat)
    (s : Automaton × Nat) (i : Nat) : Result (Automaton × Nat) := do
  let (a, lastState) := s
  let maxByte ← Outcome.expect max[i]?
  let maxLabel := byteLabel maxByte
  let a ← a.addTransitionIf (maxLabel > 0) lastState sinkState 0 (maxLabel - 1)
  if maxInclusive || decide (i < max.length - 1) then do
    let (a, ns) := a.createState
    let a ← a.setAcceptIf (i < max.length - 1) ns
    let a ← a.addTransitionLabel lastState ns maxLabel
    pure (a, ns)
  else pure (a, lastState)

/-- The loop over `max`, from `sharedPrefixLength` on, and the accept flag
behind it. -/
def followMax (max : List U8) (maxInclusive : Bool) (sinkState : Nat) (a : Automaton)
    (lastState sharedPrefixLength : Nat) : Result Automaton := do
  let (a, lastState) ←
    (List.range' sharedPrefixLength (max.length - sharedPrefixLength)).foldlM
      (intervalMaxStep max maxInclusive sinkState) (a, lastState)
  a.setAcceptIf (maxInclusive = true) lastState

/-- The general case of `make_binary_interval`. -/
def generalInterval (min : List U8) (minInclusive : Bool) (max : Option (List U8))
    (maxInclusive : Bool) : Result Automaton := do
  let (a, startState) := Automaton.empty.createState
  let (a, sinkState) := a.createState
  let a ← a.setAccept sinkState true
  let a ← a.addTransition sinkState sinkState 0 255
  let s ← (List.range' 0 min.length).foldlM
    (intervalMinStep min minInclusive max maxInclusive sinkState)
    { a := a
      equalPrefix := true
      lastState := startState
      firstMaxState := none
      sharedPrefixLength := 0 }
  let a ← s.a.addTransitionIf
    (s.equalPrefix = false ∧ s.lastState ≠ sinkState ∧ s.lastState ≠ startState)
    s.lastState sinkState 0 255
  let a ← a.setAcceptIf (minInclusive = true) s.lastState
  match max with
  | none => pure a.finishState
  | some max => do
    let a ←
      match s.firstMaxState with
      | none => followMax max maxInclusive sinkState a s.lastState min.length
      | some firstMaxState =>
        followMax max maxInclusive sinkState a firstMaxState (s.sharedPrefixLength + 1)
    pure a.finishState

/-- `make_binary_interval`. -/
def makeBinaryInterval (min : Option (List U8)) (minInclusive : Bool) (max : Option (List U8))
    (maxInclusive : Bool) : Result Automaton :=
  if min.isNone && !minInclusive then
    .err (.illegalArgument "minInclusive must be true when min is null (open ended)")
  else if max.isNone && !maxInclusive then
    .err (.illegalArgument "maxInclusive must be true when max is null (open ended)")
  else
    let minInclusive := minInclusive || min.isNone
    let min := min.getD []
    match max with
    | none =>
      if min = [] then (if minInclusive then makeAnyBinary else makeNonEmptyBinary)
      else generalInterval min minInclusive none maxInclusive
    | some max =>
      match cmpBytes min max with
      | .eq => if !minInclusive || !maxInclusive then pure makeEmpty else makeBinary min
      | .gt => pure makeEmpty
      | .lt =>
        if min.isPrefixOf max && (max.drop min.length).all (fun b => b == 0) then
          let maxLength := if !maxInclusive then max.length - 1 else max.length
          if maxLength = min.length then
            (if !minInclusive then pure makeEmpty else makeBinary min)
          else zeroTailInterval min minInclusive maxLength
        else generalInterval min minInclusive (some max) maxInclusive

/-! ## Decimal intervals -/

/-- The label of a digit. -/
def digitLabel (c : Char) : Int :=
  c.toNat

/-- `digit`. -/
def digit (x : List Char) (n : Nat) : Result Int := do
  let c ← Outcome.expect x[n]?
  pure (digitLabel c)

/-- `any_of_right_length`. -/
def anyOfRightLength (x : List Char) : Nat → Builder → Nat → Result (Builder × Nat)
  | 0, _, _ => .panic
  | fuel + 1, b, n => do
    let (b, s) := b.createState
    if x.length = n then do
      let b ← b.setAccept s true
      pure (b, s)
    else do
      let (b, t) ← anyOfRightLength x fuel b (n + 1)
      pure (b.addTransition s t (digitLabel '0') (digitLabel '9'), s)

/-- `at_least`. -/
def atLeast (x : List Char) : Nat → Builder → Nat → List Nat → Bool →
    Result (Builder × List Nat × Nat)
  | 0, _, _, _, _ => .panic
  | fuel + 1, b, n, initials, zeros => do
    let (b, s) := b.createState
    if x.length = n then do
      let b ← b.setAccept s true
      pure (b, initials, s)
    else do
      let initials := if zeros then initials ++ [s] else initials
      let c ← digit x n
      let (b, initials, t) ← atLeast x fuel b (n + 1) initials (zeros && c == digitLabel '0')
      let b := b.addTransitionLabel s t c
      if c < digitLabel '9' then do
        let (b, t) ← anyOfRightLength x fuel b (n + 1)
        pure (b.addTransition s t (c + 1) (digitLabel '9'), initials, s)
      else pure (b, initials, s)

/-- `at_most`. -/
def atMost (x : List Char) : Nat → Builder → Nat → Result (Builder × Nat)
  | 0, _, _ => .panic
  | fuel + 1, b, n => do
    let (b, s) := b.createState
    if x.length = n then do
      let b ← b.setAccept s true
      pure (b, s)
    else do
      let c ← digit x n
      let (b, t) ← atMost x fuel b (n + 1)
      let b := b.addTransitionLabel s t c
      if c > digitLabel '0' then do
        let (b, t) ← anyOfRightLength x fuel b (n + 1)
        pure (b.addTransition s t (digitLabel '0') (c - 1), s)
      else pure (b, s)

/-- `between`. -/
def between (x y : List Char) : Nat → Builder → Nat → List Nat → Bool →
    Result (Builder × List Nat × Nat)
  | 0, _, _, _, _ => .panic
  | fuel + 1, b, n, initials, zeros => do
    let (b, s) := b.createState
    if x.length = n then do
      let b ← b.setAccept s true
      pure (b, initials, s)
    else do
      let initials := if zeros then initials ++ [s] else initials
      let cx ← digit x n
      let cy ← digit y n
      if cx = cy then do
        let (b, initials, t) ←
          between x y fuel b (n + 1) initials (zeros && cx == digitLabel '0')
        pure (b.addTransitionLabel s t cx, initials, s)
      else do
        let (b, initials, t) ← atLeast x fuel b (n + 1) initials (zeros && cx == digitLabel '0')
        let b := b.addTransitionLabel s t cx
        let (b, t) ← atMost y fuel b (n + 1)
        let b := b.addTransitionLabel s t cy
        if cx + 1 < cy then do
          let (b, t) ← anyOfRightLength x fuel b (n + 1)
          pure (b.addTransition s t (cx + 1) (cy - 1), initials, s)
        else pure (b, initials, s)

/-- `to_string` of a number. -/
def decimal (n : Nat) : List Char :=
  Nat.toDigits 10 n

/-- `n` zeros in front of a numeral. -/
def padZeros (n : Nat) (s : List Char) : List Char :=
  List.replicate n '0' ++ s

/-- The end of `make_decimal_interval` for numerals without a fixed length:
zeros at the initial state, and what the initial states of the interval
read. -/
def addLeadingZeros (a : Automaton) (initials : List Nat) : Result Automaton := do
  let a ← a.addTransitionLabel 0 0 (digitLabel '0')
  let a ← initials.foldlM (fun a p => a.addEpsilon 0 p) a
  pure a.finishState

/-- `make_decimal_interval`. -/
def makeDecimalInterval (min max : Nat) (digits : Int) : Result Automaton := do
  let x := decimal min
  let y := decimal max
  if min > max ∨ digits > 0 ∧ (y.length : Int) > digits then .err (.illegalArgument "")
  else do
    let d := if digits > 0 then digits.toNat else y.length
    let x := padZeros (d - x.length) x
    let y := padZeros (d - y.length) y
    let builder := if digits ≤ 0 then Builder.empty.createState.1 else Builder.empty
    let (builder, initials, _) ← between x y (x.length + 1) builder 0 [] (decide (digits ≤ 0))
    let a1 ← builder.finish
    let a1 ← if digits ≤ 0 then addLeadingZeros a1 initials else pure a1
    removeDeadStates a1

end LuceneRust.Util.Automata
