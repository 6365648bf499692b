import LuceneRust.Codecs.Lz4.Encode

/-!
# The high-compression LZ4 compressor

The model of `lucene_codecs::lz4_hc::Lz4HcCompressor`.  The nested labelled
loops of `compress_with_dictionary` are a state machine here: `Phase.outer`
is the head of `'outer`, `Phase.search2` the head of `'search2` and
`Phase.search3` the head of the innermost loop, and `compressPass` runs from
one head to the next.  Every subtraction is the checked `sub`, so that an
underflow would show as a panic.
-/

namespace LuceneRust.Codecs.Lz4Hc

open RustSem Store Lz4

/-- `HASH_LOG`. -/
def hashLog : Nat := 15

/-- `CHAIN_SIZE`. -/
def chainSize : Nat := 1 <<< 16

/-- `CHAIN_MASK`. -/
def chainMask : Nat := chainSize - 1

/-- `MAX_DISTANCE` of this file, the longest distance an offset can hold. -/
def maxDistance : Nat := (1 <<< 16) - 1

/-- `MF_LIMIT`. -/
def mfLimit : Nat := 12

/-- `OPTIMAL_ML`. -/
def optimalMl : Nat := 0x0F - 1 + minMatch

/-- `REBASE_LIMIT`. -/
def rebaseLimit : Nat := 1 <<< 30

/-- `Lz4HcCompressor`. -/
structure Lz4HcCompressor where
  hashTable : List U32
  chainTable : List U16
  base : Nat
  nextToUpdate : Nat
  maxAttempts : Nat

/-- A match: `len` bytes at `start` repeat those at `reference`. -/
structure Match where
  start : Nat
  reference : Nat
  len : Nat

/-- Where a match ends. -/
def Match.stop (m : Match) : Nat := m.start + m.len

/-- `read2`. -/
def read2 (b : List U8) (i : Nat) : Option U16 :=
  (slice b i (i + 2)).map (fromLeBytes 16)

/-- `hash` of this file: the multiplier is the one of `lz4::hash`. -/
def hash (v : U32) : Nat :=
  ((v * 2654435761#32) >>> (32 - hashLog)).toNat

/-- `count_forward`.  Its loops are those of `common_bytes`, with `a` at
`start + n`. -/
def countForward (b : List U8) (a r limit : Nat) : Result Nat :=
  equalRun b a r (limit - a)

/-- The loop of `count_back`. -/
def countBackPass (b : List U8) (a r max : Nat) (n : Nat) :
    Result (Nat ⊕ Nat) :=
  if n < max then do
    let i ← sub a n
    let i ← sub i 1
    let j ← sub r n
    let j ← sub j 1
    let x ← .expect b[i]?
    let y ← .expect b[j]?
    .ok (if x = y then .inl (n + 1) else .inr n)
  else .ok (.inr n)

/-- `count_back`. -/
def countBack (b : List U8) (a r aLow rLow : Nat) : Result Nat := do
  let m1 ← sub a aLow
  let m2 ← sub r rLow
  let max := min m1 m2
  iterate (countBackPass b a r max) (max + 1) 0

namespace Lz4HcCompressor

/-- `Lz4HcCompressor::new`. -/
def new (maxAttempts : Nat) : Lz4HcCompressor :=
  ⟨List.replicate (1 <<< hashLog) 0, List.replicate chainSize 0, 1, 0,
    max maxAttempts 1⟩

/-- `start`. -/
def start (c : Lz4HcCompressor) (bufferLen windowStart : Nat) :
    Lz4HcCompressor :=
  let c := if rebaseLimit < c.base ∨ rebaseLimit ≤ bufferLen then
      { c with
        hashTable := List.replicate c.hashTable.length 0
        chainTable := List.replicate c.chainTable.length 0
        base := 1 }
    else c
  { c with nextToUpdate := windowStart }

/-- `finish`. -/
def finish (c : Lz4HcCompressor) (bufferLen : Nat) : Lz4HcCompressor :=
  { c with base := c.base + (bufferLen + chainSize) }

/-- The loop body of `insert`. -/
def insertPass (b : List U8) (target : Nat) (c : Lz4HcCompressor) :
    Result (Lz4HcCompressor ⊕ Lz4HcCompressor) :=
  if c.nextToUpdate < target then do
    let i := c.nextToUpdate
    let pos := c.base + i
    let v ← read4 b i
    let h := hash v
    let prev ← .expect c.hashTable[h]?
    let prev := prev.toNat
    let delta := if prev = 0 ∨ pos ≤ prev then maxDistance
      else min (pos - prev) maxDistance
    .guardOk (pos &&& chainMask < c.chainTable.length)
    .ok (.inl { c with
      chainTable := c.chainTable.set (pos &&& chainMask) (BitVec.ofNat 16 delta)
      hashTable := c.hashTable.set h (BitVec.ofNat 32 pos)
      nextToUpdate := c.nextToUpdate + 1 })
  else .ok (.inr c)

/-- `insert`. -/
def insert (b : List U8) (target : Nat) (c : Lz4HcCompressor) :
    Result Lz4HcCompressor :=
  iterate (insertPass b target) (target + 1) c

/-- The walk along a chain in `wider_match`. -/
structure WiderState where
  pos : Nat
  attempts : Nat
  longest : Nat
  best : Option Match

/-- The arguments of `wider_match` that its loop reads. -/
structure WiderArgs where
  ip : Nat
  lowLimit : Nat
  highLimit : Nat
  windowStart : Nat

/-- The filter before the comparison: the two bytes that would end a match
one longer than the best so far must agree. -/
def quick (b : List U8) (a : WiderArgs) (longest r : Nat) : Result Bool := do
  let lookBack ← sub a.ip a.lowLimit
  let probe ← sub (a.lowLimit + longest) 1
  match checkedSub (r + longest) (lookBack + 1) with
  | some rp => .ok ((read2 b probe).isSome && read2 b probe == read2 b rp)
  | none => .ok true

/-- The match at `r`, widened in both directions. -/
def widen (b : List U8) (a : WiderArgs) (r : Nat) : Result Match := do
  let lookBack ← sub a.ip a.lowLimit
  let n ← countForward b (a.ip + minMatch) (r + minMatch) a.highLimit
  let forward := minMatch + n
  if 0 < lookBack then do
    let back ← countBack b a.ip r a.lowLimit a.windowStart
    let start ← sub a.ip back
    let reference ← sub r back
    .ok ⟨start, reference, forward + back⟩
  else .ok ⟨a.ip, r, forward⟩

/-- One candidate of the walk: the longest length and the best match after
it. -/
def tryCandidate (b : List U8) (a : WiderArgs) (pattern : U32) (r : Nat)
    (s : WiderState) : Result (Nat × Option Match) := do
  let q ← quick b a s.longest r
  if q then do
    let v ← read4 b r
    if v = pattern then do
      let m ← widen b a r
      .ok (if s.longest < m.len then (m.len, some m) else (s.longest, s.best))
    else .ok (s.longest, s.best)
  else .ok (s.longest, s.best)

/-- The loop body of `wider_match`. -/
def widerPass (b : List U8) (a : WiderArgs) (pattern : U32) (lowest : Nat)
    (c : Lz4HcCompressor) (s : WiderState) :
    Result (WiderState ⊕ Option Match) :=
  if lowest ≤ s.pos ∧ 0 < s.attempts then do
    let r ← sub s.pos c.base
    let (longest, best) ← tryCandidate b a pattern r s
    let delta ← .expect c.chainTable[s.pos &&& chainMask]?
    if delta.toNat = 0 ∨ s.pos < delta.toNat then .ok (.inr best)
    else .ok (.inl ⟨s.pos - delta.toNat, s.attempts - 1, longest, best⟩)
  else .ok (.inr s.best)

/-- `wider_match`. -/
def widerMatch (b : List U8) (a : WiderArgs) (longest : Nat)
    (c : Lz4HcCompressor) : Result (Option Match × Lz4HcCompressor) := do
  let c ← insert b a.ip c
  let lowest := c.base + max a.windowStart (a.ip - maxDistance)
  let pattern ← read4 b a.ip
  let pos ← .expect c.hashTable[hash pattern]?
  let best ← iterate (widerPass b a pattern lowest c) (c.maxAttempts + 1)
    ⟨pos.toNat, c.maxAttempts, longest, none⟩
  .ok (best, c)

end Lz4HcCompressor

/-! ## The lazy search -/

/-- The head of a loop of `compress_with_dictionary`. -/
inductive Phase where
  | outer (ip : Nat)
  | search2 (m0 m1 : Match)
  | search3 (m1 m2 : Match)

/-- The state at a loop head. -/
structure HcState where
  phase : Phase
  anchor : Nat
  out : List U8
  c : Lz4HcCompressor

/-- What does not change during a call. -/
structure HcArgs where
  b : List U8
  dictOff : Nat
  mfLimit : Nat
  matchLimit : Nat

/-- The closure `emit`: write a match and move the anchor behind it. -/
def emit (g : HcArgs) (s : HcState) (m : Match) : Result HcState := do
  let out ← encodeSequence g.b s.anchor m.reference m.start m.len s.out
  .ok { s with anchor := m.start + m.len, out := out }

/-- The search for a match that starts at or after the start of `m` and
covers `back` bytes before its end. -/
def searchAfter (g : HcArgs) (m : Match) (back : Nat)
    (c : Lz4HcCompressor) : Result (Option Match × Lz4HcCompressor) :=
  if m.start + m.len ≤ g.mfLimit then do
    let ip ← sub (m.start + m.len) back
    c.widerMatch g.b ⟨ip, m.start, g.matchLimit, g.dictOff⟩ m.len
  else .ok (none, c)

/-- Move the start of a match forward. -/
def Match.shift (m : Match) (correction : Nat) : Result Match := do
  let len ← sub m.len correction
  .ok ⟨m.start + correction, m.reference + correction, len⟩

/-- The length that the first match may have before the second, if the
second is to keep `MIN_MATCH` bytes. -/
def fittedMl (m1 m2 : Match) (gap ml : Nat) : Result Nat := do
  let room ← sub (m2.start + m2.len) minMatch
  if room < m1.start + ml then sub (gap + m2.len) minMatch else .ok ml

/-- The `OPTIMAL_ML` correction: the new length of the first match and the
second one, moved behind it. -/
def fitMatches (m1 m2 : Match) (gap : Nat) : Result (Nat × Match) := do
  let ml ← fittedMl m1 m2 gap (min m1.len optimalMl)
  if gap < ml then do
    let m2 ← m2.shift (ml - gap)
    .ok (ml, m2)
  else .ok (ml, m2)

/-- The head of `_Search3`. -/
def correctSecond (m1 m2 : Match) : Result Match := do
  let gap ← sub m2.start m1.start
  if gap < optimalMl then do
    let (_, m2) ← fitMatches m1 m2 gap
    .ok m2
  else .ok m2

/-- The first match, cut off where the second starts. -/
def cutFirst (m1 m2 : Match) : Result Match :=
  if m2.start < m1.start + m1.len then do
    let len ← sub m2.start m1.start
    .ok { m1 with len := len }
  else .ok m1

/-- The second match, moved behind the first, or the third if too little of
it is left. -/
def dropSecond (m1 m2 m3 : Match) : Result Match :=
  if m2.start < m1.start + m1.len then do
    let correction ← sub (m1.start + m1.len) m2.start
    let len := m2.len - correction
    if len < minMatch then .ok m3
    else .ok ⟨m2.start + correction, m2.reference + correction, len⟩
  else .ok m2

/-- The first two of three ascending matches. -/
def trimFirst (m1 m2 : Match) : Result (Match × Match) :=
  if m2.start < m1.start + m1.len then do
    let gap ← sub m2.start m1.start
    if gap < optimalMl then do
      let (ml, m2) ← fitMatches m1 m2 gap
      .ok ({ m1 with len := ml }, m2)
    else .ok ({ m1 with len := gap }, m2)
  else .ok (m1, m2)

/-- From the head of `'outer`. -/
def outerPass (g : HcArgs) (ip : Nat) (s : HcState) :
    Result (HcState ⊕ HcState) :=
  if ip ≤ g.mfLimit then do
    let (m, c) ← s.c.widerMatch g.b ⟨ip, ip, g.matchLimit, g.dictOff⟩
      (minMatch - 1)
    match m with
    | none => .ok (.inl { s with phase := .outer (ip + 1), c := c })
    | some m1 => .ok (.inl { s with phase := .search2 m1 m1, c := c })
  else .ok (.inr s)

/-- From the head of `'search2`. -/
def search2Pass (g : HcArgs) (m0 m1 : Match) (s : HcState) :
    Result HcState := do
  let (m2, c) ← searchAfter g m1 2 s.c
  let s := { s with c := c }
  match m2 with
  | none => do
    let s ← emit g s m1
    .ok { s with phase := .outer s.anchor }
  | some m2 => do
    -- A first match that was skipped forward is restored.
    let m1 := if m0.start < m1.start ∧ m2.start < m1.start + m0.len
      then m0 else m1
    let gap ← sub m2.start m1.start
    if gap < 3 then .ok { s with phase := .search2 m0 m2 }
    else .ok { s with phase := .search3 m1 m2 }

/-- From the head of the innermost loop. -/
def search3Pass (g : HcArgs) (m1 m2 : Match) (s : HcState) :
    Result HcState := do
  let m2 ← correctSecond m1 m2
  let (m3, c) ← searchAfter g m2 3 s.c
  let s := { s with c := c }
  match m3 with
  | none => do
    let m1 ← cutFirst m1 m2
    let s ← emit g s m1
    let s ← emit g s m2
    .ok { s with phase := .outer s.anchor }
  | some m3 =>
    if m3.start < m1.start + m1.len + 3 then
      if m1.start + m1.len ≤ m3.start then do
        let m2 ← dropSecond m1 m2 m3
        let s ← emit g s m1
        .ok { s with phase := .search2 m2 m3 }
      else .ok { s with phase := .search3 m1 m3 }
    else do
      let (m1, m2) ← trimFirst m1 m2
      let s ← emit g s m1
      .ok { s with phase := .search3 m2 m3 }

/-- One step of the state machine. -/
def compressPass (g : HcArgs) (s : HcState) : Result (HcState ⊕ HcState) :=
  match s.phase with
  | .outer ip => outerPass g ip s
  | .search2 m0 m1 => do
    let s ← search2Pass g m0 m1 s
    .ok (.inl s)
  | .search3 m1 m2 => do
    let s ← search3Pass g m1 m2 s
    .ok (.inl s)

/-- `compress_with_dictionary`.  The loops end because the newest match ends
later with every search. -/
def compressWithDictionary (bytes : List U8) (dictOff dictLen len : Nat)
    (out : List U8) (c : Lz4HcCompressor) :
    Result (List U8 × Lz4HcCompressor) := do
  let src := dictOff + dictLen
  let stop := src + len
  let b ← .expect (slice bytes 0 stop)
  if len < mfLimit + 1 then do
    let literalLen ← sub stop src
    let out ← encodeLastLiterals b src literalLen out
    .ok (out, c)
  else do
    let c := c.start stop dictOff
    let mfLimit ← sub stop mfLimit
    let matchLimit ← sub stop lastLiterals
    let c ← c.insert b (max (src - 3) dictOff)
    let s ← iterate (compressPass ⟨b, dictOff, mfLimit, matchLimit⟩)
      (2 * stop + 2) ⟨.outer src, src, out, c⟩
    let literalLen ← sub stop s.anchor
    let out ← encodeLastLiterals b s.anchor literalLen s.out
    .ok (out, s.c.finish stop)

end LuceneRust.Codecs.Lz4Hc
