import LuceneRust.Codecs.Lz4.Encode

/-!
# The LZ4 compressor and its two hash tables

The model of the trait `HashTable` with its two implementations and of
`compress_with_dictionary`, which is generic in the table.  A table is a
value that the calls pass on, so that the state which one compression leaves
behind is the state in which the next one starts.

The slots of `HighCompressionHashTable` are `i32` in the source, and the
offsets that are stored there are `usize`.  A slot is its 32 bits here, read
with `BitVec.toInt`.  `asI32` is the value of the cast, and `i32AsUsize` is
the cast back, which extends the sign.
-/

namespace LuceneRust.Codecs.Lz4

open RustSem Store

/-- The trait `HashTable`. -/
class HashTable (T : Type) where
  reset : T → List U8 → Nat → Nat → Result T
  initDictionary : T → List U8 → Nat → Result T
  get : T → List U8 → Nat → Result (Option Nat × T)
  previous : T → List U8 → Nat → Result (Option Nat × T)

/-- `MEMORY_USAGE`. -/
def memoryUsage : Nat := 14

/-- `HASH_LOG_HC`. -/
def hashLogHc : Nat := 15

/-- `HASH_TABLE_SIZE_HC`. -/
def hashTableSizeHc : Nat := 1 <<< hashLogHc

/-- `MAX_ATTEMPTS`. -/
def maxAttempts : Nat := 256

/-- `HC_MASK`. -/
def hcMask : Nat := maxDistance - 1

/-! ## `FastCompressionHashTable` -/

/-- One last occurrence per hash, relative to `base`. -/
structure FastCompressionHashTable where
  table : List U32
  hashLog : Nat
  bitsPerOffset : Nat
  base : Nat

namespace FastCompressionHashTable

/-- `FastCompressionHashTable::new`. -/
def new : FastCompressionHashTable := ⟨[], 0, 0, 0⟩

/-- `reset`. -/
def reset (t : FastCompressionHashTable) (_bytes : List U8) (off len : Nat) :
    Result FastCompressionHashTable :=
  let (bitsPerOffset, bitsPerOffsetLog) :=
    if len - lastLiterals < 1 <<< 16 then (16, 4) else (32, 5)
  let hashLog := memoryUsage + 3 - bitsPerOffsetLog
  if t.table.length < 1 <<< hashLog ∨ t.bitsPerOffset < bitsPerOffset then
    .ok ⟨List.replicate (1 <<< hashLog) 0, hashLog, bitsPerOffset, off⟩
  else .ok ⟨t.table, hashLog, t.bitsPerOffset, off⟩

/-- The loop body of `init_dictionary`. -/
def addDictionary (bytes : List U8) (t : FastCompressionHashTable)
    (i : Nat) : Result FastCompressionHashTable := do
  let v ← read4 bytes (t.base + i)
  let h := hash v t.hashLog
  .guardOk (h < t.table.length)
  .ok { t with table := t.table.set h (BitVec.ofNat 32 i) }

/-- `init_dictionary`. -/
def initDictionary (t : FastCompressionHashTable) (bytes : List U8)
    (dictLen : Nat) : Result FastCompressionHashTable :=
  (List.range dictLen).foldlM (addDictionary bytes) t

/-- `get`. -/
def get (t : FastCompressionHashTable) (bytes : List U8) (off : Nat) :
    Result (Option Nat × FastCompressionHashTable) := do
  let v ← read4 bytes off
  let h := hash v t.hashLog
  let prev ← .expect t.table[h]?
  let rel ← .expect (checkedSub off t.base)
  let t := { t with table := t.table.set h (BitVec.ofNat 32 rel) }
  let candidate := t.base + prev.toNat
  if candidate < off ∧ off - candidate < maxDistance then do
    let w ← read4 bytes candidate
    .ok (if w = v then some candidate else none, t)
  else .ok (none, t)

instance : HashTable FastCompressionHashTable where
  reset := reset
  initDictionary := initDictionary
  get := get
  previous := fun t _ _ => .ok (none, t)

end FastCompressionHashTable

/-! ## `HighCompressionHashTable` -/

/-- `off as i32`. -/
def asI32 (off : Nat) : Int := (BitVec.ofNat 32 off).toInt

/-- `candidate as usize` for an `i32`. -/
def i32AsUsize (candidate : Int) : Nat := (candidate % usizeSize).toNat

/-- The last occurrence per hash and, for every offset of the last 64 kB,
the distance to the occurrence before it. -/
structure HighCompressionHashTable where
  hashTable : List U32
  chainTable : List U16
  base : Nat
  next : Nat
  stop : Nat
  attempts : Nat

namespace HighCompressionHashTable

/-- `HighCompressionHashTable::new`. -/
def new : HighCompressionHashTable :=
  ⟨List.replicate hashTableSizeHc (-1#32), List.replicate maxDistance 0xFFFF, 0,
    0, 0, 0⟩

/-- `add_hash`. -/
def addHash (bytes : List U8) (t : HighCompressionHashTable) (off : Nat) :
    Result HighCompressionHashTable := do
  let v ← read4 bytes off
  let h := hash v hashLogHc
  let prev ← .expect t.hashTable[h]?
  let delta : Int := off - prev.toInt
  let delta := if delta ≤ 0 ∨ (maxDistance : Int) ≤ delta
    then (maxDistance : Int) - 1 else delta
  .guardOk (off &&& hcMask < t.chainTable.length)
  .ok { t with
    chainTable := t.chainTable.set (off &&& hcMask) (BitVec.ofInt 16 delta)
    hashTable := t.hashTable.set h (BitVec.ofNat 32 off) }

/-- `self.chain_table[lo..hi].fill(0xFFFF)`. -/
def fillChain (chain : List U16) (lo hi : Nat) : Result (List U16) := do
  .guardOk (lo ≤ hi ∧ hi ≤ chain.length)
  .ok (splice chain lo (List.replicate (hi - lo) 0xFFFF))

/-- The part of the chain table that a short input has touched, emptied. -/
def clearTouched (t : HighCompressionHashTable) : Result (List U16) :=
  let startOffset := t.base &&& hcMask
  let endOffset := if t.stop = 0 then 0 else ((t.stop - 1) &&& hcMask) + 1
  if startOffset < endOffset then fillChain t.chainTable startOffset endOffset
  else do
    let chain ← fillChain t.chainTable 0 endOffset
    fillChain chain startOffset chain.length

/-- `reset`. -/
def reset (t : HighCompressionHashTable) (_bytes : List U8) (off len : Nat) :
    Result HighCompressionHashTable := do
  let used ← .expect (checkedSub t.stop t.base)
  if used < t.chainTable.length then do
    let chain ← clearTouched t
    .ok { t with
      chainTable := chain, base := off, next := off, stop := off + len }
  else
    .ok { t with
      hashTable := List.replicate t.hashTable.length (-1#32)
      chainTable := List.replicate t.chainTable.length 0xFFFF
      base := off, next := off, stop := off + len }

/-- `init_dictionary`. -/
def initDictionary (t : HighCompressionHashTable) (bytes : List U8)
    (dictLen : Nat) : Result HighCompressionHashTable := do
  .guardOk (t.next = t.base)
  let t ← (List.range dictLen).foldlM
    (fun t i => addHash bytes t (t.base + i)) t
  .ok { t with next := t.next + dictLen }

/-- The catch-up loop of `get`. -/
def catchUpPass (bytes : List U8) (off : Nat)
    (t : HighCompressionHashTable) :
    Result (HighCompressionHashTable ⊕ HighCompressionHashTable) :=
  if t.next < off then do
    let t ← addHash bytes t t.next
    .ok (.inl { t with next := t.next + 1 })
  else .ok (.inr t)

/-- The search loop of `get`, in `i32`.  The state is the candidate and the
number of attempts. -/
def getPass (bytes : List U8) (v : U32) (chain : List U16) (min : Int)
    (s : Int × Nat) : Result ((Int × Nat) ⊕ (Option Nat × Nat)) :=
  let (candidate, attempts) := s
  if min ≤ candidate ∧ attempts < maxAttempts then do
    let r := i32AsUsize candidate
    let w ← read4 bytes r
    if w = v then .ok (.inr (some r, attempts))
    else do
      let d ← .expect chain[r &&& hcMask]?
      .guardOk (-2 ^ 31 ≤ candidate - d.toNat)
      .ok (.inl (candidate - d.toNat, attempts + 1))
  else .ok (.inr (none, attempts))

/-- `get`. -/
def get (t : HighCompressionHashTable) (bytes : List U8) (off : Nat) :
    Result (Option Nat × HighCompressionHashTable) := do
  let t ← iterate (catchUpPass bytes off) (off + 1) t
  let v ← read4 bytes off
  let h := hash v hashLogHc
  let candidate ← .expect t.hashTable[h]?
  if asI32 off ≤ candidate.toInt then .ok (none, { t with attempts := 0 })
  else do
    let min := asI32 (max t.base (off + 1 - min maxDistance (off + 1)))
    let (r, attempts) ← iterate (getPass bytes v t.chainTable min)
      (maxAttempts + 1) (candidate.toInt, 0)
    .ok (r, { t with attempts := attempts })

/-- The search loop of `previous`, in `i64`. -/
def previousPass (bytes : List U8) (v : U32) (chain : List U16) (base : Nat)
    (s : Int × Nat) : Result ((Int × Nat) ⊕ (Option Nat × Nat)) :=
  let (candidate, attempts) := s
  if (base : Int) ≤ candidate ∧ attempts < maxAttempts then do
    let r := candidate.toNat
    let w ← read4 bytes r
    if w = v then .ok (.inr (some r, attempts))
    else do
      let d ← .expect chain[r &&& hcMask]?
      .ok (.inl (candidate - d.toNat, attempts + 1))
  else .ok (.inr (none, attempts))

/-- `previous`. -/
def previous (t : HighCompressionHashTable) (bytes : List U8) (off : Nat) :
    Result (Option Nat × HighCompressionHashTable) := do
  let v ← read4 bytes off
  let d ← .expect t.chainTable[off &&& hcMask]?
  let (r, attempts) ← iterate (previousPass bytes v t.chainTable t.base)
    (maxAttempts + 1) ((off : Int) - d.toNat, t.attempts)
  .ok (r, { t with attempts := attempts })

instance : HashTable HighCompressionHashTable where
  reset := reset
  initDictionary := initDictionary
  get := get
  previous := previous

end HighCompressionHashTable

/-! ## `compress_with_dictionary` -/

section Compress

variable {T : Type} [HashTable T]

/-- The loop that looks for a match from `off` on.  Nothing found is the
`break 'main` of the source. -/
def findMatchPass (bytes : List U8) (dictOff matchLimit : Nat)
    (s : Nat × T) : Result ((Nat × T) ⊕ (Option Nat × Nat × T)) :=
  let (off, ht) := s
  if matchLimit ≤ off then .ok (.inr (none, off, ht))
  else do
    let (r, ht) ← HashTable.get ht bytes off
    match r with
    | some r => do
      .guardOk (dictOff ≤ r ∧ r < off)
      .ok (.inr (some r, off, ht))
    | none => .ok (.inl (off + 1, ht))

/-- The match that is kept, the next candidate and the table. -/
structure BetterState (T : Type) where
  matchRef : Nat
  matchLen : Nat
  r : Option Nat
  ht : T

/-- The loop that looks for a longer match at the same offset. -/
def betterMatchPass (bytes : List U8) (off limit min : Nat)
    (s : BetterState T) : Result (BetterState T ⊕ BetterState T) :=
  match s.r with
  | none => .ok (.inr s)
  | some candidate =>
    if candidate < min then .ok (.inr s)
    else do
      let n ← commonBytes bytes (candidate + minMatch) (off + minMatch) limit
      let candidateLen := minMatch + n
      let (matchRef, matchLen) := if s.matchLen < candidateLen
        then (candidate, candidateLen) else (s.matchRef, s.matchLen)
      let (r, ht) ← HashTable.previous s.ht bytes candidate
      .ok (.inl ⟨matchRef, matchLen, r, ht⟩)

/-- The longest match at `off`, starting from the one at `matchRef`. -/
def bestMatch (bytes : List U8) (dictOff off limit matchRef : Nat) (ht : T) :
    Result (BetterState T) := do
  let n ← commonBytes bytes (matchRef + minMatch) (off + minMatch) limit
  let min := max dictOff (off + 1 - min maxDistance (off + 1))
  let (r, ht) ← HashTable.previous ht bytes matchRef
  iterate (betterMatchPass bytes off limit min) (bytes.length + 1)
    ⟨matchRef, minMatch + n, r, ht⟩

/-- The state of the main loop. -/
structure CompressState (T : Type) where
  off : Nat
  anchor : Nat
  out : List U8
  ht : T

/-- The body of the main loop. -/
def compressPass (bytes : List U8) (dictOff limit matchLimit : Nat)
    (s : CompressState T) : Result (CompressState T ⊕ CompressState T) :=
  if s.off ≤ limit then do
    let (found, off, ht) ← iterate (findMatchPass bytes dictOff matchLimit)
      (matchLimit - s.off + 1) (s.off, s.ht)
    match found with
    | none => .ok (.inr { s with off := off, ht := ht })
    | some matchRef => do
      let m ← bestMatch bytes dictOff off limit matchRef ht
      let out ←
        encodeSequence bytes s.anchor m.matchRef off m.matchLen s.out
      .ok (.inl ⟨off + m.matchLen, off + m.matchLen, out, m.ht⟩)
  else .ok (.inr s)

/-- The search for matches, which is left out for a short input. -/
def compressMain (bytes : List U8) (dictOff dictLen len : Nat)
    (out : List U8) (ht : T) : Result (CompressState T) :=
  let stop := dictOff + dictLen + len
  let off := dictOff + dictLen
  if lastLiterals + minMatch < len then do
    let limit := stop - lastLiterals
    let matchLimit := limit - minMatch
    let ht ← HashTable.reset ht bytes dictOff (dictLen + len)
    let ht ← HashTable.initDictionary ht bytes dictLen
    iterate (compressPass bytes dictOff limit matchLimit) (limit - off + 2)
      ⟨off, off, out, ht⟩
  else .ok ⟨off, off, out, ht⟩

/-- `compress_with_dictionary`.  The result is the output, to which the
block is appended, and the table. -/
def compressWithDictionary (bytes : List U8) (dictOff dictLen len : Nat)
    (out : List U8) (ht : T) : Result (List U8 × T) := do
  .guardOk (dictLen ≤ maxDistance)
  let s ← compressMain bytes dictOff dictLen len out ht
  let stop := dictOff + dictLen + len
  let literalLen ← .expect (checkedSub stop s.anchor)
  let out ← encodeLastLiterals bytes s.anchor literalLen s.out
  .ok (out, s.ht)

end Compress

end LuceneRust.Codecs.Lz4
