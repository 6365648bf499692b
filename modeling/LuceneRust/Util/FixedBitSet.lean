import LuceneRust.Lib.WordOps
import LuceneRust.Util.Packed.BulkOperation

/-!
# `lucene_util::fixed_bit_set`

A set of bits of a fixed length, in words of 64 bits, bit `i` of word `w` for
the index `64 * w + i`.  The bits of the last word at and past the length are
its ghost bits.

A call returns or panics.  The unchecked accesses of the source are modelled
as checked ones, so that a call that returns made none out of bounds.
-/

namespace LuceneRust.Util

open RustSem WordTape
open Packed (Call)

/-- `bits2words`. -/
def bits2words (numBits : Nat) : Nat :=
  if numBits = 0 then 0 else (numBits - 1) / 64 + 1

/-- `FixedBitSet`. -/
structure FixedBitSet where
  words : List U64
  numBits : Nat
  room : words.length = bits2words numBits

theorem bits2words_mul (n : Nat) : bits2words (64 * n) = n := by
  unfold bits2words
  split <;> omega

/-- Every bit has a word. -/
theorem le_bits2words (n : Nat) : n ≤ 64 * bits2words n := by
  unfold bits2words
  split <;> omega

theorem lt_bits2words {i n : Nat} (h : i < n) : i / 64 < bits2words n := by
  unfold bits2words
  split <;> omega

theorem bits2words_lt (n : Nat) : 64 * bits2words n < n + 64 := by
  unfold bits2words
  split <;> omega

theorem bits2words_mono {m n : Nat} (h : m ≤ n) : bits2words m ≤ bits2words n := by
  unfold bits2words
  split <;> split <;> omega

/-- `ghost_bits_clear`. -/
def ghostBitsClear (words : List U64) (numBits : Nat) : Bool :=
  numBits % 64 == 0 ||
    (words.getD (bits2words numBits - 1) 0 &&& fromBit (numBits % 64)) == 0#64

namespace FixedBitSet

/-- `from_words`, with its debug assertions. -/
def fromWords (words : List U64) (numBits : Nat) : Call FixedBitSet :=
  if h : words.length = bits2words numBits then do
    .guardOk (ghostBitsClear words numBits)
    .ok ⟨words, numBits, h⟩
  else .panic

/-- `new`. -/
def new (numBits : Nat) : Call FixedBitSet :=
  if 8 * bits2words numBits ≤ maxAlloc then
    .ok ⟨List.replicate (bits2words numBits) 0#64, numBits, by simp⟩
  else .panic

/-- `copy_of`: the word of the bits `64 * w ..`. -/
def copyWord (len : Nat) (get : Nat → Bool) (w : Nat) : U64 :=
  (List.range (min (len - 64 * w) 64)).foldl
    (fun (acc : U64) b => acc ||| (BitVec.ofBool (get (64 * w + b))).setWidth 64 <<< b) 0#64

/-- `copy_of`. -/
def copyOf (len : Nat) (get : Nat → Bool) : Call FixedBitSet :=
  if 8 * bits2words len ≤ maxAlloc then
    .ok ⟨(List.range (bits2words len)).map (copyWord len get), len, by simp⟩
  else .panic

/-! ## Access to the words -/

/-- `self.words[i] = f(self.words[i])`. -/
def modifyWord (s : FixedBitSet) (i : Nat) (f : U64 → U64) : Call FixedBitSet :=
  if i < s.words.length then
    .ok { s with words := s.words.modify i f, room := by simp [s.room] }
  else .panic

/-- The words `lo..hi` changed one by one. -/
def modifyWords (s : FixedBitSet) (lo hi : Nat) (f : U64 → U64) :
    Call FixedBitSet :=
  if h : lo ≤ hi ∧ hi ≤ s.words.length then
    .ok
      { s with
        words := s.words.take lo ++
          (((s.words.drop lo).take (hi - lo)).map f ++ s.words.drop hi)
        room := by
          rw [← s.room]
          simp only [List.length_append, List.length_take, List.length_map,
            List.length_drop]
          omega }
  else .panic

/-- The words from `lo` on combined with `bs`, which has to fit. -/
def mergeWords (s : FixedBitSet) (lo : Nat) (f : U64 → U64 → U64)
    (bs : List U64) : Call FixedBitSet :=
  if h : lo + bs.length ≤ s.words.length then
    .ok
      { s with
        words := s.words.take lo ++ zipPrefix f (s.words.drop lo) bs
        room := by
          rw [← s.room, List.length_append, zipPrefix_length,
            List.length_take, List.length_drop]
          omega }
  else .panic

/-- `get`. -/
def get (s : FixedBitSet) (index : Nat) : Call Bool := do
  .guardOk (index < s.numBits)
  let word ← .expect s.words[index / 64]?
  .ok (((word >>> (index % 64)) &&& 1#64) != 0#64)

/-! ## Single bits -/

/-- `set`. -/
def set (s : FixedBitSet) (index : Nat) : Call FixedBitSet := do
  .guardOk (index < s.numBits)
  s.modifyWord (index / 64) (· ||| oneBit (index % 64))

/-- `clear`. -/
def clear (s : FixedBitSet) (index : Nat) : Call FixedBitSet := do
  .guardOk (index < s.numBits)
  s.modifyWord (index / 64) (· &&& ~~~oneBit (index % 64))

/-- `flip`. -/
def flip (s : FixedBitSet) (index : Nat) : Call FixedBitSet := do
  .guardOk (index < s.numBits)
  s.modifyWord (index / 64) (· ^^^ oneBit (index % 64))

/-- `get_and_set`: the set, and the bit that it had. -/
def getAndSet (s : FixedBitSet) (index : Nat) : Call (FixedBitSet × Bool) := do
  .guardOk (index < s.numBits)
  let mask := oneBit (index % 64)
  let word ← .expect s.words[index / 64]?
  let t ← s.modifyWord (index / 64) (· ||| mask)
  .ok (t, (word &&& mask) != 0#64)

/-- `get_and_clear`. -/
def getAndClear (s : FixedBitSet) (index : Nat) : Call (FixedBitSet × Bool) := do
  .guardOk (index < s.numBits)
  let mask := oneBit (index % 64)
  let word ← .expect s.words[index / 64]?
  let t ← s.modifyWord (index / 64) (· &&& ~~~mask)
  .ok (t, (word &&& mask) != 0#64)

/-- `clear_all`. -/
def clearAll (s : FixedBitSet) : FixedBitSet :=
  { s with
    words := List.replicate s.words.length 0#64
    room := by rw [List.length_replicate, s.room] }

/-! ## Ranges -/

/-- `range_masks`. -/
def rangeMasks (lo hi : Nat) : U64 × U64 :=
  (fromBit (lo % 64), BitVec.allOnes 64 >>> ((64 - hi % 64) % 64))

/-- The shape of the range operations: `both` where one word holds the whole
range, `edge` on the first and the last word, `whole` on the words between. -/
def overRange (s : FixedBitSet) (lo hi : Nat) (both : U64 → U64 → U64 → U64)
    (edge : U64 → U64 → U64) (whole : U64 → U64) : Call FixedBitSet :=
  if hi ≤ lo then .ok s
  else do
    .guardOk (hi ≤ s.numBits)
    let sw := lo / 64
    let ew := (hi - 1) / 64
    let (startmask, endmask) := rangeMasks lo hi
    if sw = ew then s.modifyWord sw fun w => both w startmask endmask
    else
      let s ← s.modifyWord sw fun w => edge w startmask
      let s ← s.modifyWords (sw + 1) ew whole
      s.modifyWord ew fun w => edge w endmask

/-- `flip_range`. -/
def flipRange (s : FixedBitSet) (lo hi : Nat) : Call FixedBitSet :=
  s.overRange lo hi (fun w a b => w ^^^ (a &&& b)) (fun w m => w ^^^ m)
    fun w => ~~~w

/-- `set_range`. -/
def setRange (s : FixedBitSet) (lo hi : Nat) : Call FixedBitSet :=
  s.overRange lo hi (fun w a b => w ||| (a &&& b)) (fun w m => w ||| m)
    fun _ => BitVec.allOnes 64

/-- `clear_range`. -/
def clearRange (s : FixedBitSet) (lo hi : Nat) : Call FixedBitSet :=
  s.overRange lo hi (fun w a b => w &&& (~~~a ||| ~~~b))
    (fun w m => w &&& ~~~m) fun _ => 0#64

/-! ## Two sets -/

/-- `or`. -/
def or (s other : FixedBitSet) : Call FixedBitSet := do
  .guardOk (other.numBits ≤ s.numBits)
  .ok { s with
    words := zipPrefix (· ||| ·) s.words other.words
    room := by rw [zipPrefix_length, s.room] }

/-- `and`: the words that both have, and zeros. -/
def and (s other : FixedBitSet) : FixedBitSet :=
  let n := min s.words.length other.words.length
  { s with
    words := zipPrefix (· &&& ·) (s.words.take n) other.words ++
      List.replicate (s.words.length - n) 0#64
    room := by
      rw [← s.room, List.length_append, zipPrefix_length, List.length_take,
        List.length_replicate]
      omega }

/-- `and_not`. -/
def andNot (s other : FixedBitSet) : FixedBitSet :=
  { s with
    words := zipPrefix (fun a b => a &&& ~~~b) s.words other.words
    room := by rw [zipPrefix_length, s.room] }

/-- `xor`: the assertion is on the words. -/
def xor (s other : FixedBitSet) : Call FixedBitSet := do
  .guardOk (other.words.length ≤ s.words.length)
  .ok { s with
    words := zipPrefix (· ^^^ ·) s.words other.words
    room := by rw [zipPrefix_length, s.room] }

/-! ## Words at an offset -/

/-- `merge_words_at`: the set, and whether `words` was in range. -/
def mergeWordsAt (s : FixedBitSet) (wordOffset : Nat) (words : List U64)
    (op : U64 → U64 → U64) : Call (FixedBitSet × Bool) :=
  let own := bits2words s.numBits
  let fit := min (own - wordOffset) words.length
  let inRange := (words.drop fit).all (· == 0#64)
  if fit = 0 then .ok (s, inRange)
  else do
    let last ← .expect words[fit - 1]?
    if wordOffset + fit = own ∧ s.numBits % 64 ≠ 0 then
      let keep := oneBit (s.numBits % 64) - 1#64
      let t ← s.mergeWords wordOffset op (words.take (fit - 1) ++ [last &&& keep])
      .ok (t, inRange && (last &&& ~~~keep) == 0#64)
    else
      let t ← s.mergeWords wordOffset op (words.take (fit - 1) ++ [last])
      .ok (t, inRange)

/-- `or_words_at`. -/
def orWordsAt (s : FixedBitSet) (wordOffset : Nat) (words : List U64) :
    Call (FixedBitSet × Bool) :=
  s.mergeWordsAt wordOffset words (· ||| ·)

/-- `and_not_words_at`. -/
def andNotWordsAt (s : FixedBitSet) (wordOffset : Nat) (words : List U64) :
    Call (FixedBitSet × Bool) :=
  s.mergeWordsAt wordOffset words fun a b => a &&& ~~~b

/-- `or_mask`: the whole mask is shifted in. -/
def orMask (s : FixedBitSet) (startBit : Nat) (mask : U64) (maskLen : Nat) :
    Call FixedBitSet := do
  .guardOk (startBit + maskLen ≤ s.numBits)
  let w := startBit / 64
  let off := startBit % 64
  let s ← s.modifyWord w (· ||| mask <<< off)
  if 64 < off + maskLen then
    -- a shift by the whole width overflows
    .guardOk (64 - off < 64)
    s.modifyWord (w + 1) (· ||| mask >>> (64 - off))
  else .ok s

/-! ## Ranges of two sets -/

/-- `bits_at`. -/
def bitsAt (s : FixedBitSet) (start n : Nat) : Call U64 := do
  .guardOk (1 ≤ n ∧ n ≤ 64 ∧ start + n ≤ s.numBits)
  let w := start / 64
  let sh := start % 64
  let v ← .expect s.words[w]?
  let v ← if 64 < sh + n then do
      let u ← .expect s.words[w + 1]?
      .ok ((v >>> sh) ||| (u <<< (64 - sh)))
    else .ok (v >>> sh)
  .ok (if n < 64 then v &&& (oneBit n - 1#64) else v)

/-- The source words of `range_op`, shifted into place. -/
def shiftedWords (s : FixedBitSet) (sw full shift : Nat) : Call (List U64) :=
  if shift = 0 then .expect (slice s.words sw (sw + full))
  else if 0 < full then do
    let ws ← .expect (slice s.words sw (sw + full + 1))
    .ok (List.zipWith (fun (a b : U64) => (a >>> shift) ||| (b <<< (64 - shift)))
      ws ws.tail)
  else .ok []

/-- The combination of `range_op` on `n` bits of one destination word, from
its bit `sh` on. -/
def rangeEdge (source : FixedBitSet) (sourceFrom : Nat) (dest : FixedBitSet)
    (destFrom sh n : Nat) (head : U64 → U64 → Nat → Nat → U64) : Call FixedBitSet := do
  let bits ← source.bitsAt sourceFrom n
  dest.modifyWord (destFrom / 64) fun d => head d bits sh n

/-- `range_op` from a destination word on: the whole words and the tail. -/
def rangeAligned (source : FixedBitSet) (sourceFrom : Nat) (dest : FixedBitSet)
    (destFrom length : Nat) (head : U64 → U64 → Nat → Nat → U64)
    (word : U64 → U64 → U64) : Call FixedBitSet := do
  let full := length / 64
  let ws ← source.shiftedWords (sourceFrom / 64) full (sourceFrom % 64)
  let dest ← dest.mergeWords (destFrom / 64) word ws
  if 0 < length - 64 * full then
    rangeEdge source (sourceFrom + 64 * full) dest (destFrom + 64 * full) 0
      (length - 64 * full) head
  else .ok dest

/-- `range_op`. -/
def rangeOp (source : FixedBitSet) (sourceFrom : Nat) (dest : FixedBitSet)
    (destFrom length : Nat) (head : U64 → U64 → Nat → Nat → U64)
    (word : U64 → U64 → U64) : Call FixedBitSet := do
  .guardOk (sourceFrom + length ≤ source.numBits ∧ destFrom + length ≤ dest.numBits)
  if length = 0 then .ok dest
  else if destFrom % 64 ≠ 0 then
    let n := min (64 - destFrom % 64) length
    let dest ← rangeEdge source sourceFrom dest destFrom (destFrom % 64) n head
    if length - n = 0 then .ok dest
    else
      rangeAligned source (sourceFrom + n) dest (destFrom + n) (length - n) head word
  else rangeAligned source sourceFrom dest destFrom length head word

/-- `or_range`. -/
def orRange (source : FixedBitSet) (sourceFrom : Nat) (dest : FixedBitSet)
    (destFrom length : Nat) : Call FixedBitSet :=
  rangeOp source sourceFrom dest destFrom length
    (fun d bits sh _ => d ||| bits <<< sh) (· ||| ·)

/-- The word of `n` ones in `and_range`. -/
def span (n : Nat) : U64 := if n = 64 then BitVec.allOnes 64 else oneBit n - 1#64

/-- `and_range`. -/
def andRange (source : FixedBitSet) (sourceFrom : Nat) (dest : FixedBitSet)
    (destFrom length : Nat) : Call FixedBitSet :=
  rangeOp source sourceFrom dest destFrom length
    (fun d bits sh n => d &&& ((bits <<< sh) ||| ~~~(span n <<< sh))) (· &&& ·)

/-! ## Scanning, masks and growth -/

/-- `next_set_bit`. -/
def nextSetBit (s : FixedBitSet) (index : Nat) : Call (Option Nat) :=
  if s.numBits ≤ index then .ok none
  else do
    let word ← .expect s.words[index / 64]?
    .ok (nextSetFrom (index / 64) (word &&& fromBit (index % 64))
      (s.words.drop (index / 64 + 1)))

/-- `next_set_bit_in_words`. -/
def nextSetBitInWords (words : List U64) (start : Nat) : Option Nat :=
  words[start / 64]?.bind fun word =>
    nextSetFrom (start / 64) (word &&& fromBit (start % 64)) (words.drop (start / 64 + 1))

/-- The loop of `next_clear_bit_in_words`, from the word `word` of index `i`. -/
def nextClearFrom (i : Nat) (word : U64) : List U64 → Option Nat
  | [] => if word ≠ BitVec.allOnes 64 then some (64 * i + (~~~word).ctz.toNat) else none
  | w :: rest =>
    if word ≠ BitVec.allOnes 64 then some (64 * i + (~~~word).ctz.toNat)
    else nextClearFrom (i + 1) w rest

/-- `next_clear_bit_in_words`. -/
def nextClearBitInWords (words : List U64) (start : Nat) : Call Nat :=
  if 64 * words.length ≤ start then .ok (64 * words.length)
  else do
    let word ← .expect words[start / 64]?
    .ok ((nextClearFrom (start / 64) (word ||| ~~~fromBit (start % 64))
      (words.drop (start / 64 + 1))).getD (64 * words.length))

/-- `next_set_bit_in_range`. -/
def nextSetBitInRange (s : FixedBitSet) (start upperBound : Nat) : Call (Option Nat) :=
  let ub := min upperBound s.numBits
  if ub ≤ start then .ok none
  else do
    let words ← .expect (slice s.words 0 (bits2words ub))
    .ok ((nextSetBitInWords words start).filter (· < ub))

/-- `next_clear_bit_in_range`. -/
def nextClearBitInRange (s : FixedBitSet) (start upperBound : Nat) : Call (Option Nat) :=
  if min upperBound s.numBits ≤ start then .ok none
  else do
    let ub := min upperBound s.numBits
    let words ← .expect (slice s.words 0 (bits2words ub))
    let b ← nextClearBitInWords words start
    .ok (if b < ub then some b else none)

/-- The loop of `prev_set_bit`, over the words below `i`. -/
def prevSetFrom (words : List U64) : Nat → Call (Option Nat)
  | 0 => .ok none
  | i + 1 => do
    let word ← .expect words[i]?
    if word ≠ 0#64 then .ok (some (64 * i + 63 - word.clz.toNat)) else prevSetFrom words i

/-- `prev_set_bit`. -/
def prevSetBit (s : FixedBitSet) (index : Nat) : Call (Option Nat) := do
  .guardOk (index < s.numBits)
  let i := index / 64
  let sub := index % 64
  let word ← .expect s.words[i]?
  let word := word <<< (63 - sub)
  if word ≠ 0#64 then .ok (some (64 * i + sub - word.clz.toNat)) else prevSetFrom s.words i

/-- `cardinality`. -/
def cardinality (s : FixedBitSet) : Nat := popcount s.words

/-- `cardinality_range`. -/
def cardinalityRange (s : FixedBitSet) (lo hi : Nat) : Call Nat := do
  .guardOk (lo ≤ hi ∧ hi ≤ s.numBits)
  if lo = hi then .ok 0
  else do
    let fw := lo / 64
    let tw := (hi - 1) / 64
    let (startmask, endmask) := rangeMasks lo hi
    let first ← .expect s.words[fw]?
    if fw = tw then .ok (countOnes (first &&& startmask &&& endmask))
    else do
      let between ← .expect (slice s.words (fw + 1) tw)
      let last ← .expect s.words[tw]?
      .ok (countOnes (first &&& startmask) + popcount between + countOnes (last &&& endmask))

/-! ## Walks over the set bits -/

/-- A word of `for_each_word_in_range`, without the bits outside the range. -/
def wordInRange (lo hi w : Nat) (word : U64) : U64 :=
  let bits := if w = lo / 64 then word &&& fromBit (lo % 64) else word
  if w = (hi - 1) / 64 then bits &&& (BitVec.allOnes 64 >>> (63 - (hi - 1) % 64)) else bits

/-- The loop of `for_each_word_in_range` over the words of the given indices.
The closure says whether to go on. -/
def forEachWord {σ : Type} (s : FixedBitSet) (lo hi : Nat) (f : Nat → U64 → σ → Call (Bool × σ)) :
    List Nat → σ → Call σ
  | [], st => .ok st
  | w :: ws, st => do
    let word ← .expect s.words[w]?
    let (more, st) ← f w (wordInRange lo hi w word) st
    if more then forEachWord s lo hi f ws st else .ok st

/-- `for_each_word_in_range`. -/
def forEachWordInRange {σ : Type} (s : FixedBitSet) (lo hi : Nat)
    (f : Nat → U64 → σ → Call (Bool × σ)) (st : σ) : Call σ :=
  if hi ≤ lo then .ok st
  else forEachWord s lo hi f (List.range' (lo / 64) ((hi - 1) / 64 + 1 - lo / 64)) st

/-- `base + i as i32`, for `i` a `usize`.  An overflow of the sum is a panic. -/
def addBase (base : BitVec 32) (i : Nat) : Call (BitVec 32) := do
  .guardOk (BitVec.saddOverflow base (BitVec.ofNat 32 i) = false)
  .ok (base + BitVec.ofNat 32 i)

/-- One turn of the loop of `into_array`: the bits, `n` and the array. -/
def intoArrayPass (base : BitVec 32) (w : Nat) (st : U64 × Nat × List (BitVec 32)) :
    Call ((U64 × Nat × List (BitVec 32)) ⊕ (Nat × List (BitVec 32))) :=
  let (bits, n, array) := st
  if bits ≠ 0#64 ∧ n < array.length then do
    let v ← addBase base ((w <<< 6) ||| bits.ctz.toNat)
    .ok (.inl (bits &&& (bits - 1#64), n + 1, array.set n v))
  else .ok (.inr (n, array))

/-- `into_array`: the count and the array after it. -/
def intoArray (s : FixedBitSet) (lo hi : Nat) (base : BitVec 32) (array : List (BitVec 32)) :
    Call (Nat × List (BitVec 32)) := do
  .guardOk (lo ≤ hi ∧ hi ≤ s.numBits)
  forEachWordInRange s lo hi (fun w bits (n, array) => do
    let (n, array) ← iterate (intoArrayPass base w) 65 (bits, n, array)
    .ok (decide (n < array.length), n, array)) (0, array)

/-- One turn of the loop of `for_each_in_range`: the bits, and the values that
the consumer was given. -/
def forEachPass (base : BitVec 32) (w : Nat) (st : U64 × List (BitVec 32)) :
    Call ((U64 × List (BitVec 32)) ⊕ List (BitVec 32)) :=
  let (bits, given) := st
  if bits ≠ 0#64 then do
    let v ← addBase base ((w <<< 6) ||| bits.ctz.toNat)
    .ok (.inl (bits &&& (bits - 1#64), given ++ [v]))
  else .ok (.inr given)

/-- `for_each_in_range`: the values that the consumer is given, in order. -/
def forEachInRange (s : FixedBitSet) (lo hi : Nat) (base : BitVec 32) :
    Call (List (BitVec 32)) := do
  .guardOk (lo ≤ hi ∧ hi ≤ s.numBits)
  forEachWordInRange s lo hi (fun w bits given => do
    let given ← iterate (forEachPass base w) 65 (bits, given)
    .ok (true, given)) []

/-- `apply_mask` on `bitSet`: the set after the call, and its result. -/
def applyMask (s bitSet : FixedBitSet) (offset : Nat) :
    Call (FixedBitSet × Except String Unit) := do
  let length := min bitSet.numBits (s.numBits - offset)
  let bitSet ← (if offset ≤ s.numBits then andRange s offset bitSet 0 length
    else .ok bitSet : Call FixedBitSet)
  if length < bitSet.numBits then
    let beyond ← bitSet.nextSetBit length
    if beyond.isSome then
      .ok (bitSet, .error "Some bits are set beyond the end of live docs")
    else .ok (bitSet, .ok ())
  else .ok (bitSet, .ok ())

/-- `words.resize(n, 0)` to at least `numWords + 1` words, grown by 1/8. -/
def oversizeWords (words : List U64) (numWords : Nat) : Call (List U64) :=
  if words.length ≤ numWords then
    let n := numWords + 1 + max ((numWords + 1) / 8) 3
    if 8 * n ≤ maxAlloc then
      .ok (words ++ List.replicate (n - words.length) 0#64)
    else .panic
  else .ok words

/-- `ensure_capacity_internal`. -/
def ensureCapacityInternal (bits : FixedBitSet) (desiredBit : Nat)
    (preserve : Bool) : Call FixedBitSet :=
  if desiredBit < bits.numBits then
    .ok (if preserve then bits else bits.clearAll)
  else do
    let words ← oversizeWords (if preserve then bits.words else [])
      (bits2words desiredBit)
    .ok ⟨words, 64 * words.length, (bits2words_mul _).symm⟩

/-- `ensure_capacity`. -/
def ensureCapacity (bits : FixedBitSet) (desiredBit : Nat) : Call FixedBitSet :=
  ensureCapacityInternal bits desiredBit true

/-- `ensure_capacity_and_clear`. -/
def ensureCapacityAndClear (bits : FixedBitSet) (desiredBit : Nat) :
    Call FixedBitSet :=
  ensureCapacityInternal bits desiredBit false

/-- `eq`. -/
instance : BEq FixedBitSet where
  beq s t := s.numBits == t.numBits && s.words == t.words

end FixedBitSet

end LuceneRust.Util
