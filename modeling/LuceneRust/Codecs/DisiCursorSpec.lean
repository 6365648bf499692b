import LuceneRust.Codecs.DisiCursor
import LuceneRust.Codecs.IndexedDisiBulk
import Mathlib.Tactic.Linarith
import Mathlib.Tactic.Ring

/-!
# Where a `DisiCursor` stands

A cursor over a region stands before the first block, or at a block.  `Loaded`
is what the header of the block left in it, and `Positioned` is what the
lookups in the block left: how far it has read.

* `readBlockHeader_loaded`: reading a header loads the block.
* `sparseAdvanceExact_spec`, `denseAdvanceExact_spec`: a lookup in a block.
* `advanceExactWithinBlock_spec`: the three encodings give the same answers.
-/

namespace LuceneRust.Codecs.IndexedDisi

open RustSem WordTape
open Store (Result)

/-! ## Places in a region -/

/-- The documents before the block of index `k` in the list. -/
def rank (bs : List Block) (k : Nat) : Nat := ((bs.take k).flatMap Block.docs).length

/-- The bytes before it. -/
def offset (power : U8) (bs : List Block) (k : Nat) : Nat :=
  ((bs.take k).flatMap (Block.bytes power)).length

section

variable {power : U8} {bs : List Block} {k : Nat} {b : Block}

theorem rank_succ (h : bs[k]? = some b) : rank bs (k + 1) = rank bs k + b.lows.length := by
  obtain ⟨hk, rfl⟩ := List.getElem?_eq_some_iff.1 h
  rw [rank, rank, List.take_succ_eq_append_getElem hk, List.flatMap_append, List.length_append,
    List.flatMap_singleton, Block.docs_length]

theorem offset_succ (h : bs[k]? = some b) :
    offset power bs (k + 1) = offset power bs k + (b.bytes power).length := by
  obtain ⟨hk, rfl⟩ := List.getElem?_eq_some_iff.1 h
  rw [offset, offset, List.take_succ_eq_append_getElem hk, List.flatMap_append,
    List.length_append, List.flatMap_singleton]

/-- The bytes of a region around a block. -/
theorem bytes_at (power : U8) (h : bs[k]? = some b) (tail : List U8) :
    ∃ pre post, bs.flatMap (Block.bytes power) ++ tail = pre ++ (b.bytes power ++ post) ∧
      pre.length = offset power bs k := by
  obtain ⟨hk, rfl⟩ := List.getElem?_eq_some_iff.1 h
  refine ⟨(bs.take k).flatMap (Block.bytes power),
    (bs.drop (k + 1)).flatMap (Block.bytes power) ++ tail, ?_, rfl⟩
  rw [← List.append_assoc, ← List.append_assoc]
  refine congrArg (· ++ tail) ?_
  rw [List.append_assoc, ← List.flatMap_cons, ← List.drop_eq_getElem_cons hk,
    ← List.flatMap_append, List.take_append_drop]

end

/-! ## Encodings -/

namespace Block

variable {power : U8} (b : Block)

/-- The encoding that the writer chooses. -/
def method : Method :=
  if b.lows.length ≤ maxArrayLength then .sparse
  else if b.lows.length = blockSize then .all
  else .dense

/-- The bytes of a SPARSE block. -/
def lowBytes : List U8 := b.lows.flatMap fun l => toLeBytes 2 (BitVec.ofNat 16 l)

/-- The bytes of the bit set of a DENSE block. -/
def bitmap : List U8 := b.words.flatMap (toLeBytes 8)

/-- What each of the encodings means. -/
theorem method_cases (power : U8) :
    (b.method = .sparse ∧ b.lows.length ≤ maxArrayLength ∧ b.payload power = b.lowBytes) ∨
    (b.method = .all ∧ ¬b.lows.length ≤ maxArrayLength ∧ b.lows.length = blockSize ∧
      b.payload power = []) ∨
    (b.method = .dense ∧ ¬b.lows.length ≤ maxArrayLength ∧ b.lows.length ≠ blockSize ∧
      b.payload power = rankPart power b.words ++ b.bitmap) := by
  rw [method, payload]
  by_cases hsparse : b.lows.length ≤ maxArrayLength
  · rw [if_pos hsparse, if_pos hsparse]
    exact Or.inl ⟨rfl, hsparse, rfl⟩
  · rw [if_neg hsparse, if_neg hsparse]
    by_cases hall : b.lows.length = blockSize
    · rw [if_pos hall, if_pos hall]
      exact Or.inr (Or.inl ⟨rfl, hsparse, hall, rfl⟩)
    · rw [if_neg hall, if_neg hall]
      exact Or.inr (Or.inr ⟨rfl, hsparse, hall, rfl⟩)

theorem lowBytes_length : b.lowBytes.length = b.lows.length * 2 := by
  rw [lowBytes, List.length_flatMap, List.map_congr_left fun l _ => toLeBytes_length 2 _,
    List.map_const', List.sum_replicate_nat]

theorem bitmap_length : b.bitmap.length = 1024 * 8 := by
  rw [bitmap, List.length_flatMap, List.map_congr_left fun w _ => toLeBytes_length 8 w,
    List.map_const', List.sum_replicate_nat, b.words_length]

end Block

/-! ## Loading a block -/

/-- Two cursors that differ in how far they have read their block only. -/
structure DisiCursor.Same (c c' : DisiCursor) : Prop where
  data : c'.data = c.data
  jumpTable : c'.jumpTable = c.jumpTable
  jumpTableEntryCount : c'.jumpTableEntryCount = c.jumpTableEntryCount
  denseRankPower : c'.denseRankPower = c.denseRankPower
  block : c'.block = c.block
  blockEnd : c'.blockEnd = c.blockEnd
  method : c'.method = c.method
  nextBlockIndex : c'.nextBlockIndex = c.nextBlockIndex
  doc : c'.doc = c.doc
  sparseDocs : c'.sparseDocs = c.sparseDocs
  denseRank : c'.denseRank = c.denseRank
  denseBitmap : c'.denseBitmap = c.denseBitmap
  denseOrigoIndex : c'.denseOrigoIndex = c.denseOrigoIndex
  gap : c'.gap = c.gap

/-- Two cursors over one region, with one last document. -/
structure DisiCursor.Moved (c c' : DisiCursor) : Prop where
  data : c'.data = c.data
  jumpTable : c'.jumpTable = c.jumpTable
  jumpTableEntryCount : c'.jumpTableEntryCount = c.jumpTableEntryCount
  denseRankPower : c'.denseRankPower = c.denseRankPower
  doc : c'.doc = c.doc

/-- What the header of a block leaves.  The block is the one of index `k` in
the list. -/
structure Loaded (power : U8) (bs : List Block) (k : Nat) (b : Block) (c : DisiCursor) : Prop where
  get : bs[k]? = some b
  block : c.block = ((65536 * b.index : Nat) : Int)
  blockEnd : c.blockEnd = offset power bs (k + 1)
  next : c.nextBlockIndex = (rank bs (k + 1) : Int) - 1
  method : c.method = b.method
  sparse : b.method = .sparse → c.sparseDocs = b.lowBytes
  all : b.method = .all → c.gap = ((65536 * b.index : Nat) : Int) - rank bs k
  dense : b.method = .dense → c.denseRank = rankPart power b.words ∧ c.denseBitmap = b.bitmap ∧
    c.denseOrigoIndex = (rank bs k : Int)

/-- How far a SPARSE block is read: `seen` are the low halves up to the last
document asked for. -/
structure SparseAt (b : Block) (r : Nat) (doc : Int) (c : DisiCursor) (seen rest : List Nat) :
    Prop where
  split : b.lows = seen ++ rest
  seen_le : ∀ l ∈ seen, ((65536 * b.index + l : Nat) : Int) ≤ doc
  rest_gt : ∀ l ∈ rest, doc < ((65536 * b.index + l : Nat) : Int)
  pos : c.sparsePos = seen.length * 2
  index : c.index = (r : Int) - 1 + seen.length
  look : c.nextExistDocInBlock < 0 ∨
    ((65536 * b.index : Nat) : Int) + c.nextExistDocInBlock ≤ doc ∨
    (c.existsDoc = false ∧ ∃ l more, rest = l :: more ∧ c.nextExistDocInBlock = (l : Int))
  found : ((65536 * b.index : Nat) : Int) ≤ doc →
    (c.existsDoc = true ↔ ∃ l ∈ b.lows, ((65536 * b.index + l : Nat) : Int) = doc)

/-- How far a DENSE block is read: the first `w` words are counted. -/
structure DenseAt (b : Block) (r : Nat) (doc : Int) (c : DisiCursor) (w : Nat) : Prop where
  le : w ≤ 1024
  index : c.wordIndex = (w : Int) - 1
  ones : c.numberOfOnes = (r : Int) + popcount (b.words.take w)
  word : 0 < w → c.word = b.word (w - 1)
  behind : 0 < w → ((65536 * b.index + 64 * (w - 1) : Nat) : Int) ≤ doc

/-- How far the block is read, when the last document asked for is `doc`. -/
structure Positioned (b : Block) (r : Nat) (doc : Int) (c : DisiCursor) : Prop where
  sparse : b.method = .sparse → ∃ seen rest, SparseAt b r doc c seen rest
  dense : b.method = .dense → ∃ w, DenseAt b r doc c w

section

variable {power : U8} {bs : List Block} {k r : Nat} {b : Block} {c c' : DisiCursor} {doc : Int}

theorem DisiCursor.Same.trans {c'' : DisiCursor} (h : c.Same c') (h' : c'.Same c'') :
    c.Same c'' where
  data := h'.data.trans h.data
  jumpTable := h'.jumpTable.trans h.jumpTable
  jumpTableEntryCount := h'.jumpTableEntryCount.trans h.jumpTableEntryCount
  denseRankPower := h'.denseRankPower.trans h.denseRankPower
  block := h'.block.trans h.block
  blockEnd := h'.blockEnd.trans h.blockEnd
  method := h'.method.trans h.method
  nextBlockIndex := h'.nextBlockIndex.trans h.nextBlockIndex
  doc := h'.doc.trans h.doc
  sparseDocs := h'.sparseDocs.trans h.sparseDocs
  denseRank := h'.denseRank.trans h.denseRank
  denseBitmap := h'.denseBitmap.trans h.denseBitmap
  denseOrigoIndex := h'.denseOrigoIndex.trans h.denseOrigoIndex
  gap := h'.gap.trans h.gap

theorem DisiCursor.Same.moved (h : c.Same c') : c.Moved c' :=
  ⟨h.data, h.jumpTable, h.jumpTableEntryCount, h.denseRankPower, h.doc⟩

theorem Loaded.same (h : Loaded power bs k b c) (hs : c.Same c') : Loaded power bs k b c' where
  get := h.get
  block := hs.block.trans h.block
  blockEnd := hs.blockEnd.trans h.blockEnd
  next := hs.nextBlockIndex.trans h.next
  method := hs.method.trans h.method
  sparse := fun hm => hs.sparseDocs.trans (h.sparse hm)
  all := fun hm => hs.gap.trans (h.all hm)
  dense := fun hm => ⟨hs.denseRank.trans (h.dense hm).1, hs.denseBitmap.trans (h.dense hm).2.1,
    hs.denseOrigoIndex.trans (h.dense hm).2.2⟩

theorem Loaded.setDoc (h : Loaded power bs k b c) (doc : Int) :
    Loaded power bs k b { c with doc := doc } :=
  ⟨h.get, h.block, h.blockEnd, h.next, h.method, h.sparse, h.all, h.dense⟩

theorem Positioned.setDoc (h : Positioned b r doc c) (doc' : Int) :
    Positioned b r doc { c with doc := doc' } where
  sparse := fun hm => by
    obtain ⟨seen, rest, hat⟩ := h.sparse hm
    exact ⟨seen, rest, hat.split, hat.seen_le, hat.rest_gt, hat.pos, hat.index, hat.look, hat.found⟩
  dense := fun hm => by
    obtain ⟨w, hat⟩ := h.dense hm
    exact ⟨w, hat.le, hat.index, hat.ones, hat.word, hat.behind⟩

/-- Nothing more is read for a document before the block. -/
theorem Positioned.before (h : Positioned b r doc c) {doc' : Int} (hle : doc ≤ doc')
    (hlt : doc' < ((65536 * b.index : Nat) : Int)) : Positioned b r doc' c where
  sparse := fun hm => by
    obtain ⟨seen, rest, hat⟩ := h.sparse hm
    refine ⟨seen, rest, hat.split, fun l hl => (hat.seen_le l hl).trans hle, fun l _ => by omega,
      hat.pos, hat.index, ?_, fun hge => by omega⟩
    rcases hat.look with hneg | hle' | hlook
    · exact Or.inl hneg
    · exact Or.inr (Or.inl (hle'.trans hle))
    · exact Or.inr (Or.inr hlook)
  dense := fun hm => by
    obtain ⟨w, hat⟩ := h.dense hm
    exact ⟨w, hat.le, hat.index, hat.ones, hat.word, fun hw => (hat.behind hw).trans hle⟩

/-- A block that is not read yet. -/
theorem Positioned.fresh (hm : b.method = .sparse → c.sparsePos = 0 ∧ c.index = (r : Int) - 1 ∧
      c.nextExistDocInBlock = -1)
    (hd : b.method = .dense → c.wordIndex = -1 ∧ c.numberOfOnes = (r : Int))
    (hlt : doc < ((65536 * b.index : Nat) : Int)) : Positioned b r doc c where
  sparse := fun h => by
    obtain ⟨hpos, hindex, hnext⟩ := hm h
    exact ⟨[], b.lows, rfl, List.forall_mem_nil _, fun l _ => by omega, hpos,
      by rw [hindex, List.length_nil]; omega, Or.inl (by omega), fun hge => by omega⟩
  dense := fun h => by
    obtain ⟨hindex, hones⟩ := hd h
    refine ⟨0, Nat.zero_le _, hindex, ?_, fun h => absurd h (Nat.lt_irrefl 0),
      fun h => absurd h (Nat.lt_irrefl 0)⟩
    rw [hones, List.take_zero, popcount, List.map_nil, List.sum_nil, Int.natCast_zero,
      Int.add_zero]

end

/-- A little-endian read of bytes that are there. -/
theorem readU16At_eq {pre post : List U8} (v : U16) {pos : Nat} (hpos : pre.length = pos) :
    readU16At (pre ++ (toLeBytes 2 v ++ post)) pos = .ok v := by
  have hslice := slice_append_right pre (toLeBytes 2 v) post
  rw [hpos, toLeBytes_length] at hslice
  rw [readU16At, hslice, okOr_some, ok_bind, fromLeBytes_toLeBytes 2 v (by decide)]

theorem sliceData_eq {c : DisiCursor} {pre mid post : List U8} (h : c.data = pre ++ (mid ++ post))
    {lo hi : Nat} (hlo : pre.length = lo) (hhi : lo + mid.length = hi) :
    c.sliceData lo hi = .ok mid := by
  have hslice := slice_append_right pre mid post
  rw [hlo, hhi] at hslice
  rw [DisiCursor.sliceData, h, hslice, okOr_some]

/-- The first document of a block, as the cursor reads it. -/
theorem toInt_block (b : Block) :
    ((BitVec.ofNat 16 b.index).setWidth 32 <<< 16).toInt = ((65536 * b.index : Nat) : Int) := by
  have hlt := b.index_lt
  have hnat : ((BitVec.ofNat 16 b.index).setWidth 32 <<< 16).toNat = 65536 * b.index := by
    rw [BitVec.toNat_shiftLeft, BitVec.toNat_setWidth, BitVec.toNat_ofNat, Nat.shiftLeft_eq]
    omega
  rw [BitVec.toInt_eq_toNat_of_lt (by rw [hnat]; omega), hnat]

/-- The payload of a block, behind its header. -/
theorem readPayload_loaded {power : U8} (hpower : Legal power) {bs : List Block} {k : Nat}
    {b : Block} {c : DisiCursor} {pre post : List U8} (hget : bs[k]? = some b)
    (hdata : c.data = pre ++ (b.payload power ++ post)) (hp : c.denseRankPower = power)
    (hpre : pre.length = offset power bs k + 4) (hblock : c.block = ((65536 * b.index : Nat) : Int))
    (hindex : c.index = (rank bs k : Int) - 1)
    (hnext : c.nextBlockIndex = (rank bs (k + 1) : Int) - 1) :
    ∃ c', c.readPayload (offset power bs k + 4) b.lows.length = .ok c' ∧ Loaded power bs k b c' ∧
      (∀ doc, doc < ((65536 * b.index : Nat) : Int) → Positioned b (rank bs k) doc c') ∧
      c.Moved c' := by
  have hoffset : offset power bs (k + 1) = offset power bs k + 4 + (b.payload power).length := by
    rw [offset_succ hget, Block.bytes, List.length_append, List.length_append, toLeBytes_length,
      toLeBytes_length]
    omega
  rw [DisiCursor.readPayload]
  obtain ⟨hm, hlen, hpay⟩ | ⟨hm, hlen, hall, hpay⟩ | ⟨hm, hlen, hall, hpay⟩ := b.method_cases power
  · rw [hpay] at hdata hoffset
    rw [b.lowBytes_length] at hoffset
    have hslice := sliceData_eq hdata hpre (congrArg _ b.lowBytes_length)
    rw [if_pos hlen]
    dsimp only
    rw [hslice, ok_bind]
    refine ⟨_, rfl, ⟨hget, hblock, hoffset.symm, hnext, hm.symm, fun _ => rfl, fun h => ?_,
      fun h => ?_⟩, fun doc => Positioned.fresh (fun _ => ⟨rfl, hindex, rfl⟩) fun h => ?_,
      rfl, rfl, rfl, rfl, rfl⟩
    all_goals rw [hm] at h; cases h
  · rw [hpay, List.length_nil, Nat.add_zero] at hoffset
    rw [if_neg hlen, if_pos hall]
    refine ⟨_, rfl, ⟨hget, hblock, hoffset.symm, hnext, hm.symm, fun h => ?_, fun _ => ?_,
      fun h => ?_⟩, fun doc => Positioned.fresh (fun h => ?_) fun h => ?_, rfl, rfl, rfl, rfl, rfl⟩
    case refine_2 =>
      dsimp only
      rw [hblock, hindex]
      omega
    all_goals rw [hm] at h; cases h
  · rw [hpay, List.append_assoc] at hdata
    rw [hpay, List.length_append, b.bitmap_length] at hoffset
    have hrank := sliceData_eq hdata hpre rfl
    rw [← List.append_assoc pre] at hdata
    have hbits := sliceData_eq hdata (List.length_append.trans (congrArg (· + _) hpre))
      (congrArg _ b.bitmap_length)
    rw [if_neg hlen, if_neg hall, hp, denseRankBytes_eq hpower b.words, ok_bind]
    dsimp only
    rw [hrank, ok_bind, denseBlockLongs, hbits, ok_bind]
    rw [← Nat.add_assoc] at hoffset
    have horigo : c.index + 1 = (rank bs k : Int) := by
      rw [hindex]
      omega
    refine ⟨_, rfl, ⟨hget, hblock, hoffset.symm, hnext, hm.symm, fun h => ?_, fun h => ?_,
      fun _ => by dsimp only; exact ⟨rfl, rfl, horigo⟩⟩, fun doc hdoc => ?_,
      ⟨rfl, rfl, rfl, hp.symm, rfl⟩⟩
    · rw [hm] at h
      cases h
    · rw [hm] at h
      cases h
    · refine Positioned.fresh (fun h => ?_) (fun _ => ⟨rfl, horigo⟩) hdoc
      rw [hm] at h
      cases h

/-- Reading the header of a block loads it. -/
theorem readBlockHeader_loaded {power : U8} (hpower : Legal power) {bs : List Block} {k : Nat}
    {b : Block} {c : DisiCursor} {tail : List U8} (hget : bs[k]? = some b)
    (hdata : c.data = bs.flatMap (Block.bytes power) ++ tail) (hp : c.denseRankPower = power)
    (hend : c.blockEnd = offset power bs k) (hnext : c.nextBlockIndex = (rank bs k : Int) - 1)
    (hsmall : rank bs (k + 1) ≤ 2 ^ 32) :
    ∃ c', c.readBlockHeader = .ok c' ∧ Loaded power bs k b c' ∧
      (∀ doc, doc < ((65536 * b.index : Nat) : Int) → Positioned b (rank bs k) doc c') ∧
      c.Moved c' := by
  obtain ⟨pre, post, hbytes, hpre⟩ := bytes_at power hget tail
  have hsucc := rank_succ hget
  rw [hbytes, Block.bytes, List.append_assoc, List.append_assoc] at hdata
  have hblock : readU16At c.data c.blockEnd = .ok (BitVec.ofNat 16 b.index) := by
    rw [hdata, hend]
    exact readU16At_eq _ hpre
  have hpre' : (pre ++ toLeBytes 2 (BitVec.ofNat 16 b.index)).length = offset power bs k + 2 := by
    rw [List.length_append, hpre, toLeBytes_length]
  rw [← List.append_assoc pre] at hdata
  have hcount : readU16At c.data (c.blockEnd + 2) =
      .ok (BitVec.ofNat 16 (b.lows.length - 1)) := by
    rw [hdata, hend]
    exact readU16At_eq _ hpre'
  have hpre'' : (pre ++ toLeBytes 2 (BitVec.ofNat 16 b.index) ++
      toLeBytes 2 (BitVec.ofNat 16 (b.lows.length - 1))).length = offset power bs k + 4 := by
    rw [List.length_append, hpre', toLeBytes_length]
  rw [← List.append_assoc (pre ++ _)] at hdata
  rw [DisiCursor.readBlockHeader]
  dsimp only
  rw [hblock, ok_bind, hcount, ok_bind, b.toNat_count, toInt_block,
    hnext, if_neg (by omega), hend]
  obtain ⟨c', hread, hloaded, hpos, hmoved⟩ := readPayload_loaded hpower
    (c := { c with
      block := ((65536 * b.index : Nat) : Int), blockEnd := offset power bs k,
      index := (rank bs k : Int) - 1,
      nextBlockIndex := (rank bs k : Int) - 1 + b.lows.length })
    hget hdata hp hpre'' rfl rfl (by dsimp only; omega)
  exact ⟨c', hread, hloaded, hpos, hmoved.data, hmoved.jumpTable, hmoved.jumpTableEntryCount,
    hmoved.denseRankPower, hmoved.doc⟩

/-! ## SPARSE blocks -/

section

variable {b : Block} {r low : Nat} {seen rest : List Nat} {c : DisiCursor}

/-- The low half at the place of the next read. -/
theorem slice_lowBytes {l : Nat} {more : List Nat} (hsplit : b.lows = seen ++ l :: more) :
    slice b.lowBytes (seen.length * 2) (seen.length * 2 + 2) =
      some (toLeBytes 2 (BitVec.ofNat 16 l)) := by
  have hslice := slice_flatMap (n := 2) (fun l : Nat => toLeBytes_length 2 (BitVec.ofNat 16 l))
    (l := b.lows) (Nat.le_succ seen.length) (by
      rw [hsplit, List.length_append, List.length_cons]
      omega)
  rw [hsplit, List.drop_left, Nat.succ_sub (Nat.le_refl _), Nat.sub_self, List.take_succ_cons,
    List.take_zero, List.flatMap_singleton, Nat.succ_mul] at hslice
  rw [Block.lowBytes, hsplit]
  exact hslice

theorem toNat_low {l : Nat} (hl : l < 65536) :
    (fromLeBytes 16 (toLeBytes 2 (BitVec.ofNat 16 l))).toNat = l := by
  rw [fromLeBytes_toLeBytes 2 _ (by decide), BitVec.toNat_ofNat, Nat.mod_eq_of_lt hl]

/-- The documents before the one asked for. -/
theorem countP_split (hsplit : b.lows = seen ++ rest) (hseen : ∀ l ∈ seen, l < low)
    (hrest : ∀ l ∈ rest, low ≤ l) : b.lows.countP (· < low) = seen.length := by
  rw [hsplit, List.countP_append, List.countP_eq_length.2 fun l hl => decide_eq_true (hseen l hl),
    List.countP_eq_zero.2 fun l hl => by
      rw [decide_eq_true_iff]
      exact Nat.not_lt.2 (hrest l hl), Nat.add_zero]

/-- The loop of a lookup in a SPARSE block. -/
theorem iterate_sparsePass (hlow : low < 65536) : ∀ (rest seen : List Nat) (c : DisiCursor)
    (fuel : Nat), b.lows = seen ++ rest → (∀ l ∈ seen, l < low) →
    c.sparseDocs = b.lowBytes → c.sparsePos = seen.length * 2 →
    c.index = (r : Int) - 1 + seen.length → c.nextBlockIndex = (r : Int) + b.lows.length - 1 →
    (c.nextExistDocInBlock < 0 ∨ c.nextExistDocInBlock ≤ (low : Int) ∨
      ∃ l more, rest = l :: more ∧ c.nextExistDocInBlock = (l : Int)) →
    rest.length < fuel →
    ∃ c', iterate (DisiCursor.sparsePass (low : Int)) fuel c = .ok (decide (low ∈ b.lows), c') ∧
      c.Same c' ∧
      (∃ seen rest, SparseAt b r ((65536 * b.index + low : Nat) : Int) c' seen rest) ∧
      (low ∈ b.lows → c'.index = (r : Int) + (b.lows.countP (· < low) : Nat))
  | [], seen, c, fuel + 1, hsplit, hseen, hdocs, hpos, hindex, hnext, hlook, _ => by
    rw [List.append_nil] at hsplit
    have hnot : low ∉ b.lows := by
      intro hmem
      rw [hsplit] at hmem
      exact Nat.lt_irrefl low (hseen low hmem)
    have hend : ¬(c.index < c.nextBlockIndex ∧ c.sparsePos + 2 ≤ c.sparseDocs.length) := by
      rw [hindex, hnext, hsplit]
      omega
    have hpass : DisiCursor.sparsePass (low : Int) c =
        .ok (.inr (false, { c with existsDoc := false })) := if_neg hend
    refine ⟨{ c with existsDoc := false }, ?_, ⟨rfl, rfl, rfl, rfl, rfl, rfl, rfl, rfl, rfl, rfl,
      rfl, rfl, rfl, rfl⟩, ⟨seen, [], ?_⟩, fun h => absurd h hnot⟩
    · rw [iterate_leave hpass, decide_eq_false hnot]
    · refine ⟨hsplit.trans (List.append_nil _).symm, fun l hl => ?_, List.forall_mem_nil _, hpos,
        hindex, ?_, fun _ => ⟨fun h => (nomatch h), fun h => ?_⟩⟩
      · have hlt := hseen l hl
        omega
      · rcases hlook with h | h | ⟨l, more, hnil, -⟩
        · exact Or.inl h
        · refine Or.inr (Or.inl ?_)
          dsimp only
          omega
        · cases hnil
      · obtain ⟨l, hl, heq⟩ := h
        exact absurd (show low ∈ b.lows by rwa [show low = l by omega]) hnot
  | l :: more, seen, c, fuel + 1, hsplit, hseen, hdocs, hpos, hindex, hnext, hlook, hfuel => by
    have hmem : l ∈ b.lows := by
      rw [hsplit]
      exact List.mem_append_right _ (List.mem_cons_self ..)
    have hl := b.low_lt l hmem
    have hsorted := b.sorted
    rw [hsplit] at hsorted
    have hmore : ∀ m ∈ more, l < m :=
      (List.pairwise_cons.1 (List.pairwise_append.1 hsorted).2.1).1
    have hlen : b.lows.length = seen.length + (more.length + 1) := by
      rw [hsplit, List.length_append, List.length_cons]
    have hroom : c.index < c.nextBlockIndex ∧ c.sparsePos + 2 ≤ c.sparseDocs.length := by
      rw [hindex, hnext, hpos, hdocs, b.lowBytes_length, hlen]
      omega
    have hslice : slice c.sparseDocs c.sparsePos (c.sparsePos + 2) =
        some (toLeBytes 2 (BitVec.ofNat 16 l)) := by
      rw [hdocs, hpos]
      exact slice_lowBytes hsplit
    rw [List.length_cons] at hfuel
    have hpass : DisiCursor.sparsePass (low : Int) c =
        if low ≤ l then
          if l ≠ low then
            .ok (.inr (false, { c with
              sparsePos := c.sparsePos + 2 - 2, index := c.index + 1 - 1,
              nextExistDocInBlock := (l : Int), existsDoc := false }))
          else .ok (.inr (true, { c with
            sparsePos := c.sparsePos + 2, index := c.index + 1,
            nextExistDocInBlock := (l : Int), existsDoc := true }))
        else .ok (.inl { c with sparsePos := c.sparsePos + 2, index := c.index + 1 }) := by
      rw [DisiCursor.sparsePass, if_pos hroom, hslice, expect_some, ok_bind,
        toNat_low hl]
      simp only [Int.ofNat_le, ne_eq, Int.natCast_inj]
    rcases Nat.lt_trichotomy l low with hlt | rfl | hgt
    · -- the document is before the one asked for
      rw [if_neg (by omega)] at hpass
      obtain ⟨c', hloop, hsame, hat, hfound⟩ := iterate_sparsePass hlow more (seen ++ [l])
        { c with sparsePos := c.sparsePos + 2, index := c.index + 1 } fuel
        (by rw [hsplit, List.append_assoc, List.singleton_append])
        (fun m hm => by
          rcases List.mem_append.1 hm with hm | hm
          · exact hseen m hm
          · rwa [List.mem_singleton.1 hm])
        hdocs (by dsimp only; rw [hpos, List.length_append, List.length_singleton]; omega)
        (by dsimp only; rw [hindex, List.length_append, List.length_singleton]; omega) hnext
        (by
          rcases hlook with h | h | ⟨l', more', hcons, h⟩
          · exact Or.inl h
          · exact Or.inr (Or.inl h)
          · rw [(List.cons.inj hcons).1] at hlt
            exact Or.inr (Or.inl (by dsimp only; omega)))
        (by omega)
      exact ⟨c', by rw [iterate_continue hpass, hloop], ⟨hsame.data, hsame.jumpTable,
        hsame.jumpTableEntryCount, hsame.denseRankPower, hsame.block, hsame.blockEnd, hsame.method,
        hsame.nextBlockIndex, hsame.doc, hsame.sparseDocs, hsame.denseRank, hsame.denseBitmap,
        hsame.denseOrigoIndex, hsame.gap⟩, hat, hfound⟩
    · -- it is there
      rw [if_pos (Nat.le_refl l), if_neg (not_not_intro rfl)] at hpass
      rw [decide_eq_true hmem]
      refine ⟨_, iterate_leave hpass, ⟨rfl, rfl, rfl, rfl, rfl, rfl, rfl, rfl, rfl, rfl, rfl, rfl,
        rfl, rfl⟩, ⟨seen ++ [l], more, ?_⟩, fun _ => ?_⟩
      · refine ⟨by rw [hsplit, List.append_assoc, List.singleton_append], fun m hm => ?_,
          fun m hm => ?_, by dsimp only; rw [hpos, List.length_append, List.length_singleton]; omega,
          by dsimp only; rw [hindex, List.length_append, List.length_singleton]; omega,
          Or.inr (Or.inl (by dsimp only; omega)), fun _ => ⟨fun _ => ⟨l, hmem, rfl⟩, fun _ => rfl⟩⟩
        · rcases List.mem_append.1 hm with hm | hm
          · have hlt := hseen m hm
            omega
          · rw [List.mem_singleton.1 hm]
        · have hlt := hmore m hm
          omega
      · rw [countP_split hsplit hseen fun m hm => by
          rcases List.mem_cons.1 hm with rfl | hm
          · exact Nat.le_refl _
          · exact (hmore m hm).le]
        dsimp only
        omega
    · -- the document is behind it, and is read again
      rw [if_pos hgt.le, if_pos hgt.ne'] at hpass
      have hnot : low ∉ b.lows := by
        intro hin
        rw [hsplit] at hin
        rcases List.mem_append.1 hin with hin | hin
        · exact Nat.lt_irrefl low (hseen low hin)
        · rcases List.mem_cons.1 hin with rfl | hin
          · exact Nat.lt_irrefl _ hgt
          · exact absurd (hmore low hin) (by omega)
      rw [decide_eq_false hnot]
      refine ⟨_, iterate_leave hpass, ⟨rfl, rfl, rfl, rfl, rfl, rfl, rfl, rfl, rfl, rfl, rfl, rfl,
        rfl, rfl⟩, ⟨seen, l :: more, ?_⟩, fun h => absurd h hnot⟩
      refine ⟨hsplit, fun m hm => ?_, fun m hm => ?_, by dsimp only; omega, by dsimp only; omega,
        Or.inr (Or.inr ⟨rfl, l, more, rfl, rfl⟩), fun _ => ⟨fun h => (nomatch h), fun h => ?_⟩⟩
      · have hlt := hseen m hm
        omega
      · rcases List.mem_cons.1 hm with rfl | hm
        · omega
        · have hlt := hmore m hm
          omega
      · obtain ⟨m, hm, heq⟩ := h
        exact absurd (show low ∈ b.lows by rwa [show low = m by omega]) hnot

/-- A lookup in a SPARSE block. -/
theorem sparseAdvanceExact_spec {power : U8} {bs : List Block} {k : Nat}
    (hloaded : Loaded power bs k b c) (hm : b.method = .sparse)
    (hat : SparseAt b (rank bs k) c.doc c seen rest) (hlow : low < 65536)
    (hle : c.doc ≤ ((65536 * b.index + low : Nat) : Int)) :
    ∃ c', c.sparseAdvanceExact ((65536 * b.index + low : Nat) : Int) =
        .ok (decide (low ∈ b.lows), c') ∧ c.Same c' ∧
      (∃ seen rest, SparseAt b (rank bs k) ((65536 * b.index + low : Nat) : Int) c' seen rest) ∧
      (low ∈ b.lows → c'.index = (rank bs k : Int) + (b.lows.countP (· < low) : Nat)) := by
  have hmod : ((65536 * b.index + low : Nat) : Int) % 65536 = (low : Int) := by omega
  have hsame : c.Same c := ⟨rfl, rfl, rfl, rfl, rfl, rfl, rfl, rfl, rfl, rfl, rfl, rfl, rfl, rfl⟩
  rw [DisiCursor.sparseAdvanceExact, hmod]
  by_cases hnextlow : (low : Int) < c.nextExistDocInBlock
  · -- an earlier lookup has read past the document
    obtain ⟨hexists, l, more, hrest, hnext⟩ : c.existsDoc = false ∧ ∃ l more, rest = l :: more ∧
        c.nextExistDocInBlock = (l : Int) := by
      rcases hat.look with h | h | h
      · omega
      · omega
      · exact h
    have hgt : ∀ m ∈ rest, low < m := by
      intro m hm
      have hsorted := b.sorted
      rw [hat.split, hrest] at hsorted
      rw [hrest] at hm
      rcases List.mem_cons.1 hm with rfl | hm
      · omega
      · have hlt := (List.pairwise_cons.1 (List.pairwise_append.1 hsorted).2.1).1 m hm
        omega
    have hnot : low ∉ b.lows := by
      intro hmem
      have hsplit := hmem
      rw [hat.split] at hsplit
      rcases List.mem_append.1 hsplit with hin | hin
      · have hdoc := hat.seen_le low hin
        have htrue := (hat.found (by omega)).2 ⟨low, hmem, by omega⟩
        rw [hexists] at htrue
        cases htrue
      · exact Nat.lt_irrefl low (hgt low hin)
    rw [if_pos hnextlow, guardOk_pos hexists, ok_bind, decide_eq_false hnot]
    refine ⟨c, rfl, hsame, ⟨seen, rest, hat.split, fun m hm => (hat.seen_le m hm).trans hle,
      fun m hm => ?_, hat.pos, hat.index, Or.inr (Or.inr ⟨hexists, l, more, hrest, hnext⟩),
      fun _ => ⟨fun h => ?_, fun h => ?_⟩⟩, fun h => absurd h hnot⟩
    · have hlt := hgt m hm
      omega
    · rw [hexists] at h
      cases h
    · obtain ⟨m, hm, heq⟩ := h
      exact absurd (show low ∈ b.lows by rwa [show low = m by omega]) hnot
  · rw [if_neg hnextlow]
    by_cases hdoc : ((65536 * b.index + low : Nat) : Int) = c.doc
    · -- the document was asked for just before
      have hfound : c.existsDoc = true ↔ low ∈ b.lows := by
        rw [hat.found (by omega)]
        constructor
        · rintro ⟨l, hl, heq⟩
          rwa [show low = l by omega]
        · exact fun h => ⟨low, h, hdoc⟩
      have hanswer : c.existsDoc = decide (low ∈ b.lows) := by
        rw [Bool.eq_iff_iff, hfound, decide_eq_true_iff]
      rw [if_pos hdoc, hanswer, hdoc]
      refine ⟨c, rfl, hsame, ⟨seen, rest, hat⟩, fun hmem => ?_⟩
      obtain ⟨before, behind, hsplit⟩ := List.append_of_mem hmem
      have hsorted := b.sorted
      rw [hsplit, List.pairwise_append, List.pairwise_cons] at hsorted
      have hlt : b.lows.countP (· < low) = before.length :=
        countP_split hsplit (fun l hl => hsorted.2.2 l hl low (List.mem_cons_self ..))
          (List.forall_mem_cons.2 ⟨Nat.le_refl _, fun l hl => (hsorted.2.1.1 l hl).le⟩)
      have hle : b.lows.countP (· < low + 1) = (before ++ [low]).length :=
        countP_split (by rw [hsplit, List.append_assoc, List.singleton_append])
          (fun l hl => by
            rcases List.mem_append.1 hl with hl | hl
            · exact Nat.lt_succ_of_lt (hsorted.2.2 l hl low (List.mem_cons_self ..))
            · rw [List.mem_singleton.1 hl]
              exact Nat.lt_succ_self _)
          fun l hl => hsorted.2.1.1 l hl
      have hseen : b.lows.countP (· < low + 1) = seen.length :=
        countP_split hat.split
          (fun l hl => by
            have hl' := hat.seen_le l hl
            omega)
          fun l hl => by
            have hl' := hat.rest_gt l hl
            omega
      rw [List.length_append, List.length_singleton] at hle
      rw [hat.index, hlt]
      omega
    · rw [if_neg hdoc]
      refine iterate_sparsePass hlow rest seen c _ hat.split (fun l hl => ?_)
        (hloaded.sparse hm) hat.pos hat.index ?_ ?_ ?_
      · have hl' := hat.seen_le l hl
        omega
      · rw [hloaded.next, rank_succ hloaded.get]
        omega
      · rcases hat.look with h | h | ⟨-, h⟩
        · exact Or.inl h
        · exact Or.inr (Or.inl (by omega))
        · exact Or.inr (Or.inr h)
      · rw [hloaded.sparse hm, b.lowBytes_length, hat.split, List.length_append]
        omega

end

/-! ## DENSE blocks -/

/-- The bits of a word from one on are the documents from it to the end of the
word. -/
theorem countOnes_shift (b : Block) {i s : Nat} (hs : s < 64) :
    countOnes (b.word i >>> s) =
      b.lows.countP fun l => 64 * i + s ≤ l ∧ l < 64 * (i + 1) := by
  rw [countOnes_eq, List.countP_eq_length_filter, List.countP_eq_length_filter,
    ← List.length_map fun j : Nat => 64 * i + s + j]
  refine congrArg List.length (List.Pairwise.eq_of_mem_iff (r := (· < ·))
    (List.pairwise_map.2 ((List.pairwise_lt_range.filter _).imp fun h => Nat.add_lt_add_left h _))
    (b.sorted.filter _) fun l => ?_)
  rw [List.mem_map, List.mem_filter, decide_eq_true_iff]
  have hbit : ∀ j, s + j < 64 → (b.word i >>> s).getLsbD j = decide (64 * i + s + j ∈ b.lows) :=
    fun j hj => by rw [BitVec.getLsbD_ushiftRight, b.getLsbD_word hj, Nat.add_assoc]
  constructor
  · rintro ⟨j, hj, rfl⟩
    rw [List.mem_filter] at hj
    have hin : s + j < 64 := by
      by_contra hge
      rw [BitVec.getLsbD_ushiftRight, BitVec.getLsbD_of_ge _ _ (Nat.le_of_not_lt hge)] at hj
      cases hj.2
    rw [hbit j hin, decide_eq_true_iff] at hj
    exact ⟨hj.2, by omega, by omega⟩
  · rintro ⟨hmem, hge, hlt⟩
    obtain ⟨j, rfl⟩ := Nat.exists_eq_add_of_le hge
    refine ⟨j, List.mem_filter.2 ⟨List.mem_range.2 (by omega), ?_⟩, rfl⟩
    rw [hbit j (by omega)]
    exact decide_eq_true hmem

/-- The rank of a document, from the words up to its own. -/
theorem popcount_sub (b : Block) {low : Nat} (hlow : low < 65536) :
    popcount (b.words.take (low / 64 + 1)) =
      b.lows.countP (· < low) + countOnes (b.word (low / 64) >>> (low % 64)) := by
  rw [b.popcount_take (by omega), countOnes_shift b (Nat.mod_lt low (by decide)), Nat.div_add_mod]
  induction b.lows with
  | nil => rfl
  | cons l ls ih =>
    rw [List.countP_cons, List.countP_cons, List.countP_cons, ih]
    simp only [decide_eq_true_eq]
    split <;> split <;> split <;> omega

/-- The words that a lookup runs over. -/
theorem foldl_denseWord : ∀ (ws : List U64) (word : U64) (ones : Nat),
    (ws.map (toLeBytes 8)).foldl DisiCursor.denseWord (word, ones) =
      ((ws.getLast?).getD word, ones + popcount ws)
  | [], _, _ => rfl
  | w :: ws, word, ones => by
    rw [List.map_cons, List.foldl_cons, DisiCursor.denseWord, fromLeBytes_toLeBytes 8 w (by decide)]
    dsimp only
    rw [foldl_denseWord ws, List.getLast?_cons, Option.getD_some, popcount, popcount, List.map_cons,
      List.sum_cons, Nat.add_assoc]

theorem popcount_take_add (ws : List U64) (m n : Nat) :
    popcount (ws.take (m + n)) = popcount (ws.take m) + popcount ((ws.drop m).take n) := by
  rw [List.take_add, popcount, popcount, popcount, List.map_append, List.sum_append]

theorem popcount_le (ws : List U64) : popcount ws ≤ 64 * ws.length := by
  rw [popcount_eq]
  exact List.countP_le_length.trans (List.length_range ..).le

section

variable {power : U8} {bs : List Block} {k r low : Nat} {b : Block} {c : DisiCursor}

/-- The two bytes of an entry of a rank table. -/
theorem rank_bytes {ones : Nat} (h : ones < 65536) :
    ((BitVec.ofNat 8 (ones >>> 8)).toNat <<< 8) ||| (BitVec.ofNat 8 (ones &&& 0xFF)).toNat =
      ones := by
  have hlow : ones &&& 0xFF = ones % 256 := Nat.and_two_pow_sub_one_eq_mod ones 8
  rw [hlow, BitVec.toNat_ofNat, BitVec.toNat_ofNat, Nat.shiftRight_eq_div_pow,
    ← Nat.shiftLeft_add_eq_or_of_lt (by omega), Nat.shiftLeft_eq]
  omega

theorem slice_bitmap (b : Block) {lo hi : Nat} (h : lo ≤ hi) (hhi : hi ≤ 1024) :
    slice b.bitmap (lo * 8) (hi * 8) =
      some (((b.words.drop lo).take (hi - lo)).flatMap (toLeBytes 8)) := by
  have hlen : hi ≤ b.words.length := by rw [b.words_length]; exact hhi
  rw [Block.bitmap]
  exact slice_flatMap (fun w => toLeBytes_length 8 w) h hlen

theorem slice_bitmap_word (b : Block) {a : Nat} (ha : a < 1024) :
    slice b.bitmap (a * 8) (a * 8 + 8) = some (toLeBytes 8 (b.word a)) := by
  have hslice := slice_bitmap b (Nat.le_succ a) ha
  have hget : b.words[a]? = some (b.word a) := b.words_getElem? ha
  obtain ⟨hlt, hword⟩ := List.getElem?_eq_some_iff.1 hget
  rw [Nat.succ_mul, Nat.succ_sub (Nat.le_refl _), Nat.sub_self, List.drop_eq_getElem_cons hlt,
    hword, List.take_succ_cons, List.take_zero, List.flatMap_singleton] at hslice
  exact hslice

/-- The jump of the rank table lands on a word that is not past the
document. -/
theorem rankSkip_spec (hpower : 7 ≤ power.toNat ∧ power.toNat ≤ 15) (hp : c.denseRankPower = power)
    (hrank : c.denseRank = rankTable power.toNat b.words) (hbits : c.denseBitmap = b.bitmap)
    (horigo : c.denseOrigoIndex = (r : Int)) (hlow : low < 65536) :
    ∃ c', c.rankSkip low = .ok c' ∧ c.Same c' ∧ c'.index = c.index ∧
      ∃ w, DenseAt b r ((65536 * b.index + low : Nat) : Int) c' w := by
  obtain ⟨e, he, he'⟩ := rankTable_size (q := power.toNat - 7) (by omega)
  have hpow : 2 ^ power.toNat = 128 * 2 ^ (power.toNat - 7) := by
    rw [show (128 : Nat) = 2 ^ 7 from rfl, ← Nat.pow_add]
    exact congrArg _ (by omega)
  have hpow' : 2 ^ (power.toNat - 6) = 2 * 2 ^ (power.toNat - 7) := by
    rw [show power.toNat - 6 = power.toNat - 7 + 1 by omega, Nat.pow_succ']
  have hpos : 0 < 2 ^ (power.toNat - 7) := Nat.two_pow_pos _
  obtain ⟨i, hi⟩ : ∃ i, i = low / (128 * 2 ^ (power.toNat - 7)) := ⟨_, rfl⟩
  have hle : i * (128 * 2 ^ (power.toNat - 7)) ≤ low := hi ▸ Nat.div_mul_le_self _ _
  have hlt : i < e := by
    rw [hi, Nat.div_lt_iff_lt_mul (by omega)]
    nlinarith
  obtain ⟨a, ha⟩ : ∃ a, a = i * (2 * 2 ^ (power.toNat - 7)) := ⟨_, rfl⟩
  have hword : a * 64 ≤ low := by
    rwa [ha, show i * (2 * 2 ^ (power.toNat - 7)) * 64 = i * (128 * 2 ^ (power.toNat - 7)) by ring]
  have hindex : low >>> c.denseRankPower.toNat = i := by
    rw [hp, Nat.shiftRight_eq_div_pow, hpow, hi]
  have haligned : (i <<< c.denseRankPower.toNat) >>> 6 = a := by
    rw [hp, Nat.shiftLeft_eq, Nat.shiftRight_eq_div_pow, hpow, ha,
      show i * (128 * 2 ^ (power.toNat - 7)) = i * (2 * 2 ^ (power.toNat - 7)) * 2 ^ 6 by ring,
      Nat.mul_div_cancel _ (by decide)]
  have hentry : ∀ j, j < 2 * e → c.denseRank[j]? = some (rankByte power.toNat b.words j) :=
    fun j hj => by
      rw [hrank, rankTable, List.getElem?_map,
        List.getElem?_range (by rw [denseBlockLongs, he]; exact hj)]
      rfl
  have hshift : i <<< (power.toNat - 6) = a := by
    rw [Nat.shiftLeft_eq, hpow', ha]
  have hslice : slice c.denseBitmap (a * 8) (a * 8 + 8) = some (toLeBytes 8 (b.word a)) := by
    rw [hbits]
    exact slice_bitmap_word b (by omega)
  have hones : popcount (b.words.take a) < 65536 := by
    have hle := popcount_le (b.words.take a)
    rw [List.length_take, b.words_length] at hle
    omega
  rw [DisiCursor.rankSkip, hindex, haligned, Nat.shiftLeft_eq i 1,
    show i * 2 ^ 1 = 2 * i by omega]
  dsimp only
  rw [hentry _ (by omega), hentry _ (by omega), expect_some, ok_bind,
    expect_some, ok_bind, rankByte, rankByte, if_pos (by omega),
    if_neg (by omega), show 2 * i / 2 = i by omega, show (2 * i + 1) / 2 = i by omega, hshift,
    rank_bytes hones, hslice, expect_some, ok_bind,
    fromLeBytes_toLeBytes 8 _ (by decide)]
  refine ⟨_, rfl, ⟨rfl, rfl, rfl, rfl, rfl, rfl, rfl, rfl, rfl, rfl, rfl, rfl, rfl, rfl⟩, rfl,
    a + 1, by omega, by dsimp only; omega, ?_, fun _ => rfl, fun _ => by omega⟩
  have hsucc : popcount (b.words.take (a + 1)) =
      popcount (b.words.take a) + countOnes (b.word a) := by
    obtain ⟨hlt, hget⟩ := List.getElem?_eq_some_iff.1 (b.words_getElem? (i := a) (by omega))
    rw [popcount_take_succ hlt, hget]
  dsimp only
  rw [horigo, hsucc]
  omega

/-- The words up to the one of the document are counted. -/
theorem denseRun_spec {w : Nat} (hat : DenseAt b r ((65536 * b.index + low : Nat) : Int) c w)
    (hbits : c.denseBitmap = b.bitmap) (hlow : low < 65536) :
    ∃ c', c.denseRun (low / 64) = .ok c' ∧ c.Same c' ∧ c'.word = b.word (low / 64) ∧
      c'.numberOfOnes = (r : Int) + popcount (b.words.take (low / 64 + 1)) := by
  have hindex : (c.wordIndex + 1).toNat = w := by
    rw [hat.index]
    omega
  rw [DisiCursor.denseRun, hindex]
  split
  next hlt =>
    have hle : w ≤ low / 64 + 1 := by omega
    have hslice : slice c.denseBitmap (w * 8) ((low / 64 + 1) * 8) =
        some (((b.words.drop w).take (low / 64 + 1 - w)).flatMap (toLeBytes 8)) := by
      rw [hbits]
      exact slice_bitmap b hle (by omega)
    rw [hslice, expect_some, ok_bind, chunks_flatMap (by decide) fun v => toLeBytes_length 8 v, foldl_denseWord]
    have hlast : ((b.words.drop w).take (low / 64 + 1 - w)).getLast? = some (b.word (low / 64)) := by
      have hlen : ((b.words.drop w).take (low / 64 + 1 - w)).length = low / 64 + 1 - w := by
        rw [List.length_take, List.length_drop, b.words_length]
        omega
      rw [List.getLast?_eq_getElem?, hlen, List.getElem?_take_of_lt (by omega), List.getElem?_drop,
        show w + (low / 64 + 1 - w - 1) = low / 64 by omega]
      exact b.words_getElem? (by omega)
    refine ⟨_, rfl, ⟨rfl, rfl, rfl, rfl, rfl, rfl, rfl, rfl, rfl, rfl, rfl, rfl, rfl, rfl⟩, ?_, ?_⟩
    · dsimp only
      rw [hlast, Option.getD_some]
    · have hsum := popcount_take_add b.words w (low / 64 + 1 - w)
      rw [Nat.add_sub_cancel' hle] at hsum
      dsimp only
      rw [hat.ones, hsum]
      omega
  next hge =>
    have hw : w = low / 64 + 1 := by
      have hbehind := hat.behind (by omega)
      omega
    refine ⟨c, rfl, ⟨rfl, rfl, rfl, rfl, rfl, rfl, rfl, rfl, rfl, rfl, rfl, rfl, rfl, rfl⟩, ?_, ?_⟩
    · rw [hat.word (by omega), hw, Nat.add_sub_cancel]
    · rw [hat.ones, hw]

/-- A lookup in a DENSE block. -/
theorem denseAdvanceExact_spec (hpower : Legal power) (hp : c.denseRankPower = power)
    (hloaded : Loaded power bs k b c) (hm : b.method = .dense) {w : Nat}
    (hat : DenseAt b (rank bs k) c.doc c w) (hlow : low < 65536)
    (hle : c.doc ≤ ((65536 * b.index + low : Nat) : Int)) :
    ∃ c', c.denseAdvanceExact ((65536 * b.index + low : Nat) : Int) =
        .ok (decide (low ∈ b.lows), c') ∧ c.Same c' ∧
      (∃ w, DenseAt b (rank bs k) ((65536 * b.index + low : Nat) : Int) c' w) ∧
      c'.index = (rank bs k : Int) + (b.lows.countP (· < low) : Nat) := by
  obtain ⟨hrank, hbits, horigo⟩ := hloaded.dense hm
  have hmod : (((65536 * b.index + low : Nat) : Int) % 65536).toNat = low := by omega
  have hword : low >>> 6 = low / 64 := Nat.shiftRight_eq_div_pow low 6
  have hjump : ∃ c', c.denseJump low = .ok c' ∧ c.Same c' ∧
      ∃ w, DenseAt b (rank bs k) ((65536 * b.index + low : Nat) : Int) c' w := by
    rw [DisiCursor.denseJump]
    split
    next hskip =>
      have hno : power ≠ noRank := by
        rintro rfl
        rw [rankPart, if_pos rfl] at hrank
        exact hskip.1 hrank
      rw [rankPart, if_neg hno] at hrank
      obtain ⟨c', hskip, hsame, -, hat'⟩ := rankSkip_spec (hpower.resolve_left hno) hp hrank hbits
        horigo hlow
      exact ⟨c', hskip, hsame, hat'⟩
    next =>
      exact ⟨c, rfl, ⟨rfl, rfl, rfl, rfl, rfl, rfl, rfl, rfl, rfl, rfl, rfl, rfl, rfl, rfl⟩, w,
        hat.le, hat.index, hat.ones, hat.word, fun hw => (hat.behind hw).trans hle⟩
  obtain ⟨c₁, hjump, hsame₁, w₁, hat₁⟩ := hjump
  obtain ⟨c₂, hrun, hsame₂, hlast, hones⟩ := denseRun_spec hat₁ (hsame₁.denseBitmap.trans hbits) hlow
  have hsame := hsame₁.trans hsame₂
  have hbit : low &&& 63 = low % 64 := Nat.and_two_pow_sub_one_eq_mod low 6
  have hanswer : (b.word (low / 64) >>> (low % 64)).getLsbD 0 = decide (low ∈ b.lows) := by
    rw [BitVec.getLsbD_ushiftRight, Nat.add_zero, b.getLsbD_word (Nat.mod_lt low (by decide)),
      Nat.div_add_mod]
  have hrankAt := popcount_sub b hlow
  rw [DisiCursor.denseAdvanceExact, hmod, hword]
  dsimp only
  rw [hjump, ok_bind, hrun, ok_bind, hlast, hbit, hanswer]
  refine ⟨_, rfl, ⟨hsame.data, hsame.jumpTable, hsame.jumpTableEntryCount, hsame.denseRankPower,
    hsame.block, hsame.blockEnd, hsame.method, hsame.nextBlockIndex, hsame.doc, hsame.sparseDocs,
    hsame.denseRank, hsame.denseBitmap, hsame.denseOrigoIndex, hsame.gap⟩,
    ⟨low / 64 + 1, by omega, by dsimp only; omega, hones, fun _ => ?_, fun _ => by omega⟩, ?_⟩
  · dsimp only
    rw [Nat.add_sub_cancel]
  · dsimp only
    rw [hones, hrankAt]
    omega

end

/-! ## The three encodings -/

/-- The rank of a document in an ALL block. -/
theorem countP_of_full {b : Block} (h : b.lows.length = 65536) {low : Nat} (hlow : low < 65536) :
    b.lows.countP (· < low) = low := by
  have hsplit : b.lows = List.range low ++ (List.range (65536 - low)).map (low + ·) := by
    rw [← List.range_add, b.lows_of_full h, Nat.add_sub_cancel' hlow.le]
  have hcount : b.lows.countP (· < low) = (List.range low).length :=
    countP_split hsplit (fun l hl => List.mem_range.1 hl) fun l hl => by
      obtain ⟨i, -, rfl⟩ := List.mem_map.1 hl
      exact Nat.le_add_right low i
  rwa [List.length_range] at hcount

/-- A lookup in a block: the answer, and where it leaves the cursor. -/
theorem advanceExactWithinBlock_spec {power : U8} {bs : List Block} {k low : Nat} {b : Block}
    {c : DisiCursor} (hpower : Legal power) (hp : c.denseRankPower = power)
    (hloaded : Loaded power bs k b c) (hat : Positioned b (rank bs k) c.doc c)
    (hlow : low < 65536) (hle : c.doc ≤ ((65536 * b.index + low : Nat) : Int)) :
    ∃ c', c.advanceExactWithinBlock ((65536 * b.index + low : Nat) : Int) =
        .ok (decide (low ∈ b.lows), c') ∧ c.Same c' ∧
      Positioned b (rank bs k) ((65536 * b.index + low : Nat) : Int) c' ∧
      (low ∈ b.lows ∨ b.method ≠ .sparse →
        c'.index = (rank bs k : Int) + (b.lows.countP (· < low) : Nat)) := by
  rw [DisiCursor.advanceExactWithinBlock, hloaded.method]
  rcases b.method_cases power with ⟨hm, -, -⟩ | ⟨hm, -, hall, -⟩ | ⟨hm, -, -, -⟩
  · obtain ⟨seen, rest, hsparse⟩ := hat.sparse hm
    obtain ⟨c', hlook, hsame, hat', hindex⟩ :=
      sparseAdvanceExact_spec hloaded hm hsparse hlow hle
    rw [hm]
    refine ⟨c', hlook, hsame, ⟨fun _ => hat', fun h => ?_⟩, fun h => hindex ?_⟩
    · rw [hm] at h
      cases h
    · exact h.resolve_right (not_not_intro rfl)
  · rw [blockSize] at hall
    rw [hm, decide_eq_true (b.mem_of_full hall hlow)]
    refine ⟨_, rfl, ⟨rfl, rfl, rfl, rfl, rfl, rfl, (hloaded.method.trans hm).symm, rfl, rfl, rfl,
      rfl, rfl, rfl, rfl⟩, ⟨fun h => ?_, fun h => ?_⟩, fun _ => ?_⟩
    · rw [hm] at h
      cases h
    · rw [hm] at h
      cases h
    · dsimp only
      rw [hloaded.all hm, countP_of_full hall hlow]
      omega
  · obtain ⟨w, hdense⟩ := hat.dense hm
    obtain ⟨c', hlook, hsame, hat', hindex⟩ :=
      denseAdvanceExact_spec hpower hp hloaded hm hdense hlow hle
    rw [hm]
    refine ⟨c', hlook, hsame, ⟨fun h => ?_, fun _ => hat'⟩, fun _ => hindex⟩
    rw [hm] at h
    cases h

end LuceneRust.Codecs.IndexedDisi
