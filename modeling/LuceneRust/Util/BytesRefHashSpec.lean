import LuceneRust.Lib.LinearProbe
import LuceneRust.Util.BytesRefPoolSpec

/-!
# What a `BytesRefHash` holds

`Holds h l` says that the hash holds the strings of `l`, with their places in
`l` as ids.

* `Slots` is the table: a slot packs an id and the high bits of its hash, and
  read as ids the slots are a `LinearProbe.Table`.
* `findHash_spec` is the probe loop, and `rehash_spec` the second table.
* `add_spec` is one `add`.  That a table of `2 ^ 31` slots never fills up is
  `Terms.length_lt`: so many different strings do not fit into the pool.
-/

namespace LuceneRust.Util

open RustSem LinearProbe
open Packed (Call)

namespace BytesRefHash

variable {h : BytesRefHash} {ids starts hashes : List U32} {l : List (List U8)} {k : Nat}

/-! ## Slots -/

theorem getLsbD_maskOf (k : Nat) {i : Nat} (hi : i < 32) :
    (maskOf (2 ^ k)).getLsbD i = decide (i < k) := by
  rw [maskOf, BitVec.getLsbD_ofNat, Nat.testBit_two_pow_sub_one, decide_eq_true hi,
    Bool.true_and]

theorem toNat_and_maskOf (hk : k ≤ 32) (code : U32) :
    (code &&& maskOf (2 ^ k)).toNat = code.toNat % 2 ^ k := by
  have hle : 2 ^ k ≤ 2 ^ 32 := Nat.pow_le_pow_right (by decide) hk
  have hpos : 0 < 2 ^ k := Nat.two_pow_pos k
  rw [BitVec.toNat_and, maskOf, BitVec.toNat_ofNat, Nat.mod_eq_of_lt (by omega),
    Nat.and_two_pow_sub_one_eq_mod]

/-- A number below `2 ^ 31` as an `i32`, and back. -/
theorem asUsize_of_lt {x : U32} (hx : x.toNat < 2 ^ 31) : asUsize x = x.toNat := by
  have hmsb : x.msb = false := by
    rw [BitVec.msb_eq_decide]
    simpa using hx
  rw [asUsize, BitVec.signExtend_eq_setWidth_of_msb_false hmsb, BitVec.toNat_setWidth,
    Nat.mod_eq_of_lt (by omega)]

theorem asUsize_and_maskOf (hk : k ≤ 31) (code : U32) :
    asUsize (code &&& maskOf (2 ^ k)) = code.toNat % 2 ^ k := by
  have hlt : code.toNat % 2 ^ k < 2 ^ 31 :=
    (Nat.mod_lt _ (Nat.two_pow_pos k)).trans_le (Nat.pow_le_pow_right (by decide) hk)
  rw [asUsize_of_lt (by rw [toNat_and_maskOf (by omega)]; exact hlt),
    toNat_and_maskOf (by omega)]

/-- The steps of a probe, in the low bits of the code. -/
theorem toNat_add_mod (hk : k ≤ 32) (code : U32) (e : Nat) :
    (code + BitVec.ofNat 32 e).toNat % 2 ^ k = (code.toNat + e) % 2 ^ k := by
  have hdvd : 2 ^ k ∣ 2 ^ 32 := Nat.pow_dvd_pow 2 hk
  rw [BitVec.toNat_add, BitVec.toNat_ofNat, Nat.mod_mod_of_dvd _ hdvd, Nat.add_mod,
    Nat.mod_mod_of_dvd _ hdvd, ← Nat.add_mod]

/-- The slot of an id. -/
def entry (k id : Nat) (hash : U32) : U32 :=
  BitVec.ofNat 32 id ||| (hash &&& ~~~maskOf (2 ^ k))

theorem entry_and_mask {id : Nat} (hid : id < 2 ^ k) (hash : U32) :
    entry k id hash &&& maskOf (2 ^ k) = BitVec.ofNat 32 id := by
  apply BitVec.eq_of_getLsbD_eq
  intro i hi
  rw [entry, BitVec.getLsbD_and, BitVec.getLsbD_or, BitVec.getLsbD_and, BitVec.getLsbD_not,
    getLsbD_maskOf k hi, BitVec.getLsbD_ofNat, decide_eq_true hi]
  by_cases hik : i < k
  · simp [hik]
  · have : id.testBit i = false :=
      Nat.testBit_lt_two_pow (hid.trans_le (Nat.pow_le_pow_right (by decide) (by omega)))
    simp [hik, this]

theorem entry_and_not_mask {id : Nat} (hid : id < 2 ^ k) (hash : U32) :
    entry k id hash &&& ~~~maskOf (2 ^ k) = hash &&& ~~~maskOf (2 ^ k) := by
  apply BitVec.eq_of_getLsbD_eq
  intro i hi
  rw [entry, BitVec.getLsbD_and, BitVec.getLsbD_or, BitVec.getLsbD_and, BitVec.getLsbD_not,
    getLsbD_maskOf k hi, BitVec.getLsbD_ofNat, decide_eq_true hi]
  by_cases hik : i < k
  · simp [hik]
  · have : id.testBit i = false :=
      Nat.testBit_lt_two_pow (hid.trans_le (Nat.pow_le_pow_right (by decide) (by omega)))
    simp [hik, this]

/-- An id of the lower half of the table leaves a bit clear: the slot is not
taken for a free one. -/
theorem entry_ne_freeSlot (hk : 1 ≤ k) (hk' : k ≤ 32) {id : Nat} (hid : id < 2 ^ (k - 1))
    (hash : U32) : entry k id hash ≠ freeSlot := by
  intro heq
  have hbit := congrArg (fun x : U32 => x.getLsbD (k - 1)) heq
  simp only [entry, freeSlot] at hbit
  rw [BitVec.getLsbD_or, BitVec.getLsbD_and, BitVec.getLsbD_not,
    getLsbD_maskOf k (by omega), BitVec.getLsbD_ofNat, Nat.testBit_lt_two_pow hid,
    BitVec.getLsbD_allOnes] at hbit
  simp [show k - 1 < k by omega, show k - 1 < 32 by omega] at hbit

/-- The id in a slot. -/
def slotAt (k : Nat) (ids : List U32) (p : Nat) : Option Nat :=
  if ids.getD p freeSlot = freeSlot then none
  else some (ids.getD p freeSlot &&& maskOf (2 ^ k)).toNat

/-- The table of `2 ^ k` slots holds the ids of `hashes`. -/
structure Slots (k : Nat) (ids hashes : List U32) : Prop where
  size : ids.length = 2 ^ k
  few : hashes.length ≤ 2 ^ (k - 1)
  table : Table (2 ^ k) (slotAt k ids) (fun i => (hashes.getD i 0).toNat) hashes.length
  entries : ∀ p < 2 ^ k, ∀ i, slotAt k ids p = some i →
    ids.getD p freeSlot = entry k i (hashes.getD i 0)

theorem slots_free (k : Nat) : Slots k (freeTable (2 ^ k)) [] := by
  have hslot : ∀ p, slotAt k (freeTable (2 ^ k)) p = none := by
    intro p
    rw [slotAt, if_pos]
    rw [freeTable, List.getD_eq_getElem?_getD, List.getElem?_replicate]
    split <;> rfl
  refine ⟨List.length_replicate, Nat.zero_le _, ?_, fun p _ i hi => ?_⟩
  · rw [funext hslot]
    exact Table.empty _ _
  · rw [hslot] at hi
    cases hi

namespace Slots

variable {p i : Nat}

theorem getElem? (hs : Slots k ids hashes) (hp : p < 2 ^ k) :
    ids[p]? = some (ids.getD p freeSlot) := by
  rw [List.getD_eq_getElem?_getD, List.getElem?_eq_getElem (by rw [hs.size]; exact hp)]
  rfl

theorem free (hs : slotAt k ids p = none) : ids.getD p freeSlot = freeSlot := by
  by_contra hne
  rw [slotAt, if_neg hne] at hs
  cases hs

theorem not_free (hs : slotAt k ids p = some i) : ids.getD p freeSlot ≠ freeSlot := by
  intro heq
  rw [slotAt, if_pos heq] at hs
  cases hs

/-- The next id goes into a free slot at the end of its walk. -/
theorem insert (hs : Slots k ids hashes) (hk : 1 ≤ k) (hk' : k ≤ 32) {hash : U32} {d : Nat}
    (hroom : hashes.length < 2 ^ (k - 1)) (hd : d < 2 ^ k)
    (hfree : slotAt k ids ((hash.toNat + d) % 2 ^ k) = none)
    (hbefore : ∀ e < d, slotAt k ids ((hash.toNat + e) % 2 ^ k) ≠ none) :
    Slots k (ids.set ((hash.toNat + d) % 2 ^ k) (entry k hashes.length hash))
      (hashes ++ [hash]) := by
  have hpos : (hash.toNat + d) % 2 ^ k < 2 ^ k := Nat.mod_lt _ (Nat.two_pow_pos k)
  have hhalf : 2 ^ (k - 1) ≤ 2 ^ k := Nat.pow_le_pow_right (by decide) (by omega)
  have hlen : (hash.toNat + d) % 2 ^ k < ids.length := by rw [hs.size]; exact hpos
  have hne := entry_ne_freeSlot hk hk' hroom hash
  have hget : ∀ p, (ids.set ((hash.toNat + d) % 2 ^ k)
      (entry k hashes.length hash)).getD p freeSlot =
        if p = (hash.toNat + d) % 2 ^ k then entry k hashes.length hash
        else ids.getD p freeSlot := by
    intro p
    rw [List.getD_eq_getElem?_getD, List.getElem?_set]
    by_cases hp : p = (hash.toNat + d) % 2 ^ k
    · rw [if_pos hp.symm, if_pos hlen, if_pos hp]
      rfl
    · rw [if_neg (Ne.symm hp), if_neg hp, List.getD_eq_getElem?_getD]
  have hslot : ∀ p < 2 ^ k, slotAt k (ids.set ((hash.toNat + d) % 2 ^ k)
      (entry k hashes.length hash)) p =
        if p = (hash.toNat + d) % 2 ^ k then some hashes.length else slotAt k ids p := by
    intro p _
    rw [slotAt, hget]
    by_cases hp : p = (hash.toNat + d) % 2 ^ k
    · rw [if_pos hp, if_pos hp, if_neg hne, entry_and_mask (by omega),
        BitVec.toNat_ofNat, Nat.mod_eq_of_lt]
      exact (hroom.trans_le hhalf).trans_le (Nat.pow_le_pow_right (by decide) hk')
    · rw [if_neg hp, if_neg hp, slotAt]
  have hhome : ∀ i < hashes.length,
      ((hashes ++ [hash]).getD i 0).toNat = (hashes.getD i 0).toNat := by
    intro i hi
    rw [List.getD_eq_getElem?_getD, List.getElem?_append_left hi, List.getD_eq_getElem?_getD]
  have hlast : ((hashes ++ [hash]).getD hashes.length 0) = hash := by
    rw [List.getD_eq_getElem?_getD, List.getElem?_concat_length]
    rfl
  have htable := hs.table.congr_home hhome
  refine ⟨by rw [List.length_set, hs.size], ?_, ?_, ?_⟩
  · rw [List.length_append, List.length_singleton]
    exact hroom
  · rw [List.length_append, List.length_singleton]
    refine htable.insert hd ?_ ?_ fun p hp => ?_
    · rw [hlast]
      exact hfree
    · rw [hlast]
      exact hbefore
    · rw [hlast]
      exact hslot p hp
  · intro p hp i hi
    rw [hslot p hp] at hi
    rw [hget]
    by_cases heq : p = (hash.toNat + d) % 2 ^ k
    · rw [if_pos heq] at hi ⊢
      cases hi
      rw [hlast]
    · rw [if_neg heq] at hi ⊢
      rw [hs.entries p hp i hi]
      congr 1
      exact (BitVec.eq_of_toNat_eq (hhome i (hs.table.id_lt p hp i hi))).symm

end Slots

/-- A probe loop, slot by slot, from a hash code on. -/
theorem probe_walk {pass : U32 → Call (U32 ⊕ Nat)} {M : Nat → Prop} [DecidablePred M]
    {hash : U32} {d : Nat} (hk : k ≤ 32)
    (hpass : ∀ code, pass code = match slotAt k ids (code.toNat % 2 ^ k) with
      | none => .ok (.inr (code.toNat % 2 ^ k))
      | some i => if M i then .ok (.inr (code.toNat % 2 ^ k)) else .ok (.inl (code + 1)))
    (hstop : Stop (2 ^ k) (slotAt k ids) M hash.toNat d) :
    iterate pass (2 ^ k + 1) hash = .ok ((hash.toNat + d) % 2 ^ k) := by
  have hlt := hstop.lt
  have hwalk : iterate pass (2 ^ k + 1) (hash + BitVec.ofNat 32 0) =
      .ok ((hash.toNat + d) % 2 ^ k) := by
    refine iterate_walk (fun e => hash + BitVec.ofNat 32 e) (d := d) ?_ ?_ _ (by omega)
    · intro e he
      obtain ⟨i, hi, hne⟩ := hstop.before e he
      rw [hpass, toNat_add_mod hk, hi]
      dsimp only
      rw [if_neg hne, BitVec.ofNat_add, ← BitVec.add_assoc]
      rfl
    · rw [hpass, toNat_add_mod hk]
      cases hslot : slotAt k ids ((hash.toNat + d) % 2 ^ k) with
      | none => rfl
      | some i =>
        dsimp only
        rw [if_pos (hstop.here i hslot)]
  rwa [BitVec.add_zero] at hwalk

/-! ## The whole hash -/

/-- The strings `l` are in the pool, in their order, and their hashes are kept. -/
structure Terms (h : BytesRefHash) (l : List (List U8)) (starts : List U32) : Prop where
  nodup : l.Nodup
  starts_eq : h.bytesStart = some starts
  starts_len : starts.length = l.length
  stored : ∀ (i : Nat) (b : List U8), l[i]? = some b → ∃ start, starts[i]? = some start ∧
    h.pool.StoredAt start b
  hashes_eq : h.hashes = l.map h.doHash
  count_eq : h.count = l.length
  pool : h.pool.Wf
  used : ((l.map fun b => (BytesRefBlockPool.encode b).length).sum : Int) ≤ h.pool.used

/-- The hash holds the strings `l` in a table of `2 ^ k` slots. -/
structure HoldsAt (h : BytesRefHash) (l : List (List U8)) (k : Nat)
    (starts ids : List U32) : Prop extends Terms h l starts where
  pos : 1 ≤ k
  le : k ≤ 31
  size : h.hashSize = 2 ^ k
  half : h.hashHalfSize = 2 ^ (k - 1)
  mask : h.hashMask = maskOf (2 ^ k)
  high : h.highMask = ~~~maskOf (2 ^ k)
  room : l.length < 2 ^ (k - 1)
  ids_eq : h.ids = some ids
  slots : Slots k ids h.hashes

/-- The hash holds the strings `l`. -/
def Holds (h : BytesRefHash) (l : List (List U8)) : Prop :=
  ∃ k starts ids, h.HoldsAt l k starts ids

/-- So many different strings do not fit into the pool. -/
theorem Terms.length_lt (ht : h.Terms l starts) : l.length < 2 ^ 30 := by
  have h3 := BytesRefBlockPool.three_mul_length_le ht.nodup
  have hle := ht.pool.used_le
  have hused := ht.used
  have hcast : (((l.map fun b => (BytesRefBlockPool.encode b).length).sum : Nat) : Int) ≤
      2 ^ 31 := hused.trans hle
  omega

namespace HoldsAt

variable {bytes : List U8}

theorem hash_getD (hh : h.HoldsAt l k starts ids) {i : Nat} {b : List U8}
    (hi : l[i]? = some b) : h.hashes.getD i 0 = h.doHash b := by
  rw [hh.hashes_eq, List.getD_eq_getElem?_getD, List.getElem?_map, hi]
  rfl

theorem hashes_len (hh : h.HoldsAt l k starts ids) : h.hashes.length = l.length := by
  rw [hh.hashes_eq, List.length_map]

/-- One slot of the probe loop. -/
theorem findPass_spec (hh : h.HoldsAt l k starts ids) (code : U32) :
    h.findPass ids starts bytes (h.doHash bytes &&& h.highMask) code =
      match slotAt k ids (code.toNat % 2 ^ k) with
      | none => .ok (.inr (code.toNat % 2 ^ k))
      | some i => if l[i]? = some bytes then .ok (.inr (code.toNat % 2 ^ k))
        else .ok (.inl (code + 1)) := by
  have hpos : code.toNat % 2 ^ k < 2 ^ k := Nat.mod_lt _ (Nat.two_pow_pos k)
  have hhalf : 2 ^ (k - 1) ≤ 2 ^ k := Nat.pow_le_pow_right (by decide) (by omega)
  have hle : 2 ^ k ≤ 2 ^ 31 := Nat.pow_le_pow_right (by decide) hh.le
  rw [findPass, hh.mask, hh.high, asUsize_and_maskOf hh.le, hh.slots.getElem? hpos,
    expect_some, ok_bind]
  cases hslot : slotAt k ids (code.toNat % 2 ^ k) with
  | none => rw [Slots.free hslot, if_pos rfl]
  | some i =>
    have hi : i < l.length := hh.hashes_len ▸ hh.slots.table.id_lt _ hpos i hslot
    have hik : i < 2 ^ k := (hi.trans hh.room).trans_le hhalf
    obtain ⟨b, hb⟩ : ∃ b, l[i]? = some b := ⟨_, List.getElem?_eq_getElem hi⟩
    have hentry := hh.slots.entries _ hpos i hslot
    have hk := hh.le
    rw [if_neg (Slots.not_free hslot), hentry, hh.hash_getD hb,
      entry_and_not_mask hik]
    dsimp only
    rw [hb]
    split
    · rename_i hdiff
      rw [if_neg]
      intro heq
      rw [Option.some.injEq] at heq
      exact hdiff (by rw [heq])
    · obtain ⟨start, hstart, hstored⟩ := hh.stored i b hb
      have hid : asUsize (BitVec.ofNat 32 i) = i := by
        have hnat : (BitVec.ofNat 32 i).toNat = i := by
          rw [BitVec.toNat_ofNat, Nat.mod_eq_of_lt (by omega)]
        rw [asUsize_of_lt (by omega), hnat]
      rw [entry_and_mask hik, hid, hstart, expect_some, ok_bind,
        BytesRefBlockPool.get_stored hstored, ok_bind]
      by_cases hbb : b = bytes
      · rw [if_neg (by simp [hbb]), if_pos (by rw [hbb])]
      · rw [if_pos hbb, if_neg (by simpa using hbb)]

/-- `find_hash` walks to the slot of a string, or to a free one. -/
theorem findHash_spec (hh : h.HoldsAt l k starts ids) (bytes : List U8) :
    ∃ d, Stop (2 ^ k) (slotAt k ids) (fun i => l[i]? = some bytes) (h.doHash bytes).toNat d ∧
      h.findHash bytes (h.doHash bytes) =
        .ok (.ok (((h.doHash bytes).toNat + d) % 2 ^ k)) := by
  have hhalf : 2 ^ (k - 1) ≤ 2 ^ k := Nat.pow_le_pow_right (by decide) (by omega)
  have hroom := hh.room
  have hlen := hh.hashes_len
  have hk := hh.le
  obtain ⟨d, hstop⟩ := hh.slots.table.exists_stop (by omega)
    (fun i => l[i]? = some bytes) (h.doHash bytes).toNat
  refine ⟨d, hstop, ?_⟩
  have hwalk := probe_walk (by omega) hh.findPass_spec hstop
  rw [findHash, hh.ids_eq, hh.starts_eq]
  dsimp only
  rw [hh.slots.size, hwalk, ok_bind]

/-- The slot where the walk of a string in the hash ends. -/
theorem slot_of_mem (hh : h.HoldsAt l k starts ids) {i d : Nat} (hi : l[i]? = some bytes)
    (hstop : Stop (2 ^ k) (slotAt k ids) (fun i => l[i]? = some bytes)
      (h.doHash bytes).toNat d) :
    slotAt k ids (((h.doHash bytes).toNat + d) % 2 ^ k) = some i := by
  have hil : i < l.length := (List.getElem?_eq_some_iff.1 hi).1
  refine hh.slots.table.stop_found hstop (by rw [hh.hashes_len]; exact hil) ?_ ?_
  · intro j hj
    rw [hh.hashes_len] at hj
    constructor
    · intro hjb
      exact (List.getElem?_inj hj hh.nodup).1 (hjb.trans hi.symm)
    · rintro rfl
      exact hi
  · rw [hh.hash_getD hi]

theorem slot_of_not_mem (hh : h.HoldsAt l k starts ids) {d : Nat} (hb : bytes ∉ l)
    (hstop : Stop (2 ^ k) (slotAt k ids) (fun i => l[i]? = some bytes)
      (h.doHash bytes).toNat d) :
    slotAt k ids (((h.doHash bytes).toNat + d) % 2 ^ k) = none :=
  hh.slots.table.stop_missing hstop fun _ _ hi => hb (List.mem_of_getElem? hi)

/-- What a slot of a string reads. -/
theorem slot_value (hh : h.HoldsAt l k starts ids) {p i : Nat} (hp : p < 2 ^ k)
    (hslot : slotAt k ids p = some i) :
    ids.getD p freeSlot &&& h.hashMask = BitVec.ofNat 32 i := by
  have hhalf : 2 ^ (k - 1) ≤ 2 ^ k := Nat.pow_le_pow_right (by decide) (by omega)
  have hi : i < l.length := hh.hashes_len ▸ hh.slots.table.id_lt _ hp i hslot
  have hroom := hh.room
  have hk := hh.le
  rw [hh.slots.entries p hp i hslot, hh.mask, entry_and_mask (by omega)]

/-- `find`. -/
theorem find_spec (hh : h.HoldsAt l k starts ids) (bytes : List U8) :
    h.find bytes =
      .ok (.ok (if bytes ∈ l then BitVec.ofNat 32 (l.idxOf bytes) else freeSlot)) := by
  obtain ⟨d, hstop, hfind⟩ := hh.findHash_spec bytes
  have hpos : ((h.doHash bytes).toNat + d) % 2 ^ k < 2 ^ k := Nat.mod_lt _ (Nat.two_pow_pos k)
  rw [find, hfind, ok_bind, hh.ids_eq]
  dsimp only
  rw [hh.slots.getElem? hpos, expect_some, ok_bind]
  by_cases hb : bytes ∈ l
  · have hi : l[l.idxOf bytes]? = some bytes := List.getElem?_idxOf hb
    have hslot := hh.slot_of_mem hi hstop
    rw [if_neg (Slots.not_free hslot), if_pos hb, hh.slot_value hpos hslot]
  · rw [if_pos (Slots.free (hh.slot_of_not_mem hb hstop)), if_neg hb]

end HoldsAt

/-! ## A second table -/

/-- One slot of the loop of `rehash`. -/
theorem placePass_spec (hs : Slots k ids hashes) (hk : k ≤ 31) (code : U32) :
    placePass ids (maskOf (2 ^ k)) code =
      match slotAt k ids (code.toNat % 2 ^ k) with
      | none => .ok (.inr (code.toNat % 2 ^ k))
      | some _ => if False then .ok (.inr (code.toNat % 2 ^ k)) else .ok (.inl (code + 1)) := by
  have hpos : code.toNat % 2 ^ k < 2 ^ k := Nat.mod_lt _ (Nat.two_pow_pos k)
  rw [placePass, asUsize_and_maskOf hk, hs.getElem? hpos, expect_some,
    ok_bind]
  cases hslot : slotAt k ids (code.toNat % 2 ^ k) with
  | none => rw [if_pos (Slots.free hslot)]
  | some i => rw [if_neg (Slots.not_free hslot), if_neg not_false]

/-- One id of `rehash`. -/
theorem place_spec (hs : Slots k ids hashes) (hk : 1 ≤ k) (hk' : k ≤ 31) {hash : U32}
    (start : U32) (hroom : hashes.length < 2 ^ (k - 1)) (hhash : h.hashes[hashes.length]? = some hash) :
    ∃ ids', h.place true (maskOf (2 ^ k)) ids (start, hashes.length) = .ok ids' ∧
      Slots k ids' (hashes ++ [hash]) := by
  have hhalf : 2 ^ (k - 1) ≤ 2 ^ k := Nat.pow_le_pow_right (by decide) (by omega)
  obtain ⟨d, hstop⟩ := hs.table.exists_stop (by omega) (fun _ => False) hash.toNat
  have hwalk := probe_walk (by omega) (placePass_spec hs hk') hstop
  have hpos : (hash.toNat + d) % 2 ^ k < ids.length := by
    rw [hs.size]
    exact Nat.mod_lt _ (Nat.two_pow_pos k)
  have hfree : slotAt k ids ((hash.toNat + d) % 2 ^ k) = none :=
    hs.table.stop_missing hstop fun _ _ => not_false
  refine ⟨_, ?_, hs.insert hk (by omega) hroom hstop.lt hfree fun e he => ?_⟩
  · rw [place]
    dsimp only
    rw [if_pos rfl, hhash, expect_some, ok_bind, ok_bind]
    dsimp only
    rw [hs.size, hwalk, ok_bind, guardOk_pos (hs.size ▸ hpos), ok_bind]
    rfl
  · obtain ⟨i, hi, _⟩ := hstop.before e he
    rw [hi]
    simp

/-- The loop of `rehash`. -/
theorem rehash_loop (hk : 1 ≤ k) (hk' : k ≤ 31) (hlen : starts.length = h.hashes.length)
    (hroom : h.hashes.length < 2 ^ (k - 1)) :
    ∃ ids, starts.zipIdx.foldlM (h.place true (maskOf (2 ^ k))) (freeTable (2 ^ k)) =
        .ok ids ∧ Slots k ids h.hashes := by
  have hrun := foldlM_visited (f := h.place true (maskOf (2 ^ k)))
    (fun seen ids => Slots k ids (h.hashes.take seen.length)) starts.zipIdx ?_
    (freeTable (2 ^ k)) (slots_free k)
  · obtain ⟨ids, hids, hs⟩ := hrun
    refine ⟨ids, hids, ?_⟩
    rwa [List.length_zipIdx, hlen, List.take_length] at hs
  · rintro seen ⟨start, i⟩ ids ⟨rest, hrest⟩ hs
    -- the pair after `seen` carries the number of the pairs before it
    have hat : starts.zipIdx[seen.length]? = some (start, i) := by
      rw [hrest, List.getElem?_append_right (Nat.le_refl _), Nat.sub_self,
        List.getElem?_cons_zero]
    rw [List.getElem?_zipIdx, Option.map_eq_some_iff] at hat
    obtain ⟨start', hstart, heq⟩ := hat
    have hseen : seen.length < h.hashes.length := by
      rw [← hlen]
      exact (List.getElem?_eq_some_iff.1 hstart).1
    have htake : (h.hashes.take seen.length).length = seen.length :=
      List.length_take_of_le (by omega)
    have hi : i = (h.hashes.take seen.length).length := by
      rw [htake]
      simpa using (congrArg Prod.snd heq).symm
    have hhash : h.hashes[seen.length]? = some h.hashes[seen.length] :=
      List.getElem?_eq_getElem hseen
    obtain ⟨ids', hplace, hs'⟩ := place_spec hs hk hk' start (by omega)
      (by rw [htake]; exact hhash)
    refine ⟨ids', by rw [hi]; exact hplace, ?_⟩
    rwa [List.length_append, List.length_singleton, List.take_add_one, hhash]

theorem two_pow_half (hk : 1 ≤ k) : 2 ^ k / 2 = 2 ^ (k - 1) := by
  rw [show k = (k - 1) + 1 by omega, Nat.pow_succ, Nat.mul_div_cancel _ (by decide),
    Nat.add_sub_cancel]

/-- `rehash`. -/
theorem Terms.rehash_spec (ht : h.Terms l starts) (hk : 1 ≤ k) (hk' : k ≤ 31)
    (hroom : l.length < 2 ^ (k - 1)) :
    ∃ h', h.rehash (2 ^ k) true = .ok h' ∧ h'.Holds l := by
  have hlen : h.hashes.length = l.length := by rw [ht.hashes_eq, List.length_map]
  have hslen : starts.length = h.hashes.length := ht.starts_len.trans hlen.symm
  obtain ⟨ids, hids, hslots⟩ := rehash_loop hk hk' hslen (by omega)
  have htake : starts.zipIdx.take h.count = starts.zipIdx := by
    apply List.take_of_length_le
    rw [List.length_zipIdx, ht.count_eq, ht.starts_len]
  have hterms : Terms { h with
      ids := some ids
      hashMask := maskOf (2 ^ k)
      highMask := ~~~maskOf (2 ^ k)
      hashSize := 2 ^ k
      hashHalfSize := 2 ^ k / 2 } l starts :=
    ⟨ht.nodup, ht.starts_eq, ht.starts_len, ht.stored, ht.hashes_eq, ht.count_eq, ht.pool,
      ht.used⟩
  refine ⟨_, ?_, k, starts, ids, hterms, hk, hk', rfl, two_pow_half hk, rfl, rfl, hroom, rfl,
    hslots⟩
  rw [rehash, ht.starts_eq, Option.getD_some, htake, hids, ok_bind]

/-! ## Adding -/

/-- A string more, at the end. -/
theorem Terms.append {bytes : List U8} (ht : h.Terms l starts) (hnew : bytes ∉ l)
    {pool : BytesRefBlockPool} {start : U32} (hwf : pool.Wf)
    (hstored : pool.StoredAt start bytes)
    (hused : h.pool.used + (BytesRefBlockPool.encode bytes).length ≤ pool.used)
    (hkeep : ∀ s b, h.pool.StoredAt s b → pool.StoredAt s b) (ids : List U32) :
    Terms { h with
      pool := pool
      bytesStart := some (starts ++ [start])
      hashes := h.hashes ++ [h.doHash bytes]
      count := h.count + 1
      ids := some ids } (l ++ [bytes]) (starts ++ [start]) := by
  have hslen := ht.starts_len
  refine ⟨?_, rfl, ?_, ?_, ?_, ?_, hwf, ?_⟩
  · refine List.nodup_append.2 ⟨ht.nodup, List.nodup_singleton bytes, ?_⟩
    intro a ha b hb hab
    rw [List.mem_singleton] at hb
    exact hnew (hb ▸ hab ▸ ha)
  · rw [List.length_append, List.length_append, hslen]
    rfl
  · intro i b hi
    by_cases hil : i < l.length
    · rw [List.getElem?_append_left hil] at hi
      obtain ⟨s, hs, hsb⟩ := ht.stored i b hi
      exact ⟨s, by rw [List.getElem?_append_left (by omega)]; exact hs, hkeep s b hsb⟩
    · have hlt := (List.getElem?_eq_some_iff.1 hi).1
      rw [List.length_append, List.length_singleton] at hlt
      obtain rfl : i = l.length := by omega
      rw [List.getElem?_concat_length] at hi
      cases hi
      exact ⟨start, by rw [← hslen, List.getElem?_concat_length], hstored⟩
  · rw [List.map_append, ht.hashes_eq]
    rfl
  · show h.count + 1 = (l ++ [bytes]).length
    rw [List.length_append, ht.count_eq]
    rfl
  · have := ht.used
    rw [List.map_append, List.sum_append]
    simp only [List.map_cons, List.map_nil, List.sum_cons, List.sum_nil]
    push_cast at this ⊢
    omega

theorem addNew_blocks {h' : BytesRefHash} {bytes : List U8} {hashcode : U32} {pos : Nat}
    {r : HashResult U32} (hadd : h.addNew bytes hashcode pos ids = .ok (h', r)) :
    h'.pool.blocks.length ≤ h.pool.blocks.length + 1 := by
  obtain ⟨⟨pool, result⟩, hpool, hadd⟩ := bind_eq_ok.1 hadd
  have hle := BytesRefBlockPool.addBytesRef_blocks hpool
  cases result with
  | error e =>
    cases hadd
    exact hle
  | ok start =>
    simp only at hadd
    cases hstarts : h.bytesStart with
    | none =>
      rw [hstarts] at hadd
      cases hadd
      exact hle
    | some starts =>
      rw [hstarts] at hadd
      obtain ⟨u, -, hadd⟩ := bind_eq_ok.1 hadd
      split at hadd
      · obtain ⟨h₁, hrehash, hadd⟩ := bind_eq_ok.1 hadd
        obtain ⟨ids', -, hrehash⟩ := bind_eq_ok.1 hrehash
        cases hrehash
        cases hadd
        exact hle
      · cases hadd
        exact hle

/-- `add` takes one block more at most. -/
theorem add_blocks {h' : BytesRefHash} {bytes : List U8} {r : HashResult U32}
    (hadd : h.add bytes = .ok (h', r)) :
    h'.pool.blocks.length ≤ h.pool.blocks.length + 1 := by
  obtain ⟨found, -, hadd⟩ := bind_eq_ok.1 hadd
  cases found with
  | error e =>
    cases hadd
    exact Nat.le_succ _
  | ok pos =>
    simp only at hadd
    cases hids : h.ids with
    | none =>
      rw [hids] at hadd
      cases hadd
      exact Nat.le_succ _
    | some ids =>
      rw [hids] at hadd
      obtain ⟨e, -, hadd⟩ := bind_eq_ok.1 hadd
      split at hadd
      · cases hadd
        exact Nat.le_succ _
      exact addNew_blocks hadd

/-- `add` of a string that is not in the hash. -/
theorem HoldsAt.addNew_spec {bytes : List U8} (hh : h.HoldsAt l k starts ids)
    (hnew : bytes ∉ l) {d : Nat}
    (hstop : Stop (2 ^ k) (slotAt k ids) (fun i => l[i]? = some bytes)
      (h.doHash bytes).toNat d) :
    if 32766 < bytes.length then
      h.addNew bytes (h.doHash bytes) (((h.doHash bytes).toNat + d) % 2 ^ k) ids =
        .ok (h, .error (.maxBytesLengthExceeded bytes.length))
    else if h.pool.Full bytes then
      h.addNew bytes (h.doHash bytes) (((h.doHash bytes).toNat + d) % 2 ^ k) ids =
        .ok (h, .error .poolOverflow)
    else ∃ h', h.addNew bytes (h.doHash bytes) (((h.doHash bytes).toNat + d) % 2 ^ k) ids =
        .ok (h', .ok (BitVec.ofNat 32 l.length)) ∧ h'.Holds (l ++ [bytes]) := by
  have hpool := BytesRefBlockPool.addBytesRef_spec hh.pool bytes
  rw [addNew]
  split
  · rename_i hlong
    rw [if_pos hlong] at hpool
    rw [hpool]
    rfl
  rename_i hlong
  rw [if_neg hlong] at hpool
  split
  · rename_i hfull
    rw [if_pos hfull] at hpool
    rw [hpool]
    rfl
  rename_i hfull
  rw [if_neg hfull] at hpool
  obtain ⟨pool, start, hrun, hwf, hstored, hused, hkeep⟩ := hpool
  have hlen := hh.hashes_len
  have hcount := hh.count_eq
  have hk := hh.pos
  have hk' := hh.le
  have hroom := hh.room
  have hpos : ((h.doHash bytes).toNat + d) % 2 ^ k < ids.length := by
    rw [hh.slots.size]
    exact Nat.mod_lt _ (Nat.two_pow_pos k)
  have hterms := hh.toTerms.append hnew hwf hstored hused hkeep
    (ids.set (((h.doHash bytes).toNat + d) % 2 ^ k)
      (BitVec.ofNat 32 h.count ||| (h.doHash bytes &&& h.highMask)))
  have hbound := hterms.length_lt
  rw [List.length_append, List.length_singleton] at hbound
  rw [hrun, ok_bind]
  dsimp only
  rw [hh.starts_eq]
  dsimp only
  rw [guardOk_pos hpos, ok_bind, ← hcount]
  split
  · -- the table is half full: twice as many slots
    rename_i hhalf
    rw [hh.half] at hhalf
    have hk30 : k - 1 < 30 := (Nat.pow_lt_pow_iff_right (by decide : 1 < 2)).1 (by omega)
    have hsize : 2 * h.hashSize = 2 ^ (k + 1) := by
      rw [hh.size, Nat.pow_succ, Nat.mul_comm]
    have hfew : (l ++ [bytes]).length < 2 ^ (k + 1 - 1) := by
      rw [List.length_append, List.length_singleton, ← hcount, hhalf, Nat.add_sub_cancel]
      exact Nat.pow_lt_pow_right (by decide) (by omega)
    obtain ⟨h', hrehash, hholds⟩ := hterms.rehash_spec (k := k + 1) (by omega) (by omega) hfew
    rw [hsize, hrehash, ok_bind]
    exact ⟨h', rfl, hholds⟩
  · rename_i hhalf
    rw [hh.half] at hhalf
    refine ⟨_, rfl, k, starts ++ [start], _, hterms, hk, hk', hh.size, hh.half, hh.mask,
      hh.high, ?_, rfl, ?_⟩
    · rw [List.length_append, List.length_singleton]
      omega
    · have hslots := hh.slots.insert hk (by omega) (by omega) hstop.lt
        (hh.slot_of_not_mem hnew hstop) fun e he => by
          obtain ⟨i, hi, _⟩ := hstop.before e he
          rw [hi]
          simp
      rw [hcount, ← hlen, hh.high]
      exact hslots

/-- `add`. -/
theorem HoldsAt.add_spec (hh : h.HoldsAt l k starts ids) (bytes : List U8) :
    if bytes ∈ l then
      h.add bytes = .ok (h, .ok (-(BitVec.ofNat 32 (l.idxOf bytes) + 1)))
    else if 32766 < bytes.length then
      h.add bytes = .ok (h, .error (.maxBytesLengthExceeded bytes.length))
    else if h.pool.Full bytes then h.add bytes = .ok (h, .error .poolOverflow)
    else ∃ h', h.add bytes = .ok (h', .ok (BitVec.ofNat 32 l.length)) ∧
      h'.Holds (l ++ [bytes]) := by
  obtain ⟨d, hstop, hfind⟩ := hh.findHash_spec bytes
  have hpos : ((h.doHash bytes).toNat + d) % 2 ^ k < 2 ^ k := Nat.mod_lt _ (Nat.two_pow_pos k)
  rw [add, hfind, ok_bind, hh.ids_eq]
  dsimp only
  rw [hh.slots.getElem? hpos, expect_some, ok_bind]
  by_cases hb : bytes ∈ l
  · have hslot := hh.slot_of_mem (List.getElem?_idxOf hb) hstop
    rw [if_pos hb, if_pos (Slots.not_free hslot), hh.slot_value hpos hslot]
  · rw [if_neg hb, Slots.free (hh.slot_of_not_mem hb hstop), if_neg (not_not.2 rfl)]
    exact hh.addNew_spec hb hstop

/-! ## Emptying -/

/-- The loop of `shrink` halves a power of two, and ends where it is to end. -/
theorem shrinkLoop_spec (target : Nat) :
    ∀ fuel k, 1 ≤ k → k ≤ fuel → ∃ k', 1 ≤ k' ∧ k' ≤ k ∧
      shrinkLoop target fuel (2 ^ k) = 2 ^ k' ∧ ¬ (8 ≤ 2 ^ k' ∧ target < 2 ^ k' / 4) := by
  intro fuel
  induction fuel with
  | zero => intro k hk hfuel; omega
  | succ fuel ih =>
    intro k hk hfuel
    rw [shrinkLoop]
    split
    · rename_i hcond
      have hk3 : 3 ≤ k := (Nat.pow_le_pow_iff_right (by decide : 1 < 2)).1 hcond.1
      have hhalf : 2 ^ k / 2 = 2 ^ (k - 1) := by
        rw [show k = (k - 1) + 1 by omega, Nat.pow_succ, Nat.mul_div_cancel _ (by decide),
          Nat.add_sub_cancel]
      obtain ⟨k', h1, hle, heq, hdone⟩ := ih (k - 1) (by omega) (by omega)
      exact ⟨k', h1, by omega, by rw [hhalf, heq], hdone⟩
    · rename_i hcond
      exact ⟨k, hk, Nat.le_refl k, rfl, hcond⟩

theorem used_nonneg {pool : BytesRefBlockPool} (hwf : pool.Wf) : 0 ≤ pool.used := by
  have hoff := hwf.offset
  rw [BytesRefBlockPool.used]
  simp only [byteBlockSize] at hoff
  by_cases hnil : pool.blocks = []
  · have hupto := hwf.none hnil
    simp only [byteBlockSize] at hupto
    rw [hnil] at hoff
    simp at hoff
    omega
  · have hpos := List.length_pos_iff.2 hnil
    omega

/-- A hash without strings. -/
theorem holds_nil (hk : 1 ≤ k) (hk' : k ≤ 31) (hstarts : h.bytesStart = some [])
    (hhashes : h.hashes = []) (hcount : h.count = 0) (hsize : h.hashSize = 2 ^ k)
    (hhalf : h.hashHalfSize = 2 ^ k / 2) (hmask : h.hashMask = maskOf (2 ^ k))
    (hhigh : h.highMask = ~~~maskOf (2 ^ k)) (hids : h.ids = some (freeTable (2 ^ k)))
    (hpool : h.pool.Wf) : h.Holds [] := by
  have hterms : h.Terms [] [] := by
    refine ⟨List.nodup_nil, hstarts, rfl, ?_, hhashes, hcount, hpool, used_nonneg hpool⟩
    intro i b hi
    simp at hi
  exact ⟨k, [], freeTable (2 ^ k), hterms, hk, hk', hsize, hhalf.trans (two_pow_half hk), hmask,
    hhigh, Nat.two_pow_pos _, hids, hhashes ▸ slots_free k⟩

/-- `with_capacity`. -/
theorem withCapacity_holds {capacity : Nat} {seed : U32}
    (hnew : withCapacity capacity seed = .ok h) : h.Holds [] := by
  rw [withCapacity] at hnew
  split at hnew
  · cases hnew
  · rename_i hcap
    push Not at hcap
    obtain ⟨h2, ⟨k, rfl⟩, hle⟩ := hcap
    cases hnew
    have hk1 : 1 ≤ k := by
      by_contra h0
      rw [show k = 0 by omega] at h2
      omega
    have hk30 : k ≤ 30 := (Nat.pow_le_pow_iff_right (by decide : 1 < 2)).1 hle
    exact holds_nil hk1 (by omega) rfl rfl rfl rfl rfl rfl rfl rfl
      BytesRefBlockPool.wf_new

/-- The powers of two from 2 to `2 ^ 30` are capacities. -/
theorem withCapacity_ok (hk : 1 ≤ k) (hk' : k ≤ 30) (seed : U32) :
    ∃ h, withCapacity (2 ^ k) seed = .ok h ∧ h.pool = .new := by
  have h2 : 2 ^ 1 ≤ 2 ^ k := Nat.pow_le_pow_right (by decide) hk
  have hle : 2 ^ k ≤ 2 ^ 30 := Nat.pow_le_pow_right (by decide) hk'
  have hpow : (2 ^ k).isPowerOfTwo := ⟨k, rfl⟩
  rw [withCapacity, if_neg]
  · exact ⟨_, rfl, rfl⟩
  · rintro (hlt | hnot | hgt)
    · omega
    · exact hnot hpow
    · omega

/-- What `clear` leaves. -/
theorem HoldsAt.clear_spec (hh : h.HoldsAt l k starts ids) (resetPool : Bool) :
    ∃ k', 1 ≤ k' ∧ k' ≤ 31 ∧ (h.clear resetPool).hashes = [] ∧
      (h.clear resetPool).bytesStart = none ∧ (h.clear resetPool).count = 0 ∧
      (h.clear resetPool).hashSize = 2 ^ k' ∧
      (h.clear resetPool).hashHalfSize = 2 ^ k' / 2 ∧
      (h.clear resetPool).hashMask = maskOf (2 ^ k') ∧
      (h.clear resetPool).highMask = ~~~maskOf (2 ^ k') ∧
      (h.clear resetPool).ids = some (freeTable (2 ^ k')) ∧
      (h.clear resetPool).pool.Wf := by
  have hpool : (if resetPool then BytesRefBlockPool.new else h.pool).Wf := by
    split
    · exact BytesRefBlockPool.wf_new
    · exact hh.pool
  have hk : k ≤ 2 ^ k := Nat.le_of_lt Nat.lt_two_pow_self
  obtain ⟨k', hk1, hkk, hloop, _⟩ := shrinkLoop_spec h.count (2 ^ k) k hh.pos hk
  have hle := hh.le
  have hcount : ((h.count : Nat) : Int) ≠ -1 := by omega
  have hsize := hh.size
  rw [← hsize] at hloop
  refine ⟨k', hk1, by omega, ?_⟩
  simp only [clear, if_pos hcount, shrink, Int.toNat_natCast, hloop]
  by_cases hsame : 2 ^ k' = h.hashSize
  · have hkk' : k' = k := Nat.pow_right_injective (le_refl 2) (hsame.trans hsize)
    subst hkk'
    rw [if_neg (not_not.2 hsame)]
    simp only [Bool.false_eq_true, if_false, hh.ids_eq, Option.map_some, hh.slots.size]
    exact ⟨trivial, trivial, trivial, hsize, by rw [hh.half, two_pow_half hk1], hh.mask,
      hh.high, trivial, hpool⟩
  · rw [if_pos hsame]
    exact ⟨rfl, rfl, rfl, rfl, rfl, rfl, rfl, rfl, hpool⟩

/-- `clear` and `reinit`. -/
theorem Holds.clear_reinit (hh : h.Holds l) (resetPool : Bool) :
    (h.clear resetPool).reinit.Holds [] := by
  obtain ⟨k, starts, ids, hh⟩ := hh
  obtain ⟨k', hk, hk', hhashes, hstarts, hcount, hsize, hhalf, hmask, hhigh, hids, hpool⟩ :=
    hh.clear_spec resetPool
  refine holds_nil hk hk' ?_ hhashes hcount hsize hhalf hmask hhigh ?_ hpool
  · rw [reinit, hstarts]
    rfl
  · rw [reinit, hids]
    rfl

/-- `close` and `reinit`. -/
theorem Holds.close_reinit (hh : h.Holds l) : h.close.reinit.Holds [] := by
  obtain ⟨k, starts, ids, hh⟩ := hh
  obtain ⟨k', hk, hk', hhashes, hstarts, hcount, hsize, hhalf, hmask, hhigh, _, hpool⟩ :=
    hh.clear_spec true
  refine holds_nil hk hk' ?_ hhashes hcount hsize hhalf hmask hhigh ?_ hpool
  · rw [reinit, close, hstarts]
    rfl
  · rw [reinit, close, hsize]
    rfl

end BytesRefHash

end LuceneRust.Util
