import LuceneRust.Util.BytesRefHashSpec
import Mathlib.Data.List.Permutation

/-!
# Runs of a `BytesRefHash`

* `bePrefix_lt` says that the eight-byte prefixes order strings as the strings
  are ordered, so that `sort` compares strings (`sort_spec`).
* `Reaches h l` says that some run of calls builds the hash `h`, and that the
  strings added since it was emptied last are `l`, in the order of their first
  insertion.  `Reaches.holds` is the invariant of the runs, and
  `reaches_ordered_set` collects what every call answers.
-/

namespace LuceneRust.Util

open RustSem
open Packed (Call)

namespace BytesRefHash

variable {h h' : BytesRefHash} {starts ids : List U32} {l : List (List U8)} {k : Nat}

/-! ## The order of the prefixes -/

/-- The number with the given digits to the base 256. -/
def digits : List U8 → Nat
  | [] => 0
  | b :: bs => b.toNat * 256 ^ bs.length + digits bs

attribute [local simp] digits

theorem digits_lt (bs : List U8) : digits bs < 256 ^ bs.length := by
  induction bs with
  | nil => exact Nat.one_pos
  | cons b bs ih =>
    have hb : b.toNat + 1 ≤ 256 := b.isLt
    have hmul := Nat.mul_le_mul_right (256 ^ bs.length) hb
    rw [Nat.add_mul, Nat.one_mul] at hmul
    rw [digits, List.length_cons, Nat.pow_succ, Nat.mul_comm _ 256]
    omega

theorem foldl_toNat (bs : List U8) :
    ∀ acc : U64, (acc.toNat + 1) * 256 ^ bs.length ≤ 2 ^ 64 →
      (bs.foldl (fun (acc : U64) b => acc <<< 8 ||| b.setWidth 64) acc).toNat =
        acc.toNat * 256 ^ bs.length + digits bs := by
  induction bs with
  | nil =>
    intro acc _
    simp [digits]
  | cons b bs ih =>
    intro acc hacc
    have hpow : 1 ≤ 256 ^ bs.length := Nat.one_le_pow _ _ (by decide)
    rw [List.length_cons, Nat.pow_succ, Nat.mul_comm _ 256, ← Nat.mul_assoc] at hacc
    have hsmall : (acc.toNat + 1) * 256 ≤ 2 ^ 64 :=
      (Nat.le_mul_of_pos_right _ hpow).trans hacc
    have hb := b.isLt
    have hstep : (acc <<< 8 ||| b.setWidth 64).toNat = acc.toNat * 256 + b.toNat := by
      rw [BitVec.toNat_or, BitVec.toNat_shiftLeft, BitVec.toNat_setWidth,
        Nat.mod_eq_of_lt (by omega : b.toNat < 2 ^ 64), Nat.shiftLeft_eq,
        Nat.mod_eq_of_lt (by omega), ← Nat.shiftLeft_eq, Nat.shiftLeft_add_eq_or_of_lt hb,
        Nat.shiftLeft_eq]
    have hnext : ((acc <<< 8 ||| b.setWidth 64).toNat + 1) * 256 ^ bs.length ≤ 2 ^ 64 := by
      rw [hstep]
      refine Nat.le_trans (Nat.mul_le_mul_right _ ?_) hacc
      omega
    rw [List.foldl_cons, ih _ hnext, hstep, digits, List.length_cons, Nat.pow_succ,
      Nat.add_mul, Nat.mul_assoc, Nat.mul_comm 256, Nat.add_assoc]

theorem lt_of_digits {as bs : List U8} (hlen : as.length = bs.length)
    (h : digits as < digits bs) : as < bs := by
  induction as generalizing bs with
  | nil =>
    cases bs with
    | nil => exact absurd h (Nat.lt_irrefl _)
    | cons b bs => cases hlen
  | cons a as ih =>
    cases bs with
    | nil => cases hlen
    | cons b bs =>
      rw [List.length_cons, List.length_cons, Nat.add_right_cancel_iff] at hlen
      rw [digits, digits, hlen] at h
      rw [List.cons_lt_cons_iff]
      rcases Nat.lt_trichotomy a.toNat b.toNat with hab | hab | hab
      · exact .inl (BitVec.lt_def.2 hab)
      · refine .inr ⟨BitVec.eq_of_toNat_eq hab, ih hlen ?_⟩
        rw [hab] at h
        omega
      · have hmul := Nat.mul_le_mul_right (256 ^ bs.length) hab
        rw [Nat.succ_mul] at hmul
        have := digits_lt bs
        omega

/-- A string, cut or filled up with zeros. -/
def pad : Nat → List U8 → List U8
  | 0, _ => []
  | n + 1, [] => 0#8 :: pad n []
  | n + 1, b :: bs => b :: pad n bs

theorem pad_length (n : Nat) (bs : List U8) : (pad n bs).length = n := by
  induction n generalizing bs with
  | zero => rfl
  | succ n ih => cases bs <;> simp [pad, ih]

theorem lt_of_pad {n : Nat} {as bs : List U8} (h : pad n as < pad n bs) : as < bs := by
  induction n generalizing as bs with
  | zero => exact absurd h (List.lt_irrefl _)
  | succ n ih =>
    cases as with
    | nil =>
      cases bs with
      | nil => exact absurd h (List.lt_irrefl _)
      | cons b bs => exact List.nil_lt_cons b bs
    | cons a as =>
      cases bs with
      | nil =>
        rcases List.cons_lt_cons_iff.1 h with hlt | ⟨_, hlt⟩
        · exact absurd (BitVec.lt_def.1 hlt) (Nat.not_lt_zero _)
        · exact absurd (ih hlt) (List.not_lt_nil _)
      | cons b bs =>
        rw [List.cons_lt_cons_iff]
        rcases List.cons_lt_cons_iff.1 h with hlt | ⟨heq, hlt⟩
        · exact .inl hlt
        · exact .inr ⟨heq, ih hlt⟩

theorem splice_eq_pad (n : Nat) (bs : List U8) :
    splice (List.replicate n 0#8) 0 (bs.take (min bs.length n)) = pad n bs := by
  have hsplice : splice (List.replicate n 0#8) 0 (bs.take (min bs.length n)) =
      bs.take n ++ List.replicate (n - bs.length) 0#8 := by
    rw [splice, List.take_zero, List.nil_append, Nat.zero_add, List.drop_replicate,
      List.length_take, Nat.min_comm bs.length n, List.take_eq_take_iff.2]
    · congr 2
      omega
    · omega
  rw [hsplice]
  clear hsplice
  induction n generalizing bs with
  | zero => simp [pad]
  | succ n ih =>
    cases bs with
    | nil =>
      have := ih []
      simp only [List.take_nil, List.nil_append, List.length_nil, Nat.sub_zero] at this
      simp [pad, List.replicate_succ, this]
    | cons b bs => simp [pad, ← ih bs]

/-- The prefixes are ordered as the strings. -/
theorem bePrefix_lt {as bs : List U8} (h : bePrefix as < bePrefix bs) : as < bs := by
  have hval : ∀ t : List U8, (bePrefix t).toNat = digits (pad 8 t) := by
    intro t
    have hfold := foldl_toNat (pad 8 t) 0#64 (by rw [pad_length]; decide)
    rw [bePrefix, fromBeBytes, splice_eq_pad, hfold]
    simp
  rw [BitVec.lt_def, hval, hval] at h
  exact lt_of_pad (lt_of_digits (by rw [pad_length, pad_length]) h)

/-! ## Sorting -/

theorem keyLe_trans (a b c : U64 × List U8 × U32) (hab : keyLe a b = true)
    (hbc : keyLe b c = true) : keyLe a c = true := by
  simp only [keyLe, Bool.or_eq_true, Bool.and_eq_true, decide_eq_true_eq, beq_iff_eq,
    BitVec.lt_def] at *
  rcases hab with hab | ⟨hab, hle⟩
  · rcases hbc with hbc | ⟨hbc, _⟩
    · exact .inl (hab.trans hbc)
    · exact .inl (hbc ▸ hab)
  · rcases hbc with hbc | ⟨hbc, hle'⟩
    · exact .inl (hab ▸ hbc)
    · exact .inr ⟨hab.trans hbc, List.le_trans hle hle'⟩

theorem keyLe_total (a b : U64 × List U8 × U32) : (keyLe a b || keyLe b a) = true := by
  simp only [keyLe, Bool.or_eq_true, Bool.and_eq_true, decide_eq_true_eq, beq_iff_eq,
    BitVec.lt_def]
  rcases Nat.lt_trichotomy a.1.toNat b.1.toNat with hlt | heq | hgt
  · exact .inl (.inl hlt)
  · have heq' := BitVec.eq_of_toNat_eq heq
    rcases List.le_total a.2.1 b.2.1 with hle | hle
    · exact .inl (.inr ⟨heq', hle⟩)
    · exact .inr (.inr ⟨heq'.symm, hle⟩)
  · exact .inr (.inl hgt)

/-- The key of a string. -/
def key (l : List (List U8)) (i : Nat) : U64 × List U8 × U32 :=
  (bePrefix (l.getD i []), l.getD i [], BitVec.ofNat 32 i)

theorem le_of_keyLe {i j : Nat} (hle : keyLe (key l i) (key l j) = true) :
    l.getD i [] ≤ l.getD j [] := by
  simp only [keyLe, Bool.or_eq_true, Bool.and_eq_true, decide_eq_true_eq] at hle
  rcases hle with hlt | ⟨_, hle⟩
  · intro hgt
    exact List.lt_irrefl _ (List.lt_trans hgt (bePrefix_lt hlt))
  · exact hle

/-- The ids in the order of their strings. -/
theorem exists_order (hnodup : l.Nodup) (hlen : l.length < 2 ^ 32) :
    ∃ order : List Nat, order.Perm (List.range l.length) ∧
      (order.map fun i => l.getD i []).Pairwise (· < ·) ∧
      ((List.range l.length).map (key l)).mergeSort keyLe = order.map (key l) := by
  have hperm := List.mergeSort_perm ((List.range l.length).map (key l)) keyLe
  have hsorted := List.pairwise_mergeSort keyLe_trans keyLe_total
    ((List.range l.length).map (key l))
  generalize ((List.range l.length).map (key l)).mergeSort keyLe = sorted at hperm hsorted
  have hback : ∀ i < l.length, (key l i).2.2.toNat = i := by
    intro i hi
    rw [key, BitVec.toNat_ofNat, Nat.mod_eq_of_lt (by omega)]
  have hmem : ∀ x ∈ sorted, ∃ i < l.length, x = key l i := by
    intro x hx
    obtain ⟨i, hi, rfl⟩ := List.mem_map.1 (hperm.mem_iff.1 hx)
    exact ⟨i, List.mem_range.1 hi, rfl⟩
  have horder : (sorted.map fun x => x.2.2.toNat).Perm (List.range l.length) := by
    have hmap := hperm.map fun x => x.2.2.toNat
    rw [List.map_map] at hmap
    refine hmap.trans (List.Perm.of_eq ?_)
    rw [List.map_congr_left (g := id), List.map_id]
    intro i hi
    exact hback i (List.mem_range.1 hi)
  have hkeys : sorted = (sorted.map fun x => x.2.2.toNat).map (key l) := by
    rw [List.map_map, List.map_congr_left (g := id), List.map_id]
    intro x hx
    obtain ⟨i, hi, rfl⟩ := hmem x hx
    rw [Function.comp_apply, hback i hi, id]
  refine ⟨_, horder, ?_, hkeys⟩
  rw [hkeys, List.pairwise_map] at hsorted
  rw [List.pairwise_map]
  have hnodup' := (horder.nodup_iff.2 List.nodup_range)
  refine (hsorted.and hnodup').imp_of_mem ?_
  intro i j hi hj ⟨hle, hne⟩
  have hil := List.mem_range.1 (horder.mem_iff.1 hi)
  have hjl := List.mem_range.1 (horder.mem_iff.1 hj)
  rcases List.le_iff_lt_or_eq.1 (le_of_keyLe hle) with hlt | heq
  · exact hlt
  · rw [List.getD_eq_getElem?_getD, List.getD_eq_getElem?_getD, List.getElem?_eq_getElem hil,
      List.getElem?_eq_getElem hjl] at heq
    exact absurd ((List.Nodup.getElem_inj_iff hnodup).1 heq) hne

/-- The keys that the entries are sorted by. -/
theorem HoldsAt.keyed (hh : h.HoldsAt l k starts ids) :
    (starts.take h.count).zipIdx.mapM (fun (start, id) => do
      let term ← h.pool.get start
      .ok (bePrefix term, term, BitVec.ofNat 32 id) :
        U32 × Nat → Call (U64 × List U8 × U32)) =
      .ok ((List.range l.length).map (key l)) := by
  have hcount := hh.count_eq
  have hslen := hh.starts_len
  rw [List.take_of_length_le (by omega), mapM_ok (g := fun x => key l x.2)]
  · have hmap : starts.zipIdx.map (fun x => key l x.2) =
        (starts.zipIdx.map Prod.snd).map (key l) := by
      rw [List.map_map]
      rfl
    rw [hmap, List.zipIdx_map_snd, hslen, ← List.range_eq_range']
  · rintro ⟨start, i⟩ hmem
    have hi : starts[i]? = some start := by
      rw [List.mem_zipIdx_iff_getElem?] at hmem
      exact hmem
    have hil : i < l.length := by
      rw [← hslen]
      exact (List.getElem?_eq_some_iff.1 hi).1
    obtain ⟨start', hstart, hstored⟩ := hh.stored i _ (List.getElem?_eq_getElem hil)
    rw [hi] at hstart
    cases hstart
    dsimp only
    rw [BytesRefBlockPool.get_stored hstored, ok_bind, key,
      List.getD_eq_getElem?_getD, List.getElem?_eq_getElem hil]
    rfl

/-- `sort`. -/
theorem HoldsAt.sort_spec (hh : h.HoldsAt l k starts ids) :
    ∃ (h' : BytesRefHash) (order : List Nat), h.sort = .ok (h', order.map (BitVec.ofNat 32) ++
        List.replicate (h.hashSize - l.length) freeSlot) ∧
      order.Perm (List.range l.length) ∧
      (order.map fun i => l.getD i []).Pairwise (· < ·) := by
  have hbound := hh.length_lt
  have hcount := hh.count_eq
  have hslen := hh.starts_len
  have hroom := hh.room
  have hhalf : 2 ^ (k - 1) ≤ 2 ^ k := Nat.pow_le_pow_right (by decide) (by omega)
  obtain ⟨order, hperm, hpair, hsort⟩ := exists_order hh.nodup (by omega)
  refine ⟨{ h with lastCount := h.count, ids := some (order.map (BitVec.ofNat 32) ++
        List.replicate (h.hashSize - l.length) freeSlot) }, order, ?_, hperm, hpair⟩
  have holen : order.length = l.length := by rw [hperm.length_eq, List.length_range]
  have hids : (order.map (key l)).map (fun x => x.2.2) = order.map (BitVec.ofNat 32) := by
    rw [List.map_map]
    rfl
  have hresize : resize (order.map (BitVec.ofNat 32)) h.hashSize freeSlot =
      order.map (BitVec.ofNat 32) ++ List.replicate (h.hashSize - l.length) freeSlot := by
    rw [resize, List.take_of_length_le (by rw [List.length_map, hh.size]; omega),
      List.length_map, holen]
  rw [sort]
  dsimp only
  rw [hh.starts_eq]
  dsimp only
  rw [guardOk_pos (by omega), ok_bind, hh.keyed, ok_bind, hsort, hids,
    ok_bind, hresize, hh.ids_eq]
  dsimp only
  rw [guardOk_pos, ok_bind]
  rw [hh.slots.size, List.length_append, List.length_map, List.length_replicate, holen, hh.size]
  omega

/-! ## Runs -/

/-- What a call of `add` does to the strings. -/
def plainAdd (l : List (List U8)) (bytes : List U8) : HashResult U32 → List (List U8)
  | .ok _ => if bytes ∈ l then l else l ++ [bytes]
  | .error _ => l

/-- Some run of calls builds the hash `h`, and `l` are the strings that were
added since it was emptied last. -/
inductive Reaches : BytesRefHash → List (List U8) → Prop where
  | new {h : BytesRefHash} {capacity : Nat} {seed : U32}
      (hnew : withCapacity capacity seed = .ok h) : Reaches h []
  | add {h h' : BytesRefHash} {l : List (List U8)} {r : HashResult U32} (hh : Reaches h l)
      (bytes : List U8) (hrun : h.add bytes = .ok (h', r)) :
      Reaches h' (plainAdd l bytes r)
  | clear {h : BytesRefHash} {l : List (List U8)} (hh : Reaches h l) (resetPool : Bool) :
      Reaches (h.clear resetPool).reinit []
  | close {h : BytesRefHash} {l : List (List U8)} (hh : Reaches h l) :
      Reaches h.close.reinit []

/-- The invariant of the runs. -/
theorem Reaches.holds (hh : Reaches h l) : h.Holds l := by
  induction hh with
  | new hnew => exact withCapacity_holds hnew
  | clear _ resetPool ih => exact ih.clear_reinit resetPool
  | close _ ih => exact ih.close_reinit
  | add _ bytes hrun ih =>
    obtain ⟨k, starts, ids, hh⟩ := ih
    have hspec := hh.add_spec bytes
    split at hspec
    · rename_i hmem
      rw [hrun] at hspec
      cases hspec
      rw [plainAdd, if_pos hmem]
      exact ⟨k, starts, ids, hh⟩
    · rename_i hnew
      split at hspec
      · rw [hrun] at hspec
        cases hspec
        exact ⟨k, starts, ids, hh⟩
      · split at hspec
        · rw [hrun] at hspec
          cases hspec
          exact ⟨k, starts, ids, hh⟩
        · obtain ⟨h', hok, hholds⟩ := hspec
          rw [hrun] at hok
          cases hok
          rw [plainAdd, if_neg hnew]
          exact hholds

/-- `get`. -/
theorem HoldsAt.get_spec (hh : h.HoldsAt l k starts ids) (i : Nat) :
    h.get i = .ok l[i]? := by
  have hslen := hh.starts_len
  rw [get, hh.starts_eq]
  dsimp only
  by_cases hi : i < l.length
  · obtain ⟨start, hstart, hstored⟩ := hh.stored i _ (List.getElem?_eq_getElem hi)
    rw [hstart, List.getElem?_eq_getElem hi]
    dsimp only
    rw [BytesRefBlockPool.get_stored hstored, ok_bind]
  · rw [List.getElem?_eq_none (by omega), List.getElem?_eq_none (by omega)]

/-- `byte_start`. -/
theorem HoldsAt.byteStart_spec (hh : h.HoldsAt l k starts ids) (i : Nat) :
    match l[i]? with
    | some b => ∃ start, h.byteStart i = some start ∧ h.pool.get start = .ok b
    | none => h.byteStart i = none := by
  have hslen := hh.starts_len
  have hbyte : h.byteStart i = starts[i]? := by
    rw [byteStart, hh.starts_eq]
    rfl
  rw [hbyte]
  split
  · rename_i b hb
    obtain ⟨start, hstart, hstored⟩ := hh.stored i b hb
    exact ⟨start, hstart, BytesRefBlockPool.get_stored hstored⟩
  · rename_i hnone
    rw [List.getElem?_eq_none_iff] at hnone
    exact List.getElem?_eq_none (by omega)

/-- After any run the hash answers as the list of the strings that were added,
each once.  No call panics or probes on without end, an `add` that fails leaves
the hash as it was, and `sort` gives the ids in the order of their strings. -/
theorem reaches_ordered_set (hh : Reaches h l) :
    l.Nodup ∧ h.count = l.length ∧ l.length < 2 ^ 30 ∧
      (∀ bytes, if bytes ∈ l then
          h.add bytes = .ok (h, .ok (-(BitVec.ofNat 32 (l.idxOf bytes) + 1)))
        else if 32766 < bytes.length then
          h.add bytes = .ok (h, .error (.maxBytesLengthExceeded bytes.length))
        else if h.pool.Full bytes then h.add bytes = .ok (h, .error .poolOverflow)
        else ∃ h', h.add bytes = .ok (h', .ok (BitVec.ofNat 32 l.length)) ∧
          Reaches h' (l ++ [bytes])) ∧
      (∀ bytes, h.find bytes =
        .ok (.ok (if bytes ∈ l then BitVec.ofNat 32 (l.idxOf bytes) else -1))) ∧
      (∀ i : Nat, h.get i = .ok l[i]?) ∧
      (∀ i : Nat, match l[i]? with
        | some b => ∃ start, h.byteStart i = some start ∧ h.pool.get start = .ok b
        | none => h.byteStart i = none) ∧
      ∃ (h' : BytesRefHash) (order : List Nat), h.sort = .ok (h',
          order.map (BitVec.ofNat 32) ++ List.replicate (h.hashSize - l.length) (-1)) ∧
        order.Perm (List.range l.length) ∧
        (order.map fun i => l.getD i []).Pairwise (· < ·) := by
  obtain ⟨k, starts, ids, hold⟩ := hh.holds
  refine ⟨hold.nodup, hold.count_eq, hold.length_lt, fun bytes => ?_, hold.find_spec,
    hold.get_spec, hold.byteStart_spec, hold.sort_spec⟩
  have hspec := hold.add_spec bytes
  split at hspec
  · rename_i hmem
    rw [if_pos hmem]
    exact hspec
  · rename_i hnew
    rw [if_neg hnew]
    split at hspec
    · rename_i hlong
      rw [if_pos hlong]
      exact hspec
    · rename_i hlong
      rw [if_neg hlong]
      split at hspec
      · rename_i hfull
        rw [if_pos hfull]
        exact hspec
      · rename_i hfull
        rw [if_neg hfull]
        obtain ⟨h', hok, _⟩ := hspec
        refine ⟨h', hok, ?_⟩
        have hstep := Reaches.add hh bytes hok
        rwa [plainAdd, if_neg hnew] at hstep

/-- Three strings go into a table of two slots, which is made larger twice, and
the first of them is added again.  The ids are sorted by their strings. -/
theorem reaches_ordered_set_twice : ∃ h₀ h₁ h₂ h₃ h' : BytesRefHash,
    withCapacity 2 7#32 = .ok h₀ ∧ h₀.add [98#8] = .ok (h₁, .ok 0#32) ∧
      h₁.add [97#8, 99#8] = .ok (h₂, .ok 1#32) ∧ h₂.add [99#8] = .ok (h₃, .ok 2#32) ∧
      8 ≤ h₃.hashSize ∧ h₃.add [98#8] = .ok (h₃, .ok (-1)) ∧
      h₃.find [97#8, 99#8] = .ok (.ok 1#32) ∧ h₃.find [100#8] = .ok (.ok (-1)) ∧
      h₃.get 2 = .ok (some [99#8]) ∧
      h₃.sort = .ok (h', [1#32, 0#32, 2#32] ++ List.replicate (h₃.hashSize - 3) (-1)) := by
  obtain ⟨h₀, hcap, hpool⟩ := withCapacity_ok (k := 1) (by decide) (by decide) 7#32
  have hempty : h₀.pool.blocks.length = 0 := by
    rw [hpool]
    rfl
  have hnew : Reaches h₀ [] := .new hcap
  have hadd₀ := (reaches_ordered_set hnew).2.2.2.1 [98#8]
  rw [if_neg (by decide), if_neg (by decide), if_neg fun hfull => by
    have := hfull.2
    omega] at hadd₀
  obtain ⟨h₁, hok₁, hreach₁⟩ := hadd₀
  have hle₁ := add_blocks hok₁
  have hadd₁ := (reaches_ordered_set hreach₁).2.2.2.1 [97#8, 99#8]
  rw [if_neg (by decide), if_neg (by decide), if_neg fun hfull => by
    have := hfull.2
    omega] at hadd₁
  obtain ⟨h₂, hok₂, hreach₂⟩ := hadd₁
  have hle₂ := add_blocks hok₂
  have hadd₂ := (reaches_ordered_set hreach₂).2.2.2.1 [99#8]
  rw [if_neg (by decide), if_neg (by decide), if_neg fun hfull => by
    have := hfull.2
    omega] at hadd₂
  obtain ⟨h₃, hok₃, hreach₃⟩ := hadd₂
  obtain ⟨_, _, _, hagain, hfind, hget, _, h', order, hsort, hperm, hsorted⟩ :=
    reaches_ordered_set hreach₃
  have horder : order = [1, 0, 2] := by
    have honly : ∀ o ∈ (List.range 3).permutations',
        (o.map fun i => [[98#8], [97#8, 99#8], [99#8]].getD i []).Pairwise (· < ·) →
          o = [1, 0, 2] := by decide
    exact honly order (List.mem_permutations'.2 hperm) hsorted
  refine ⟨h₀, h₁, h₂, h₃, h', hcap, hok₁, hok₂, hok₃, ?_, ?_, ?_, ?_, hget 2, ?_⟩
  · -- Three strings are less than half of the slots.
    obtain ⟨k, starts, ids, hold⟩ := hreach₃.holds
    have hroom : 3 < 2 ^ (k - 1) := hold.room
    have hk : 2 < k - 1 + 1 := (Nat.pow_lt_pow_iff_right (a := 2) (by decide)).1 (by omega)
    rw [hold.size]
    exact Nat.pow_le_pow_right (n := 2) (by decide) (by omega : 3 ≤ k)
  · have := hagain [98#8]
    rwa [if_pos (by decide)] at this
  · have := hfind [97#8, 99#8]
    rwa [if_pos (by decide)] at this
  · have := hfind [100#8]
    rwa [if_neg (by decide)] at this
  · rw [horder] at hsort
    exact hsort

end BytesRefHash

end LuceneRust.Util
