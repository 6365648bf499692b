import LuceneRust.Store.Cursor
import LuceneRust.Store.RoundTrip

/-!
# The overrides of `SliceInput` are the defaults

Each override of `SliceInput` is shown to be the provided method as a program:
from every position it ends with the same value or the same error, and leaves
the same position.

* A varint in view is what the byte loop reads (`iterate_varintPass`,
  `iterate_zlongPass`), and one that is not in view goes to that loop.
* `Complete` says that the bytes of a whole group are there.  Both decoders of
  a group off the slice take exactly a complete group (`Takes`), and the default
  reads the same values out of one, with peeks or without (`group_complete`).
* `takeGroups_bind` puts the groups off the slice in front of a decoder that
  reads complete groups in the same way.
-/

namespace LuceneRust.Store

open RustSem StateHoare

namespace Cursor

/-- The next `n` bytes, off the buffer. -/
theorem view_eq (inp : SliceInput) (n : Nat) :
    slice inp.buf inp.pos (inp.pos + n) =
      if n ≤ inp.rest.length then some (inp.rest.take n) else none := by
  have hle := inp.pos_le
  have hlen := inp.rest_length
  rw [SliceInput.remaining] at hlen
  by_cases h : n ≤ inp.rest.length
  · rw [if_pos h, slice_eq_some (by omega) (by omega), Nat.add_sub_cancel_left]
    rfl
  · rw [if_neg h, slice_eq_none (by omega)]

/-! ## The required methods -/

section Required

variable {α : Type} {rd : SliceInput → Result (α × SliceInput)} {inp inp' : SliceInput} {a : α}
  {e : Error} {b : U8} {bs : List U8} {n : Nat}

theorem of_ok (h : rd inp = .ok (a, inp')) : of rd inp = (.ok a, inp') := by
  simp only [of, h]

theorem of_err (h : rd inp = .err e) : of rd inp = (.err e, inp) := by
  simp only [of, h]

theorem readByte_cons (h : inp.rest = b :: bs) : readByte inp = (.ok b, inp.advance 1) :=
  of_ok (SliceInput.readByte_cons h)

variable {canPeek : Bool} {rv : Cursor U32}

theorem readBytes_of_le (h : n ≤ inp.rest.length) :
    (dataInput canPeek rv).readBytes n inp = (.ok (inp.rest.take n), inp.advance n) := by
  dsimp only [dataInput]
  exact of_ok (SliceInput.readN_of_le h)

theorem skip_of_le (h : n ≤ inp.rest.length) :
    (dataInput canPeek rv).skip n inp = (.ok (), inp.advance n) := by
  dsimp only [dataInput]
  refine of_ok ?_
  rw [SliceInput.skip_of_le h]
  rfl

theorem peekU32Le_of_le (h : 4 ≤ inp.rest.length) :
    (dataInput true rv).peekU32Le inp = (.ok (fromLeBytes 32 (inp.rest.take 4)), inp) := by
  dsimp only [dataInput]
  refine of_ok ?_
  rw [if_pos rfl, SliceInput.peekU32Le, SliceInput.readLe, SliceInput.readN_of_le h]
  rfl

end Required

/-! ## Varints -/

/-- A byte with the continuation bit. -/
theorem cont_byte {b : U8} (h : ¬ b < 0x80#8) : b &&& 0x80#8 ≠ 0#8 := by
  revert b
  decide +kernel

/-- The byte loop behind a byte at the index `i`, where the decoder in view
finishes. -/
theorem iterate_varintPass {w maxShift : Nat} (tail : List U8) :
    ∀ (xs : List U8) (x : U8) (i fuel : Nat) (v v' : BitVec w) (n : Nat) (inp : SliceInput),
      inp.rest = xs ++ tail → 7 * (i + xs.length) ≤ maxShift → xs.length < fuel →
      (if x < 0x80#8 then some (v, i + 1) else varintFast w xs (i + 1) v) = some (v', n) →
      ∃ m, n = i + 1 + m ∧
        Op.iterate (varintPass readByte w maxShift) fuel (x, v, 7 * (i + 1)) inp =
          (.ok v', inp.advance m) := by
  intro xs
  induction xs with
  | nil =>
    intro x i fuel v v' n inp _ _ hfuel hfast
    obtain ⟨fuel, rfl⟩ : ∃ k, fuel = k + 1 := ⟨fuel - 1, by omega⟩
    by_cases hx : x < 0x80#8
    · rw [if_pos hx] at hfast
      obtain ⟨rfl, rfl⟩ := Prod.mk.inj (Option.some.inj hfast)
      refine ⟨0, rfl, Op.iterate_leave ?_⟩
      rw [varintPass, if_neg (not_not_intro (last_byte hx).2.2), SliceInput.advance_zero]
      rfl
    · rw [if_neg hx, varintFast] at hfast
      cases hfast
  | cons y ys ih =>
    intro x i fuel v v' n inp hrest hshift hfuel hfast
    rw [List.length_cons] at hshift hfuel
    obtain ⟨fuel, rfl⟩ : ∃ k, fuel = k + 1 := ⟨fuel - 1, by omega⟩
    by_cases hx : x < 0x80#8
    · rw [if_pos hx] at hfast
      obtain ⟨rfl, rfl⟩ := Prod.mk.inj (Option.some.inj hfast)
      refine ⟨0, rfl, Op.iterate_leave ?_⟩
      rw [varintPass, if_neg (not_not_intro (last_byte hx).2.2), SliceInput.advance_zero]
      rfl
    · rw [if_neg hx, varintFast] at hfast
      have hread := readByte_cons (show inp.rest = y :: (ys ++ tail) from hrest)
      have hrest' : (inp.advance 1).rest = ys ++ tail := by
        rw [SliceInput.rest_advance, hrest]
        rfl
      obtain ⟨m, hm, hrun⟩ := ih y (i + 1) fuel _ v' n (inp.advance 1) hrest' (by omega)
        (by omega) hfast
      refine ⟨1 + m, by omega, ?_⟩
      have hpass : varintPass readByte w maxShift (x, v, 7 * (i + 1)) inp =
          (.ok (.inl (y, v ||| ((y &&& 0x7F#8).setWidth w <<< (7 * (i + 1) % w)),
            7 * (i + 1 + 1))), inp.advance 1) := by
        rw [varintPass, if_pos (cont_byte hx), if_neg (by omega), bind_ok hread]
        rfl
      rw [Op.iterate_continue hpass, hrun, SliceInput.advance_advance]

/-- A varint in view is what the byte loop reads. -/
theorem varintLoop_of_fast {w maxShift n m : Nat} {inp : SliceInput} {v : BitVec w}
    (hn : n < 11) (hshift : 7 * n ≤ maxShift) (hview : n + 1 ≤ inp.rest.length)
    (hfast : varintFast w (inp.rest.take (n + 1)) 0 0#w = some (v, m)) :
    varintLoop readByte w maxShift inp = (.ok v, inp.advance m) := by
  obtain ⟨x, bs, hrest⟩ := List.exists_cons_of_length_pos (show 0 < inp.rest.length by omega)
  have hrest' : (inp.advance 1).rest = bs.take n ++ bs.drop n := by
    rw [SliceInput.rest_advance, hrest, List.take_append_drop]
    rfl
  have hlen : (bs.take n).length = n := by
    rw [hrest, List.length_cons] at hview
    rw [List.length_take]
    omega
  rw [hrest, List.take_succ_cons, varintFast, Nat.mul_zero, Nat.zero_mod,
    BitVec.shiftLeft_zero, BitVec.zero_or] at hfast
  obtain ⟨k, hk, hrun⟩ := iterate_varintPass _ (bs.take n) x 0 11 _ v m (inp.advance 1) hrest'
    (show 7 * (0 + (bs.take n).length) ≤ maxShift by omega) (by omega) hfast
  rw [varintLoop, bind_ok (readByte_cons hrest), hrun, SliceInput.advance_advance, hk]

/-- The byte loop of a zlong in front of a byte at the index `i`. -/
theorem iterate_zlongPass (tail : List U8) :
    ∀ (xs : List U8) (i fuel : Nat) (v v' : U64) (n : Nat) (inp : SliceInput),
      inp.rest = xs ++ tail → i + xs.length ≤ 10 → xs.length < fuel →
      varintFast 64 xs i v = some (v', n) →
      ∃ m, n = i + m ∧
        Op.iterate (zlongPass readByte) fuel (v, 7 * i) inp = (.ok v', inp.advance m) := by
  intro xs
  induction xs with
  | nil =>
    intro i fuel v v' n inp _ _ _ hfast
    cases hfast
  | cons x xs ih =>
    intro i fuel v v' n inp hrest hlen hfuel hfast
    rw [List.length_cons] at hlen hfuel
    obtain ⟨fuel, rfl⟩ : ∃ k, fuel = k + 1 := ⟨fuel - 1, by omega⟩
    have hread := readByte_cons (show inp.rest = x :: (xs ++ tail) from hrest)
    rw [varintFast] at hfast
    by_cases hx : x < 0x80#8
    · rw [if_pos hx] at hfast
      obtain ⟨rfl, rfl⟩ := Prod.mk.inj (Option.some.inj hfast)
      refine ⟨1, rfl, Op.iterate_leave ?_⟩
      rw [zlongPass, bind_ok hread, if_pos (last_byte hx).2.2]
      rfl
    · rw [if_neg hx] at hfast
      have hrest' : (inp.advance 1).rest = xs ++ tail := by
        rw [SliceInput.rest_advance, hrest]
        rfl
      -- The tenth byte is the last one in view, so that a byte behind it is not.
      have hnext : i + 1 < 10 := by
        by_contra hge
        obtain rfl := List.length_eq_zero_iff.1 (show xs.length = 0 by omega)
        cases hfast
      obtain ⟨m, hm, hrun⟩ := ih (i + 1) fuel _ v' n (inp.advance 1) hrest' (by omega)
        (by omega) hfast
      refine ⟨1 + m, by omega, ?_⟩
      have hpass : zlongPass readByte (v, 7 * i) inp =
          (.ok (.inl (v ||| ((x &&& 0x7F#8).setWidth 64 <<< (7 * i % 64)), 7 * (i + 1))),
            inp.advance 1) := by
        rw [zlongPass, bind_ok hread, if_neg (cont_byte hx), if_neg (by omega)]
        rfl
      rw [Op.iterate_continue hpass, hrun, SliceInput.advance_advance]

/-- The decoder in view is its slow path, where it agrees with it in view. -/
theorem readInView_eq {w window : Nat} {slow : Cursor (BitVec w)}
    (h : ∀ (inp : SliceInput) (v : BitVec w) (n : Nat), window ≤ inp.rest.length →
      varintFast w (inp.rest.take window) 0 0#w = some (v, n) →
      slow inp = (.ok v, inp.advance n)) : readInView w window slow = slow := by
  funext inp
  rw [readInView, get_bind, view_eq]
  by_cases hview : window ≤ inp.rest.length
  · rw [if_pos hview, Option.bind_some]
    rcases hfast : varintFast w (inp.rest.take window) 0 0#w with - | ⟨v, n⟩
    · rfl
    · exact (h inp v n hview hfast).symm
  · rw [if_neg hview]
    rfl

theorem readVint_eq : readVint = varintLoop readByte 32 28 :=
  readInView_eq fun _ _ _ hview hfast => varintLoop_of_fast (by decide) (by decide) hview hfast

theorem readVlong_eq : readVlong = varintLoop readByte 64 63 :=
  readInView_eq fun _ _ _ hview hfast => varintLoop_of_fast (by decide) (by decide) hview hfast

theorem readZlong_eq (canPeek : Bool) : readZlong = (plainInput canPeek).readZlong := by
  have hview : readInView 64 10 (zlongLoop readByte) = zlongLoop readByte := by
    refine readInView_eq fun inp v n hview hfast => ?_
    have hlen : (inp.rest.take 10).length = 10 := by
      rw [List.length_take]
      omega
    obtain ⟨m, hm, hrun⟩ := iterate_zlongPass (inp.rest.drop 10) _ 0 11 0#64 v n inp
      (List.take_append_drop ..).symm (by omega) (by omega) hfast
    rw [zlongLoop, hm, Nat.zero_add]
    exact hrun
  rw [readZlong, hview]
  rfl

/-- A slice that may be peeked at is the one with the overrides. -/
theorem sliceInput_eq : sliceInput = plainInput true := by
  rw [sliceInput, readVint_eq, plainInput]

/-! ## Strings -/

/-- A length that was read is one of bytes that are there. -/
theorem returns_readLength (canPeek : Bool) (rv : Cursor U32) (what : String) :
    Returns (fun _ => True) ((dataInput canPeek rv).readLength what)
      fun inp len => len ≤ inp.rest.length := by
  refine returns_bind (Q := fun _ _ => True) (fun _ _ _ _ _ => trivial) fun v => ?_
  by_cases hneg : v.toInt < 0
  · rw [if_pos hneg]
    exact returns_lift fun _ _ _ h => nomatch h
  · rw [if_neg hneg]
    intro inp len inp' _ hrun
    dsimp only [dataInput] at hrun
    rw [get_bind] at hrun
    by_cases hlong : inp.remaining < v.toInt.toNat
    · rw [if_pos hlong] at hrun
      cases hrun
    · rw [if_neg hlong] at hrun
      obtain ⟨hlen, rfl⟩ := Prod.mk.inj hrun
      rw [← Outcome.ok.inj hlen, SliceInput.rest_length]
      omega

theorem readString_eq (canPeek : Bool) : readString = (plainInput canPeek).readString := by
  have hlength : sliceInput.readLength "string" = (plainInput canPeek).readLength "string" := by
    rw [sliceInput_eq]
    rfl
  funext inp
  rw [readString, DataInput.readString, hlength]
  rcases hrun : (plainInput canPeek).readLength "string" inp with ⟨len | e | -, inp'⟩
  · have hlen := returns_readLength canPeek _ "string" inp len inp' trivial hrun
    rw [bind_ok hrun, bind_ok hrun, get_bind, view_eq, if_pos hlen, plainInput,
      bind_ok (readBytes_of_le hlen)]
    rfl
  · rw [bind_err hrun, bind_err hrun]
  · rw [bind_panic hrun, bind_panic hrun]

/-! ## One group -/

/-- The values that lie one behind the other in `bs`, at their lengths. -/
def groupValues : List Nat → List U8 → List U32
  | [], _ => []
  | n :: lens, bs => fromLeBytes 32 (bs.take (n + 1)) :: groupValues lens (bs.drop (n + 1))

/-- The bytes of the values of the lengths `lens`. -/
def groupNeed (lens : List Nat) : Nat := (lens.map (· + 1)).sum

@[simp] theorem groupNeed_nil : groupNeed [] = 0 := rfl

theorem groupNeed_cons (n : Nat) (lens : List Nat) :
    groupNeed (n :: lens) = n + 1 + groupNeed lens := by
  rw [groupNeed, List.map_cons, List.sum_cons]
  rfl

theorem groupNeed_le (lens : List Nat) (h : ∀ n ∈ lens, n ≤ 3) :
    groupNeed lens ≤ 4 * lens.length := by
  induction lens with
  | nil => exact Nat.le_refl 0
  | cons n lens ih =>
    have hn := h n List.mem_cons_self
    have hrest := ih fun m hm => h m (List.mem_cons_of_mem _ hm)
    rw [groupNeed_cons, List.length_cons]
    omega

theorem groupLens_le {flag : U8} : ∀ n ∈ groupLens flag, n ≤ 3 := by
  intro n hn
  simp only [groupLens, List.mem_cons, List.not_mem_nil, or_false] at hn
  rcases hn with rfl | rfl | rfl | rfl <;> exact Nat.and_le_right

/-- A word masked to the length of its value is the word of that many bytes. -/
theorem and_groupMask {n : Nat} (hn : n ≤ 3) (bs : List U8) :
    fromLeBytes 32 (bs.take 4) &&& SliceInput.groupMask n = fromLeBytes 32 (bs.take (n + 1)) := by
  apply BitVec.eq_of_getLsbD_eq
  intro i hi
  rw [BitVec.getLsbD_and, groupMask_getLsbD hn hi, getLsbD_fromLeBytes, getLsbD_fromLeBytes,
    List.getD_eq_getElem?_getD, List.getD_eq_getElem?_getD, List.getElem?_take_of_lt (by omega)]
  by_cases h : i < 8 * (n + 1)
  · rw [List.getElem?_take_of_lt (by omega), decide_eq_true h, Bool.and_true]
  · rw [List.getElem?_take_eq_none (by omega), decide_eq_false h, Bool.and_false,
      Option.getD_none]
    simp

section Values

variable {canPeek : Bool} {rv : Cursor U32} {inp : SliceInput} {n : Nat}

theorem plainValue_eq (h : n + 1 ≤ inp.rest.length) :
    (dataInput canPeek rv).plainValue n inp =
      (.ok ((fromLeBytes 32 (inp.rest.take (n + 1))).setWidth 64), inp.advance (n + 1)) := by
  rw [DataInput.plainValue, bind_ok (readBytes_of_le h)]
  rfl

theorem peekValue_eq (hn : n ≤ 3) (h : 4 ≤ inp.rest.length) :
    (dataInput true rv).peekValue n inp =
      (.ok ((fromLeBytes 32 (inp.rest.take (n + 1))).setWidth 64), inp.advance (n + 1)) := by
  rw [DataInput.peekValue, bind_ok (peekU32Le_of_le h), bind_ok (skip_of_le (by omega)),
    and_groupMask hn]
  rfl

/-- The bytes behind a value. -/
theorem rest_advance_length : (inp.advance n).rest.length = inp.rest.length - n := by
  rw [SliceInput.rest_advance, List.length_drop]

/-- Peeked values are the values read byte by byte, as long as no peek can run
past the end. -/
theorem mapM_peekValue (lens : List Nat) (hlens : ∀ n ∈ lens, n ≤ 3) :
    ∀ inp : SliceInput, 4 * lens.length ≤ inp.rest.length →
      lens.mapM (dataInput true rv).peekValue inp =
        lens.mapM (dataInput canPeek rv).plainValue inp := by
  induction lens with
  | nil => exact fun _ _ => rfl
  | cons n lens ih =>
    intro inp h
    rw [List.length_cons] at h
    have hn := hlens n List.mem_cons_self
    rw [List.mapM_cons, List.mapM_cons, bind_ok (peekValue_eq hn (by omega)),
      bind_ok (plainValue_eq (by omega)), Op.bind_apply, Op.bind_apply,
      ih (fun m hm => hlens m (List.mem_cons_of_mem _ hm)) _
        (by rw [rest_advance_length]; omega)]

/-- The values of a group that is there. -/
theorem mapM_plainValue (lens : List Nat) :
    ∀ inp : SliceInput, groupNeed lens ≤ inp.rest.length →
      lens.mapM (dataInput canPeek rv).plainValue inp =
        (.ok ((groupValues lens inp.rest).map (·.setWidth 64)),
          inp.advance (groupNeed lens)) := by
  induction lens with
  | nil =>
    intro inp _
    rw [groupNeed_nil, SliceInput.advance_zero]
    rfl
  | cons n lens ih =>
    intro inp h
    rw [groupNeed_cons] at h
    have hrest := ih (inp.advance (n + 1)) (by rw [rest_advance_length]; omega)
    rw [List.mapM_cons, bind_ok (plainValue_eq (by omega)), bind_ok hrest,
      SliceInput.rest_advance, SliceInput.advance_advance, groupNeed_cons]
    rfl

/-- Whether a group is peeked. -/
theorem peekable_eq (inp : SliceInput) : (dataInput canPeek rv).peekable inp =
    (.ok (canPeek && decide (16 ≤ inp.rest.length)), inp) := by
  have hlen := inp.rest_length
  rw [DataInput.peekable]
  dsimp only [dataInput]
  rw [get_bind]
  by_cases hshort : inp.remaining < 16
  · rw [if_pos hshort, decide_eq_false (by omega), Bool.and_false]
    rfl
  · rw [if_neg hshort, decide_eq_true (by omega), Bool.and_true]
    cases canPeek with
    | true =>
      have hpeek : (dataInput true rv).peekU32Le inp =
          (.ok (fromLeBytes 32 (inp.rest.take 4)), inp) := peekU32Le_of_le (by omega)
      have hattempt : Op.attempt (dataInput true rv).peekU32Le inp =
          (.ok (.ok (fromLeBytes 32 (inp.rest.take 4))), inp) := by
        rw [Op.attempt, hpeek]
      exact bind_ok hattempt
    | false => rfl

/-- A group is read byte by byte, or as if it were. -/
theorem group_eq (canPeek : Bool) : (dataInput canPeek rv).group = (do
    let flag ← readByte
    (groupLens flag).mapM (dataInput false rv).plainValue) := by
  funext inp
  rw [DataInput.group]
  rcases hread : readByte inp with ⟨flag | e | -, inp'⟩
  · have hread' : (dataInput canPeek rv).readByte inp = (.ok flag, inp') := hread
    rw [bind_ok hread, bind_ok hread', bind_ok (peekable_eq inp')]
    by_cases hwide : (canPeek && decide (16 ≤ inp'.rest.length)) = true
    · obtain ⟨rfl, hview⟩ := Bool.and_eq_true_iff.1 hwide
      rw [if_pos hwide]
      exact mapM_peekValue _ groupLens_le inp' (of_decide_eq_true hview)
    · rw [if_neg hwide]
      rfl
  · have hread' : (dataInput canPeek rv).readByte inp = (.err e, inp') := hread
    rw [bind_err hread, bind_err hread']
  · have hread' : (dataInput canPeek rv).readByte inp = (.panic, inp') := hread
    rw [bind_panic hread, bind_panic hread']

/-- A group whose bytes are all there. -/
theorem group_complete {flag : U8} {bs : List U8} (hrest : inp.rest = flag :: bs)
    (hneed : groupNeed (groupLens flag) ≤ bs.length) :
    (dataInput canPeek rv).group inp =
      (.ok ((groupValues (groupLens flag) bs).map (·.setWidth 64)),
        inp.advance (1 + groupNeed (groupLens flag))) := by
  have hrest' : (inp.advance 1).rest = bs := by
    rw [SliceInput.rest_advance, hrest]
    rfl
  rw [group_eq, bind_ok (readByte_cons hrest), mapM_plainValue _ _ (by rw [hrest']; exact hneed),
    hrest', SliceInput.advance_advance]

theorem groups_eq (canPeek : Bool) (n : Nat) :
    (dataInput canPeek rv).groups n = (dataInput false rv).groups n := by
  induction n with
  | zero => rfl
  | succ n ih => rw [DataInput.groups, DataInput.groups, ih, group_eq, group_eq false]

theorem vints_eq (canPeek : Bool) (n : Nat) :
    (dataInput canPeek rv).vints n = (dataInput false rv).vints n := by
  induction n with
  | zero => rfl
  | succ n ih =>
    rw [DataInput.vints, DataInput.vints, ih]
    rfl

/-- The default decoder does not depend on the peeks. -/
theorem groupVintsDefault_eq (canPeek : Bool) (limit : Nat) :
    (dataInput canPeek rv).groupVintsDefault limit =
      (dataInput false rv).groupVintsDefault limit := by
  rw [DataInput.groupVintsDefault, DataInput.groupVintsDefault, groups_eq, vints_eq]

/-- A group in front of the others. -/
theorem groupVintsDefault_succ (d : DataInput SliceInput) {r : Nat} (hr : r < 4) (n : Nat) :
    d.groupVintsDefault (4 * (n + 1) + r) = (do
      let values ← d.group
      let rest ← d.groupVintsDefault (4 * n + r)
      pure (values ++ rest)) := by
  rw [DataInput.groupVintsDefault, DataInput.groupVintsDefault,
    show (4 * (n + 1) + r) / 4 = n + 1 by omega, show (4 * (n + 1) + r) % 4 = r by omega,
    show (4 * n + r) / 4 = n by omega, show (4 * n + r) % 4 = r by omega, DataInput.groups]
  simp only [bind_assoc, pure_bind, List.append_assoc]

end Values

/-! ## The decoders off the slice -/

/-- `one` takes a complete group, or nothing. -/
def Takes (one : Cursor (Option (List U32))) : Prop :=
  ∀ inp, one inp = (.ok none, inp) ∨
    ∃ flag bs, inp.rest = flag :: bs ∧ groupNeed (groupLens flag) ≤ bs.length ∧
      one inp = (.ok (some (groupValues (groupLens flag) bs)),
        inp.advance (1 + groupNeed (groupLens flag)))

/-- `next` reads a complete group in front of the groups behind it, and hands
its values on as `put`. -/
def ReadsGroups {β : Type} (put : U32 → β) (next : Nat → Cursor (List β)) : Prop :=
  ∀ (groups : Nat) (inp : SliceInput) (flag : U8) (bs : List U8), inp.rest = flag :: bs →
    groupNeed (groupLens flag) ≤ bs.length →
    next (groups + 1) inp = (do
      let rest ← next groups
      pure ((groupValues (groupLens flag) bs).map put ++ rest))
        (inp.advance (1 + groupNeed (groupLens flag)))

/-- Groups that are taken off the slice, in front of `next`. -/
theorem takeGroups_bind {β : Type} {put : U32 → β} {one : Cursor (Option (List U32))}
    {next : Nat → Cursor (List β)} (hone : Takes one) (hnext : ReadsGroups put next)
    (groups : Nat) : (do
      let taken ← takeGroups one groups
      let rest ← next taken.2
      pure (taken.1.map put ++ rest)) = next groups := by
  induction groups with
  | zero =>
    rw [takeGroups, pure_bind]
    exact bind_pure _
  | succ groups ih =>
    funext inp
    rw [takeGroups, bind_assoc]
    rcases hone inp with hnone | ⟨flag, bs, hrest, hneed, hsome⟩
    · rw [bind_ok hnone, pure_bind]
      exact congrFun (bind_pure _) inp
    · rw [bind_ok hsome, hnext groups inp flag bs hrest hneed, ← ih]
      simp only [bind_assoc, pure_bind, List.map_append, List.append_assoc]

/-- The values of a group lie in its bytes. -/
theorem groupValues_take (lens : List Nat) :
    ∀ (k : Nat) (bs : List U8), groupNeed lens ≤ k →
      groupValues lens (bs.take k) = groupValues lens bs := by
  induction lens with
  | nil => exact fun _ _ _ => rfl
  | cons n lens ih =>
    intro k bs h
    rw [groupNeed_cons] at h
    rw [groupValues, groupValues, List.take_take, Nat.min_eq_left (by omega), List.drop_take,
      ih _ _ (by omega)]

theorem slice_drop {bytes : List U8} {at' n : Nat} (h : at' + n ≤ bytes.length) :
    slice bytes at' (at' + n) = some ((bytes.drop at').take n) := by
  rw [slice_eq_some (by omega) h, Nat.add_sub_cancel_left]

theorem valuesInView_eq (bytes : List U8) (lens : List Nat) (hlens : ∀ n ∈ lens, n ≤ 3) :
    ∀ at', at' + 4 * lens.length ≤ bytes.length →
      valuesInView bytes lens at' =
        .ok (groupValues lens (bytes.drop at'), at' + groupNeed lens) := by
  induction lens with
  | nil => exact fun _ _ => rfl
  | cons n lens ih =>
    intro at' h
    have hn := hlens n List.mem_cons_self
    rw [List.length_cons] at h
    rw [valuesInView, slice_drop (by omega), expect_some, ok_bind,
      ih (fun m hm => hlens m (List.mem_cons_of_mem _ hm)) _ (by omega), ok_bind,
      groupValues, and_groupMask hn, List.drop_drop, groupNeed_cons]
    simp only [Nat.add_assoc]

theorem wholeValues_eq (bytes : List U8) (lens : List Nat) :
    ∀ at', at' + groupNeed lens ≤ bytes.length →
      wholeValues bytes (lens.map (· + 1)) at' = .ok (groupValues lens (bytes.drop at')) := by
  induction lens with
  | nil => exact fun _ _ => rfl
  | cons n lens ih =>
    intro at' h
    rw [groupNeed_cons] at h
    rw [List.map_cons, wholeValues, slice_drop (by omega), expect_some, ok_bind,
      ih _ (by omega), ok_bind, groupValues, List.drop_drop]

theorem takes_groupInView : Takes groupInView := by
  intro inp
  rw [groupInView, get_bind, view_eq]
  by_cases hview : 17 ≤ inp.rest.length
  · right
    obtain ⟨flag, bs, hrest⟩ := List.exists_cons_of_length_pos
      (show 0 < inp.rest.length by omega)
    have hneed : groupNeed (groupLens flag) ≤ 16 := groupNeed_le _ groupLens_le
    have hlen : bs.length + 1 = inp.rest.length := by rw [hrest, List.length_cons]
    have hvalues := valuesInView_eq (flag :: bs.take 16) (groupLens flag) groupLens_le 1
      (by
        rw [List.length_cons, List.length_take]
        exact Nat.add_le_add_right (Nat.le_min.2 ⟨Nat.le_refl 16, by omega⟩) 1)
    rw [List.drop_succ_cons, List.drop_zero, groupValues_take _ _ _ hneed] at hvalues
    refine ⟨flag, bs, hrest, by omega, ?_⟩
    rw [if_pos hview, hrest, List.take_succ_cons]
    change ((Op.lift (valuesInView (flag :: bs.take 16) (groupLens flag) 1) :
      Cursor (List U32 × Nat)) >>= _) inp = _
    rw [hvalues]
    rfl
  · left
    rw [if_neg hview]
    rfl

theorem takes_wholeGroup : Takes wholeGroup := by
  intro inp
  rw [wholeGroup, get_bind, SliceInput.getElem?_pos]
  rcases hrest : inp.rest with - | ⟨flag, bs⟩
  · exact Or.inl rfl
  · have hsum : 1 + ((groupLens flag).map (· + 1)).sum = 1 + groupNeed (groupLens flag) := rfl
    have hlen : bs.length + 1 = inp.rest.length := by rw [hrest, List.length_cons]
    dsimp only [List.head?_cons]
    rw [hsum, get_bind, view_eq, hrest]
    by_cases hneed : groupNeed (groupLens flag) ≤ bs.length
    · refine Or.inr ⟨flag, bs, rfl, hneed, ?_⟩
      have htake : (flag :: bs).take (1 + groupNeed (groupLens flag)) =
          flag :: bs.take (groupNeed (groupLens flag)) := by
        rw [Nat.add_comm, List.take_succ_cons]
      have hvalues := wholeValues_eq (flag :: bs.take (groupNeed (groupLens flag)))
        (groupLens flag) 1 (by
          rw [List.length_cons, List.length_take]
          omega)
      rw [List.drop_succ_cons, List.drop_zero, groupValues_take _ _ _ (Nat.le_refl _)] at hvalues
      rw [if_pos (by rw [List.length_cons]; omega), htake]
      dsimp only
      rw [hvalues]
      rfl
    · left
      rw [if_neg (by rw [List.length_cons]; omega)]
      rfl

/-! ## The decoders of groups -/

section GroupVints

variable {rv : Cursor U32} {r : Nat}

/-- The default decoder of `4 * groups + r` values reads groups. -/
theorem readsGroups_default (hr : r < 4) :
    ReadsGroups (·.setWidth 64) fun groups =>
      (dataInput true rv).groupVintsDefault (4 * groups + r) := by
  intro groups inp flag bs hrest hneed
  dsimp only
  rw [groupVintsDefault_succ _ hr, bind_ok (group_complete hrest hneed)]

theorem readGroupVints_eq (limit : Nat) (canPeek : Bool) :
    readGroupVints limit = (plainInput canPeek).groupVintsDefault limit := by
  have hdefault : ReadsGroups (·.setWidth 64) fun groups =>
      (dataInput true (varintLoop readByte 32 28)).groupVintsDefault (4 * groups + limit % 4) :=
    readsGroups_default (Nat.mod_lt limit (by decide))
  have h := takeGroups_bind takes_groupInView hdefault (limit / 4)
  rw [Nat.div_add_mod] at h
  rw [readGroupVints, sliceInput_eq, plainInput, plainInput, groupVintsDefault_eq canPeek,
    ← groupVintsDefault_eq true]
  exact h

/-- The values of the default decoder, in 32 bits. -/
def truncated (limit : Nat) : Cursor (List U32) := do
  let values ← sliceInput.groupVintsDefault limit
  pure (values.map (·.setWidth 32))

theorem truncated_zero : truncated 0 = pure [] := rfl

theorem truncated_succ (hr : r < 4) (n : Nat) : truncated (4 * (n + 1) + r) = (do
    let values ← sliceInput.group
    let rest ← truncated (4 * n + r)
    pure (values.map (·.setWidth 32) ++ rest)) := by
  rw [truncated, truncated, groupVintsDefault_succ _ hr]
  simp only [bind_assoc, pure_bind, List.map_append]

/-- A value of a group is read in 64 bits and kept in 32. -/
theorem map_setWidth (values : List U32) :
    (values.map fun v => v.setWidth 64).map (fun v => v.setWidth 32) = values := by
  rw [List.map_map]
  refine (List.map_congr_left fun v _ => ?_).trans (List.map_id values)
  exact BitVec.setWidth_setWidth_of_le v (by decide)

theorem readsGroups_truncated (hr : r < 4) :
    ReadsGroups id fun groups => truncated (4 * groups + r) := by
  intro groups inp flag bs hrest hneed
  dsimp only
  rw [truncated_succ hr, sliceInput, bind_ok (group_complete hrest hneed), map_setWidth,
    List.map_id]

/-- The default decoder, a chunk at a time. -/
theorem stagedChunks_eq (hr : r < 4) (n : Nat) :
    stagedChunks (chunkLens 4 (4 * n + r)) = truncated (4 * n + r) := by
  rw [chunkLens, show (4 * n + r) / 4 = n by omega, show (4 * n + r) % 4 = r by omega]
  induction n with
  | zero =>
    by_cases hzero : r = 0
    · rw [hzero]
      rfl
    · rw [if_neg hzero, Nat.mul_zero, Nat.zero_add, List.replicate_zero, List.nil_append,
        stagedChunks, truncated]
      simp only [stagedChunks, pure_bind, List.append_nil]
  | succ n ih =>
    have hgroup : sliceInput.groupVintsDefault 4 = sliceInput.group := by
      rw [show 4 = 4 * (0 + 1) + 0 from rfl, groupVintsDefault_succ _ (by decide),
        show sliceInput.groupVintsDefault (4 * 0 + 0) = pure [] from rfl]
      simp only [pure_bind, List.append_nil, bind_pure]
    rw [List.replicate_succ, List.cons_append, stagedChunks, hgroup, ih, truncated_succ hr]

theorem groupVintsI32Tail_eq (limit : Nat) : groupVintsI32Tail limit = truncated limit := by
  have h := takeGroups_bind takes_wholeGroup
    (readsGroups_truncated (Nat.mod_lt limit (by decide))) (limit / 4)
  simp only [List.map_id] at h
  rw [Nat.div_add_mod] at h
  rw [groupVintsI32Tail, ← h]
  simp only [stagedChunks_eq (Nat.mod_lt limit (show 4 > 0 by decide))]

theorem readGroupVintsI32_eq (limit : Nat) : readGroupVintsI32 limit = truncated limit := by
  have h := takeGroups_bind takes_groupInView
    (readsGroups_truncated (Nat.mod_lt limit (by decide))) (limit / 4)
  simp only [List.map_id] at h
  rw [Nat.div_add_mod] at h
  rw [readGroupVintsI32, ← h]
  refine bind_congr ?_
  rintro ⟨values, left⟩
  dsimp only
  by_cases hleft : 0 < 4 * left + limit % 4
  · rw [if_pos hleft, groupVintsI32Tail_eq]
  · rw [if_neg hleft, show 4 * left + limit % 4 = 0 by omega, truncated_zero, pure_bind,
      List.append_nil]

end GroupVints

/-! ## No reader panics -/

section Total

/-- From every position the reader returns or fails. -/
def Total {α : Type} (x : Cursor α) : Prop :=
  Triple (fun _ => True) x (fun _ _ => True) fun _ => True

variable {α β : Type} {x : Cursor α} {f : α → Cursor β}

theorem Total.ne_panic (hx : Total x) (inp : SliceInput) : (x inp).1 ≠ .panic := by
  have hrun := hx inp trivial
  intro hpanic
  rw [show x inp = (.panic, (x inp).2) from Prod.ext hpanic rfl] at hrun
  exact hrun

theorem total_bind (hx : Total x) (hf : ∀ a, Total (f a)) : Total (x >>= f) :=
  triple_bind hx hf

theorem total_of {rd : SliceInput → Result (α × SliceInput)} (h : ∀ inp, rd inp ≠ .panic) :
    Total (of rd) := by
  intro inp _
  rcases hrun : rd inp with ⟨a, inp'⟩ | e | -
  · rw [of_ok hrun]
    trivial
  · rw [of_err hrun]
    trivial
  · exact absurd hrun (h inp)

theorem total_readByte : Total readByte := by
  refine total_of fun inp => ?_
  rcases hrest : inp.rest with - | ⟨b, bs⟩
  · rw [SliceInput.readByte_nil hrest]
    exact nofun
  · rw [SliceInput.readByte_cons hrest]
    exact nofun

theorem readN_ne_panic (inp : SliceInput) (n : Nat) : inp.readN n ≠ .panic := by
  rw [SliceInput.readN]
  split
  · exact nofun
  · exact nofun

/-- The loop of a varint ends: every pass that goes on has read a byte at a
larger shift. -/
theorem total_varintLoop {w maxShift : Nat} (h : maxShift < 70) :
    Total (varintLoop readByte w maxShift) := by
  refine total_bind total_readByte fun b => ?_
  refine triple_iterate (I := fun _ _ => True) (fun c => (77 - c.2.2) / 7) ?_ 11 _
    (show (77 - 7) / 7 < 11 by decide)
  rintro ⟨b, v, shift⟩
  rw [varintPass]
  refine triple_ite (fun _ => ?_) fun _ => triple_pure fun _ _ => trivial
  refine triple_ite (fun _ => triple_throw fun _ _ => trivial) fun hshift => ?_
  exact triple_bind total_readByte fun b' => triple_pure fun _ _ => ⟨trivial, by dsimp only; omega⟩

theorem total_zlongLoop : Total (zlongLoop readByte) := by
  refine triple_iterate (I := fun _ _ => True) (fun c => (70 - c.2) / 7) ?_ 11 (0, 0)
    (by decide)
  rintro ⟨v, shift⟩
  rw [zlongPass]
  refine triple_bind total_readByte fun b => ?_
  refine triple_ite (fun _ => triple_pure fun _ _ => trivial) fun _ => ?_
  exact triple_ite (fun _ => triple_throw fun _ _ => trivial) fun hshift =>
    triple_pure fun _ _ => ⟨trivial, by dsimp only; omega⟩

variable {canPeek : Bool} {n : Nat}

theorem total_readString : Total (plainInput canPeek).readString := by
  refine total_bind (total_bind (total_varintLoop (by decide)) fun v => ?_) fun len => ?_
  · refine triple_ite (fun _ => triple_throw fun _ _ => trivial) fun _ => ?_
    refine total_bind (triple_get fun _ _ => trivial) fun remaining => ?_
    exact triple_ite (fun _ => triple_throw fun _ _ => trivial) fun _ =>
      triple_pure fun _ _ => trivial
  · refine total_bind (total_of fun inp => readN_ne_panic inp len) fun buf => ?_
    rw [DataInput.checkUtf8]
    split
    · exact triple_throw fun _ _ => trivial
    · exact triple_pure fun _ _ => trivial

theorem total_groups (rv : Cursor U32) (n : Nat) : Total ((dataInput canPeek rv).groups n) := by
  induction n with
  | zero => exact triple_pure fun _ _ => trivial
  | succ n ih =>
    rw [DataInput.groups, group_eq]
    refine total_bind (total_bind total_readByte fun flag => triple_mapM fun len _ => ?_)
      fun values => total_bind ih fun rest => triple_pure fun _ _ => trivial
    exact total_bind (total_of fun inp => readN_ne_panic inp (len + 1)) fun b =>
      triple_pure fun _ _ => trivial

theorem total_vints (n : Nat) : Total ((plainInput canPeek).vints n) := by
  induction n with
  | zero => exact triple_pure fun _ _ => trivial
  | succ n ih =>
    exact total_bind (total_varintLoop (by decide)) fun v =>
      total_bind ih fun rest => triple_pure fun _ _ => trivial

theorem total_groupVintsDefault (limit : Nat) :
    Total ((plainInput canPeek).groupVintsDefault limit) :=
  total_bind (total_groups _ _) fun _ =>
    total_bind (total_vints _) fun _ => triple_pure fun _ _ => trivial

end Total

end Cursor

/-- For every buffer, position and destination: an override of `SliceInput` is
the provided method of an input over the same bytes, whether that input can be
peeked at or not, so that it returns the same value or the same error and leaves
the same position.  `read_group_vints_i32` is `read_group_vints` with the low
32 bits of its values.  None of them panics. -/
theorem overrides_eq_defaults (inp : SliceInput) (canPeek : Bool) (limit : Nat) :
    let plain := Cursor.plainInput canPeek
    Cursor.readVint inp = plain.readVint inp ∧
    Cursor.readVlong inp = plain.readVlong inp ∧
    Cursor.readZlong inp = plain.readZlong inp ∧
    Cursor.readString inp = plain.readString inp ∧
    Cursor.readGroupVints limit inp = plain.groupVintsDefault limit inp ∧
    Cursor.readGroupVintsI32 limit inp = (do
      let values ← Cursor.readGroupVints limit
      pure (values.map fun v : U64 => v.setWidth 32)) inp ∧
    (plain.readVint inp).1 ≠ .panic ∧ (plain.readVlong inp).1 ≠ .panic ∧
    (plain.readZlong inp).1 ≠ .panic ∧ (plain.readString inp).1 ≠ .panic ∧
    (plain.groupVintsDefault limit inp).1 ≠ .panic := by
  intro plain
  have hgroups := Cursor.readGroupVints_eq limit
  refine ⟨congrFun Cursor.readVint_eq inp, congrFun Cursor.readVlong_eq inp,
    congrFun (Cursor.readZlong_eq canPeek) inp, congrFun (Cursor.readString_eq canPeek) inp,
    congrFun (hgroups canPeek) inp, ?_, (Cursor.total_varintLoop (by decide)).ne_panic inp,
    (Cursor.total_varintLoop (by decide)).ne_panic inp, ?_, Cursor.total_readString.ne_panic inp,
    (Cursor.total_groupVintsDefault limit).ne_panic inp⟩
  · rw [Cursor.readGroupVintsI32_eq, hgroups true, Cursor.truncated, Cursor.sliceInput_eq]
  · have hzlong : Cursor.Total plain.readZlong :=
      Cursor.total_bind Cursor.total_zlongLoop fun v => triple_pure fun _ _ => trivial
    exact hzlong.ne_panic inp

end LuceneRust.Store
