import LuceneRust.Index.FlushPolicy
import Mathlib.Tactic.Common

/-!
# The accounting of the flush control is exact

Bytes move between the two totals of a `FlushControl` when a buffer grows, is
marked, is checked out and is done.  This module proves what the totals are
after any list of `update_ram` calls.

* `Moves` lists what a change can do to the writer, and `change_moves` reads it
  off the code.  Every invariant below is a case analysis of `Moves`.
* `Exact`: the two totals are the sums over the slots, and no subtraction has
  saturated.  It needs the sum of all bytes to fit in a `usize`.
* `Covered`: without that, `flush_bytes` is still no more than its sum, so an
  indexing stall has a flush behind it.
* `Tracks`: the flags of the writer are those of the slots, up to the changes
  that are still to be mirrored.
* `MarkedHoldDocs`: a marked slot holds documents, if no commit takes them away.
* `Reached.run`: the induction over a run, for any such invariant.
-/

namespace LuceneRust.Index.FlushPolicy

/-! ## The sums over the slots -/

/-- The bytes of the slots that are not marked. -/
def activeSum (slots : List SlotState) : Nat :=
  ((slots.filter fun s => !s.flushPending).map (·.ramBytes)).sum

/-- The bytes of the marked slots. -/
def flushSum (slots : List SlotState) : Nat :=
  ((slots.filter fun s => s.flushPending).map (·.ramBytes)).sum

/-- What a slot adds to `activeSum`. -/
def SlotState.activePart (s : SlotState) : Nat := if s.flushPending then 0 else s.ramBytes

/-- What a slot adds to `flushSum`. -/
def SlotState.flushPart (s : SlotState) : Nat := if s.flushPending then s.ramBytes else 0

theorem activeSum_cons (s : SlotState) (slots : List SlotState) :
    activeSum (s :: slots) = s.activePart + activeSum slots := by
  unfold activeSum SlotState.activePart
  cases h : s.flushPending <;> simp [h]

theorem flushSum_cons (s : SlotState) (slots : List SlotState) :
    flushSum (s :: slots) = s.flushPart + flushSum slots := by
  unfold flushSum SlotState.flushPart
  cases h : s.flushPending <;> simp [h]

/-- The part of one slot in `activeSum`, which is all that writing it changes. -/
theorem activeSum_set {slots : List SlotState} {i : Nat} {s : SlotState}
    (h : slots[i]? = some s) (t : SlotState) : ∃ rest,
      activeSum slots = rest + s.activePart ∧
        activeSum (slots.set i t) = rest + t.activePart := by
  induction slots generalizing i with
  | nil => cases h
  | cons u slots ih =>
    cases i with
    | zero =>
      cases h
      rw [List.set_cons_zero, activeSum_cons, activeSum_cons]
      exact ⟨activeSum slots, Nat.add_comm _ _, Nat.add_comm _ _⟩
    | succ i =>
      obtain ⟨rest, h1, h2⟩ := ih (i := i) h
      rw [List.set_cons_succ, activeSum_cons, activeSum_cons]
      exact ⟨u.activePart + rest, by omega, by omega⟩

/-- The part of one slot in `flushSum`, which is all that writing it changes. -/
theorem flushSum_set {slots : List SlotState} {i : Nat} {s : SlotState}
    (h : slots[i]? = some s) (t : SlotState) : ∃ rest,
      flushSum slots = rest + s.flushPart ∧
        flushSum (slots.set i t) = rest + t.flushPart := by
  induction slots generalizing i with
  | nil => cases h
  | cons u slots ih =>
    cases i with
    | zero =>
      cases h
      rw [List.set_cons_zero, flushSum_cons, flushSum_cons]
      exact ⟨flushSum slots, Nat.add_comm _ _, Nat.add_comm _ _⟩
    | succ i =>
      obtain ⟨rest, h1, h2⟩ := ih (i := i) h
      rw [List.set_cons_succ, flushSum_cons, flushSum_cons]
      exact ⟨u.flushPart + rest, by omega, by omega⟩

theorem activeSum_replicate_default (n : Nat) :
    activeSum (List.replicate n SlotState.default) = 0 := by
  induction n with
  | zero => rfl
  | succ n ih => rw [List.replicate_succ, activeSum_cons, ih]; rfl

theorem flushSum_replicate_default (n : Nat) :
    flushSum (List.replicate n SlotState.default) = 0 := by
  induction n with
  | zero => rfl
  | succ n ih => rw [List.replicate_succ, flushSum_cons, ih]; rfl

/-! ## What a change does -/

/-- The control without what the policy alone reads. -/
structure FlushControl.Same (c d : FlushControl) : Prop where
  slots : d.slots = c.slots
  activeBytes : d.activeBytes = c.activeBytes
  flushBytes : d.flushBytes = c.flushBytes
  pendingChanges : d.pendingChanges = c.pendingChanges
  shortfall : d.shortfall = c.shortfall

/-- The slot is marked. -/
structure FlushControl.Marks (c d : FlushControl) (slot : Nat) (s : SlotState) : Prop where
  get : c.slots[slot]? = some s
  unmarked : s.flushPending = false
  hasDocs : 0 < s.numDocs
  slots : d.slots = c.slots.set slot { s with flushPending := true }
  activeBytes : d.activeBytes = c.activeBytes - s.ramBytes
  flushBytes : d.flushBytes = saturatingAdd c.flushBytes s.ramBytes
  pendingChanges : d.pendingChanges = c.pendingChanges ++ [slot]
  shortfall : d.shortfall = c.shortfall + (s.ramBytes - c.activeBytes)

namespace FlushControl

theorem Same.refl (c : FlushControl) : c.Same c := ⟨rfl, rfl, rfl, rfl, rfl⟩

theorem setFlushPending_cases (c : FlushControl) (slot : Nat) :
    c.Same (c.setFlushPending slot) ∨ ∃ s, c.Marks (c.setFlushPending slot) slot s := by
  unfold setFlushPending
  split
  · exact Or.inl (Same.refl c)
  next s hs =>
    split
    · exact Or.inl (Same.refl c)
    next h =>
      simp only [Bool.or_eq_true, beq_iff_eq, not_or, Bool.not_eq_true] at h
      exact Or.inr ⟨s, hs, h.1, Nat.pos_of_ne_zero h.2, rfl, rfl, rfl, rfl, rfl⟩

theorem markLargestWriterPending_cases (c : FlushControl) :
    c.Same c.markLargestWriterPending ∨
      ∃ slot s, c.Marks c.markLargestWriterPending slot s := by
  unfold markLargestWriterPending
  split
  · exact Or.inl (Same.refl c)
  next largest _ =>
    rcases c.setFlushPending_cases largest with h | ⟨s, h⟩
    · exact Or.inl h
    · exact Or.inr ⟨largest, s, h⟩

theorem onRamChange_cases (policy : FlushByRamOrCountsPolicy) (c : FlushControl)
    (slot : Option Nat) :
    c.Same (policy.onRamChange c slot) ∨
      ∃ i s, c.Marks (policy.onRamChange c slot) i s := by
  unfold FlushByRamOrCountsPolicy.onRamChange
  split
  · exact Or.inl (Same.refl c)
  · split
    · rcases c.setApplyAllDeletes.markLargestWriterPending_cases with h | ⟨i, s, h⟩
      · exact Or.inl ⟨h.slots, h.activeBytes, h.flushBytes, h.pendingChanges, h.shortfall⟩
      · exact Or.inr ⟨i, s, h.get, h.unmarked, h.hasDocs, h.slots, h.activeBytes,
          h.flushBytes, h.pendingChanges, h.shortfall⟩
    · split
      · exact Or.inl ⟨rfl, rfl, rfl, rfl, rfl⟩
      · split
        · exact c.markLargestWriterPending_cases
        · exact Or.inl (Same.refl c)

/-- The policy sets a flag, marks a slot, or both. -/
theorem onChange_cases (policy : FlushByRamOrCountsPolicy) (c : FlushControl)
    (slot : Option Nat) :
    c.Same (policy.onChange c slot) ∨ ∃ i s, c.Marks (policy.onChange c slot) i s := by
  unfold FlushByRamOrCountsPolicy.onChange
  split
  next i =>
    split
    · rcases c.setFlushPending_cases i with h | ⟨s, h⟩
      · exact Or.inl h
      · exact Or.inr ⟨i, s, h⟩
    · exact onRamChange_cases policy c _
  · exact onRamChange_cases policy c _

end FlushControl

/-- What a change can do to a writer.  A commit or a checkout of a slot that
does not exist is `same`, or puts an empty buffer in flight. -/
inductive Moves (w : Writer) : Change → Writer → Prop
  | same {change : Change} {ram : FlushControl} (h : w.ram.Same ram)
      (hdone : ∀ bytes, change ≠ .flushDone bytes) : Moves w change { w with ram }
  | mark {change : Change} {ram : FlushControl} {slot : Nat} {s : SlotState}
      (h : w.ram.Marks ram slot s) : Moves w change { w with ram }
  | commit {slot numDocs ramBytes : Nat} {s : SlotState} (h : w.ram.slots[slot]? = some s) :
      Moves w (.commitSlotBytes slot numDocs ramBytes)
        { w with ram := w.ram.commitSlotBytes slot numDocs ramBytes }
  | checkout {slot : Nat} {s : SlotState} (h : w.ram.slots[slot]? = some s) :
      Moves w (.checkoutForFlush slot)
        { w with ram := (w.ram.checkoutForFlush slot).2, inFlight := s.ramBytes :: w.inFlight }
  | checkoutNone {slot : Nat} :
      Moves w (.checkoutForFlush slot) { w with inFlight := 0 :: w.inFlight }
  | done {bytes : Nat} :
      Moves w (.flushDone bytes)
        { w with ram := w.ram.flushDone bytes, inFlight := w.inFlight.erase bytes }

theorem change_moves (w : Writer) (change : Change) : Moves w change (w.change change) := by
  cases change with
  | commitSlotBytes slot numDocs ramBytes =>
    cases h : w.ram.slots[slot]? with
    | none =>
      have he : w.change (.commitSlotBytes slot numDocs ramBytes) = { w with ram := w.ram } := by
        simp [Writer.change, FlushControl.commitSlotBytes, h]
      rw [he]
      exact .same (.refl _) (by simp)
    | some s => exact .commit h
  | setFlushPending slot =>
    rcases w.ram.setFlushPending_cases slot with h | ⟨s, h⟩
    · exact .same h (by simp)
    · exact .mark h
  | checkoutForFlush slot =>
    cases h : w.ram.slots[slot]? with
    | none =>
      have he : w.change (.checkoutForFlush slot) = { w with inFlight := 0 :: w.inFlight } := by
        simp [Writer.change, FlushControl.checkoutForFlush, h]
      rw [he]
      exact .checkoutNone
    | some s =>
      have he : w.change (.checkoutForFlush slot) =
          { w with ram := (w.ram.checkoutForFlush slot).2,
                   inFlight := s.ramBytes :: w.inFlight } := by
        simp [Writer.change, FlushControl.checkoutForFlush, h]
      rw [he]
      exact .checkout h
  | flushDone bytes => exact .done
  | setDeleteBytesUsed bytes => exact .same ⟨rfl, rfl, rfl, rfl, rfl⟩ (by simp)
  | onChange policy slot =>
    rcases w.ram.onChange_cases policy slot with h | ⟨i, s, h⟩
    · exact .same h (by simp)
    · exact .mark h
  | getAndResetApplyAllDeletes => exact .same ⟨rfl, rfl, rfl, rfl, rfl⟩ (by simp)

/-! ## Runs -/

/-- Every change of the list is one that `P` permits where it is made. -/
def Permits (P : Writer → Change → Prop) : Writer → List Change → Prop
  | _, [] => True
  | w, change :: changes => P w change ∧ Permits P (w.change change) changes

/-- The writers between two `update_ram` calls, from a new one on, when `P`
permits every change that is made. -/
inductive Reached (P : Writer → Change → Prop) (slots : Nat) (buffer : Option Nat) :
    Writer → Prop
  | new : Reached P slots buffer (Writer.new slots buffer)
  | updateRam {w : Writer} {changes : List Change} (h : Reached P slots buffer w)
      (hp : Permits P w changes) : Reached P slots buffer (w.updateRam changes)

/-- `flush_done` is called once for each checkout, with the bytes that it
returned. -/
def Returned (w : Writer) : Change → Prop
  | .flushDone bytes => bytes ∈ w.inFlight
  | _ => True

/-- The bytes of all slots and of all buffers in flight. -/
def Writer.held (w : Writer) : Nat :=
  activeSum w.ram.slots + flushSum w.ram.slots + w.inFlight.sum

/-- `Returned`, and all bytes together fit in a `usize`. -/
def Fits (w : Writer) (change : Change) : Prop :=
  Returned w change ∧ (w.change change).held ≤ usizeMax

/-- `Returned`, and a commit leaves documents in a marked slot. -/
def KeepsDocs (w : Writer) (change : Change) : Prop :=
  Returned w change ∧
    ∀ slot numDocs ramBytes, change = .commitSlotBytes slot numDocs ramBytes →
      w.ram.isFlushPending slot = true → 0 < numDocs

section

variable {P : Writer → Change → Prop} {Inv : Writer → Prop}

/-- An invariant of the changes holds inside a closure. -/
theorem Permits.run (hchange : ∀ w change, P w change → Inv w → Inv (w.change change))
    {changes : List Change} : ∀ {w : Writer}, Permits P w changes → Inv w →
      Inv (changes.foldl Writer.change w) := by
  induction changes with
  | nil => exact fun _ h => h
  | cons change changes ih => exact fun hp h => ih hp.2 (hchange _ _ hp.1 h)

/-- An invariant of the changes and of the end of `update_ram` holds in every
run. -/
theorem Reached.run {slots : Nat} {buffer : Option Nat} {w : Writer}
    (h : Reached P slots buffer w) (hnew : Inv (Writer.new slots buffer))
    (hchange : ∀ w change, P w change → Inv w → Inv (w.change change))
    (hfinish : ∀ w b, Inv w → Inv (w.finish b)) : Inv w := by
  induction h with
  | new => exact hnew
  | updateRam _ hp ih =>
    unfold Writer.updateRam
    split
    · exact ih
    · exact hfinish _ _ (hp.run hchange ih)

end

/-! ## The totals -/

/-- The totals are the sums that they stand for. -/
structure Exact (w : Writer) : Prop where
  activeBytes : w.ram.activeBytes = activeSum w.ram.slots
  flushBytes : w.ram.flushBytes = flushSum w.ram.slots + w.inFlight.sum
  shortfall : w.ram.shortfall = 0

theorem Exact.new (slots : Nat) (buffer : Option Nat) : Exact (Writer.new slots buffer) :=
  ⟨(activeSum_replicate_default slots).symm, (flushSum_replicate_default slots).symm, rfl⟩

theorem saturatingAdd_eq {a b : Nat} (h : a + b ≤ usizeMax) : saturatingAdd a b = a + b :=
  Nat.min_eq_left h

theorem saturatingAdd_le (a b : Nat) : saturatingAdd a b ≤ a + b := Nat.min_le_left _ _

theorem sum_erase {l : List Nat} {b : Nat} (h : b ∈ l) : b + (l.erase b).sum = l.sum := by
  rw [← List.sum_cons]
  exact (List.perm_cons_erase h).symm.sum_eq

/-- A commit to a marked slot changes `flush_bytes`. -/
theorem FlushControl.commitSlotBytes_marked {c : FlushControl} {slot : Nat} {s : SlotState}
    (h : c.slots[slot]? = some s) (hp : s.flushPending = true) (numDocs ramBytes : Nat) :
    c.commitSlotBytes slot numDocs ramBytes =
      { c with
        slots := c.slots.set slot { s with numDocs, ramBytes }
        flushBytes := saturatingAdd (c.flushBytes - s.ramBytes) ramBytes
        shortfall := c.shortfall + (s.ramBytes - c.flushBytes) } := by
  simp only [commitSlotBytes, h, hp, if_true]
  rfl

/-- A commit to another slot changes `active_bytes`. -/
theorem FlushControl.commitSlotBytes_unmarked {c : FlushControl} {slot : Nat} {s : SlotState}
    (h : c.slots[slot]? = some s) (hp : s.flushPending = false) (numDocs ramBytes : Nat) :
    c.commitSlotBytes slot numDocs ramBytes =
      { c with
        slots := c.slots.set slot { s with numDocs, ramBytes }
        activeBytes := saturatingAdd (c.activeBytes - s.ramBytes) ramBytes
        shortfall := c.shortfall + (s.ramBytes - c.activeBytes) } := by
  simp only [commitSlotBytes, h, hp, Bool.false_eq_true, if_false]
  rfl

/-- The bytes of a marked slot are in `flush_bytes` already. -/
theorem FlushControl.checkoutForFlush_marked {c : FlushControl} {slot : Nat} {s : SlotState}
    (h : c.slots[slot]? = some s) (hp : s.flushPending = true) :
    (c.checkoutForFlush slot).2 =
      { c with
        slots := c.slots.set slot SlotState.default
        pendingChanges := c.pendingChanges ++ [slot] } := by
  simp only [checkoutForFlush, h, hp, if_true]

/-- Those of another slot move over. -/
theorem FlushControl.checkoutForFlush_unmarked {c : FlushControl} {slot : Nat} {s : SlotState}
    (h : c.slots[slot]? = some s) (hp : s.flushPending = false) :
    (c.checkoutForFlush slot).2 =
      { c with
        slots := c.slots.set slot SlotState.default
        activeBytes := c.activeBytes - s.ramBytes
        flushBytes := saturatingAdd c.flushBytes s.ramBytes
        shortfall := c.shortfall + (s.ramBytes - c.activeBytes) } := by
  simp only [checkoutForFlush, h, hp, Bool.false_eq_true, if_false]
  rfl

theorem SlotState.parts_marked {s : SlotState} (h : s.flushPending = true) :
    s.activePart = 0 ∧ s.flushPart = s.ramBytes := by
  simp [activePart, flushPart, h]

theorem SlotState.parts_unmarked {s : SlotState} (h : s.flushPending = false) :
    s.activePart = s.ramBytes ∧ s.flushPart = 0 := by
  simp [activePart, flushPart, h]

/-- The totals stay the sums, one case for each kind of change. -/
theorem Exact.change {w : Writer} {change : Change} (hp : Fits w change) (h : Exact w) :
    Exact (w.change change) := by
  obtain ⟨hret, hfits⟩ := hp
  unfold Writer.held at hfits
  have hmoves := change_moves w change
  generalize w.change change = w' at hfits hmoves ⊢
  obtain ⟨ha, hf, hs⟩ := h
  cases hmoves with
  | same h _ =>
    exact ⟨by rw [h.activeBytes, ha, h.slots], by rw [h.flushBytes, hf, h.slots],
      h.shortfall.trans hs⟩
  | @mark _ ram slot s h =>
    obtain ⟨rest1, h1, h1'⟩ := activeSum_set h.get { s with flushPending := true }
    obtain ⟨rest2, h2, h2'⟩ := flushSum_set h.get { s with flushPending := true }
    obtain ⟨hs1, hs2⟩ := SlotState.parts_unmarked h.unmarked
    obtain ⟨ht1, ht2⟩ := SlotState.parts_marked (s := { s with flushPending := true }) rfl
    dsimp only at hfits ht1 ht2
    rw [h.slots] at hfits
    have hadd := saturatingAdd_eq (a := w.ram.flushBytes) (b := s.ramBytes) (by omega)
    apply Exact.mk
    · rw [h.activeBytes, h.slots]
      omega
    · rw [h.flushBytes, h.slots, hadd]
      dsimp only
      omega
    · rw [h.shortfall]
      omega
  | @commit slot numDocs ramBytes s h =>
    obtain ⟨rest1, h1, h1'⟩ := activeSum_set h { s with numDocs, ramBytes }
    obtain ⟨rest2, h2, h2'⟩ := flushSum_set h { s with numDocs, ramBytes }
    cases hpend : s.flushPending with
    | true =>
      obtain ⟨hs1, hs2⟩ := SlotState.parts_marked hpend
      obtain ⟨ht1, ht2⟩ := SlotState.parts_marked (s := { s with numDocs, ramBytes }) hpend
      rw [FlushControl.commitSlotBytes_marked h hpend] at hfits ⊢
      dsimp only at hfits ht1 ht2
      have hadd := saturatingAdd_eq (a := w.ram.flushBytes - s.ramBytes) (b := ramBytes)
        (by omega)
      apply Exact.mk <;> dsimp only <;> omega
    | false =>
      obtain ⟨hs1, hs2⟩ := SlotState.parts_unmarked hpend
      obtain ⟨ht1, ht2⟩ := SlotState.parts_unmarked (s := { s with numDocs, ramBytes }) hpend
      rw [FlushControl.commitSlotBytes_unmarked h hpend] at hfits ⊢
      dsimp only at hfits ht1 ht2
      have hadd := saturatingAdd_eq (a := w.ram.activeBytes - s.ramBytes) (b := ramBytes)
        (by omega)
      apply Exact.mk <;> dsimp only <;> omega
  | @checkout slot s h =>
    obtain ⟨rest1, h1, h1'⟩ := activeSum_set h SlotState.default
    obtain ⟨rest2, h2, h2'⟩ := flushSum_set h SlotState.default
    have hd1 : SlotState.default.activePart = 0 := rfl
    have hd2 : SlotState.default.flushPart = 0 := rfl
    cases hpend : s.flushPending with
    | true =>
      obtain ⟨hs1, hs2⟩ := SlotState.parts_marked hpend
      rw [FlushControl.checkoutForFlush_marked h hpend]
      apply Exact.mk <;> dsimp only <;> try rw [List.sum_cons]
      all_goals omega
    | false =>
      obtain ⟨hs1, hs2⟩ := SlotState.parts_unmarked hpend
      rw [FlushControl.checkoutForFlush_unmarked h hpend] at hfits ⊢
      dsimp only at hfits
      rw [List.sum_cons] at hfits
      have hadd := saturatingAdd_eq (a := w.ram.flushBytes) (b := s.ramBytes) (by omega)
      apply Exact.mk <;> dsimp only <;> try rw [List.sum_cons]
      all_goals omega
  | checkoutNone => exact ⟨ha, by simpa using hf, hs⟩
  | @done bytes =>
    have := sum_erase hret
    unfold FlushControl.flushDone FlushControl.subFlush
    apply Exact.mk <;> dsimp only <;> omega

theorem Exact.finish (w : Writer) (buffer : Nat) (h : Exact w) : Exact (w.finish buffer) :=
  ⟨h.activeBytes, h.flushBytes, h.shortfall⟩

/-- `flush_bytes` is no more than what it stands for, also when a sum has
saturated. -/
def Covered (w : Writer) : Prop :=
  w.ram.flushBytes ≤ flushSum w.ram.slots + w.inFlight.sum

theorem Covered.change {w : Writer} {change : Change} (hret : Returned w change)
    (h : Covered w) : Covered (w.change change) := by
  have hmoves := change_moves w change
  generalize w.change change = w' at hmoves ⊢
  unfold Covered at h ⊢
  cases hmoves with
  | same h' _ =>
    dsimp only
    rw [h'.flushBytes, h'.slots]
    exact h
  | @mark _ ram slot s h' =>
    obtain ⟨rest2, h2, h2'⟩ := flushSum_set h'.get { s with flushPending := true }
    have hs2 := (SlotState.parts_unmarked h'.unmarked).2
    have ht2 := (SlotState.parts_marked (s := { s with flushPending := true }) rfl).2
    have hadd := saturatingAdd_le w.ram.flushBytes s.ramBytes
    dsimp only at ht2 ⊢
    rw [h'.flushBytes, h'.slots]
    omega
  | @commit slot numDocs ramBytes s h' =>
    obtain ⟨rest2, h2, h2'⟩ := flushSum_set h' { s with numDocs, ramBytes }
    cases hpend : s.flushPending with
    | true =>
      have hs2 := (SlotState.parts_marked hpend).2
      have ht2 := (SlotState.parts_marked (s := { s with numDocs, ramBytes }) hpend).2
      have hadd := saturatingAdd_le (w.ram.flushBytes - s.ramBytes) ramBytes
      rw [FlushControl.commitSlotBytes_marked h' hpend]
      dsimp only at ht2 ⊢
      omega
    | false =>
      have hs2 := (SlotState.parts_unmarked hpend).2
      have ht2 := (SlotState.parts_unmarked (s := { s with numDocs, ramBytes }) hpend).2
      rw [FlushControl.commitSlotBytes_unmarked h' hpend]
      dsimp only
      omega
  | @checkout slot s h' =>
    obtain ⟨rest2, h2, h2'⟩ := flushSum_set h' SlotState.default
    have hd2 : SlotState.default.flushPart = 0 := rfl
    cases hpend : s.flushPending with
    | true =>
      have hs2 := (SlotState.parts_marked hpend).2
      rw [FlushControl.checkoutForFlush_marked h' hpend]
      dsimp only
      rw [List.sum_cons]
      omega
    | false =>
      have hs2 := (SlotState.parts_unmarked hpend).2
      have hadd := saturatingAdd_le w.ram.flushBytes s.ramBytes
      rw [FlushControl.checkoutForFlush_unmarked h' hpend]
      dsimp only
      rw [List.sum_cons]
      omega
  | checkoutNone => simpa using h
  | @done bytes =>
    have := sum_erase hret
    unfold FlushControl.flushDone FlushControl.subFlush
    dsimp only
    omega

/-! ## The flags -/

/-- A flag of the writer is the slot's own, unless its change is still to be
mirrored. -/
structure Tracks (w : Writer) : Prop where
  length : w.pending.length = w.ram.slots.length
  get : ∀ i, i ∉ w.ram.pendingChanges →
    w.pending[i]? = (w.ram.slots[i]?).map (·.flushPending)

/-- Writing a slot whose flag stays, or whose index is noted down, keeps the
flags tracked. -/
theorem Tracks.set {w : Writer} (w' : Writer) {slot : Nat} {s t : SlotState} (h : Tracks w)
    (hs : w.ram.slots[slot]? = some s) (hslots : w'.ram.slots = w.ram.slots.set slot t)
    (hpending : w'.pending = w.pending)
    (hchanges : ∀ i ∈ w.ram.pendingChanges, i ∈ w'.ram.pendingChanges)
    (hflag : slot ∈ w'.ram.pendingChanges ∨ t.flushPending = s.flushPending) : Tracks w' := by
  apply Tracks.mk
  · rw [hpending, hslots, List.length_set]
    exact h.length
  · intro i hi
    have hget := h.get i fun hmem => hi (hchanges i hmem)
    rw [hpending, hslots, hget, List.getElem?_set]
    split
    next heq =>
      subst heq
      rcases hflag with hmem | hflag
      · exact absurd hmem hi
      · rw [hs, if_pos (List.getElem?_eq_some_iff.1 hs).1, Option.map_some, Option.map_some,
          hflag]
    · rfl

theorem Tracks.change {w : Writer} {change : Change} (h : Tracks w) :
    Tracks (w.change change) := by
  have hmoves := change_moves w change
  generalize w.change change = w' at hmoves ⊢
  cases hmoves with
  | same h' _ =>
    exact ⟨by rw [h'.slots]; exact h.length, by rw [h'.slots, h'.pendingChanges]; exact h.get⟩
  | mark h' =>
    apply Tracks.set { w with ram := _ } h h'.get h'.slots rfl
    · intro i hi
      rw [h'.pendingChanges]
      exact List.mem_append_left _ hi
    · rw [h'.pendingChanges]
      exact Or.inl (List.mem_append_right _ (List.mem_singleton_self _))
  | @commit slot numDocs ramBytes s h' =>
    cases hpend : s.flushPending with
    | true =>
      rw [FlushControl.commitSlotBytes_marked h' hpend]
      exact Tracks.set _ h h' rfl rfl (fun _ hi => hi) (Or.inr rfl)
    | false =>
      rw [FlushControl.commitSlotBytes_unmarked h' hpend]
      exact Tracks.set _ h h' rfl rfl (fun _ hi => hi) (Or.inr rfl)
  | @checkout slot s h' =>
    cases hpend : s.flushPending with
    | true =>
      rw [FlushControl.checkoutForFlush_marked h' hpend]
      exact Tracks.set _ h h' rfl rfl (fun i hi => List.mem_append_left _ hi)
        (Or.inl (List.mem_append_right _ (List.mem_singleton_self _)))
    | false =>
      rw [FlushControl.checkoutForFlush_unmarked h' hpend]
      exact Tracks.set _ h h' rfl rfl (fun _ hi => hi) (Or.inr hpend.symm)
  | checkoutNone => exact ⟨h.length, h.get⟩
  | done => exact ⟨h.length, h.get⟩

/-- The flags of the writer are those of the slots. -/
def Mirrored (w : Writer) : Prop := w.pending = w.ram.slots.map (·.flushPending)

/-- The loop writes the flags of the changed slots and leaves the others. -/
theorem mirror_get (ram : FlushControl) (changed : List Nat) (j : Nat) :
    ∀ pending : List Bool, (Writer.mirror ram changed pending)[j]? =
      if j ∈ changed then pending[j]?.map (fun _ => ram.isFlushPending j) else pending[j]? := by
  induction changed with
  | nil => exact fun _ => rfl
  | cons i changed ih =>
    intro pending
    unfold Writer.mirror
    rw [ih, List.getElem?_set]
    by_cases hij : i = j
    · subst hij
      cases h : pending[i]? with
      | none => simp [List.getElem?_eq_none_iff.1 h]
      | some b => simp [(List.getElem?_eq_some_iff.1 h).1]
    · simp [hij, Ne.symm hij]

theorem isFlushPending_eq {c : FlushControl} {i : Nat} {s : SlotState}
    (h : c.slots[i]? = some s) : c.isFlushPending i = s.flushPending := by
  unfold FlushControl.isFlushPending
  rw [h]

theorem Tracks.finish_mirrored {w : Writer} (h : Tracks w) (buffer : Nat) :
    Mirrored (w.finish buffer) := by
  unfold Mirrored Writer.finish FlushControl.takePendingChanges
  dsimp only
  apply List.ext_getElem?
  intro i
  rw [mirror_get, List.getElem?_map]
  split
  · cases hs : w.ram.slots[i]? with
    | none =>
      have := List.getElem?_eq_none_iff.1 hs
      rw [List.getElem?_eq_none (h.length.trans_le this)]
      rfl
    | some s =>
      have hlt : i < w.pending.length := h.length ▸ (List.getElem?_eq_some_iff.1 hs).1
      rw [List.getElem?_eq_getElem hlt, Option.map_some, Option.map_some]
      exact congrArg some (isFlushPending_eq hs)
  next hi => exact h.get i hi

theorem Mirrored.tracks {w : Writer} (h : Mirrored w) : Tracks w :=
  ⟨by rw [h, List.length_map], fun i _ => by rw [h, List.getElem?_map]⟩

theorem Mirrored.new (slots : Nat) (buffer : Option Nat) : Mirrored (Writer.new slots buffer) := by
  unfold Mirrored Writer.new FlushControl.new
  rw [List.map_replicate]
  rfl

/-! ## The documents of a marked slot -/

/-- Every marked slot holds documents. -/
def MarkedHoldDocs (w : Writer) : Prop :=
  ∀ s ∈ w.ram.slots, s.flushPending = true → 0 < s.numDocs

theorem MarkedHoldDocs.set {w : Writer} (w' : Writer) {slot : Nat} {t : SlotState}
    (h : MarkedHoldDocs w)
    (hslots : w'.ram.slots = w.ram.slots.set slot t)
    (ht : t.flushPending = true → 0 < t.numDocs) : MarkedHoldDocs w' := by
  intro s hs
  rw [hslots] at hs
  rcases List.mem_or_eq_of_mem_set hs with hs | rfl
  · exact h s hs
  · exact ht

theorem MarkedHoldDocs.change {w : Writer} {change : Change} (hp : KeepsDocs w change)
    (h : MarkedHoldDocs w) : MarkedHoldDocs (w.change change) := by
  have hmoves := change_moves w change
  generalize w.change change = w' at hmoves ⊢
  cases hmoves with
  | same h' _ =>
    intro s hs
    exact h s (h'.slots ▸ hs)
  | mark h' =>
    exact MarkedHoldDocs.set { w with ram := _ } h h'.slots fun _ => h'.hasDocs
  | @commit slot numDocs ramBytes s h' =>
    have hdocs := hp.2 slot numDocs ramBytes rfl
    rw [isFlushPending_eq h'] at hdocs
    cases hpend : s.flushPending with
    | true =>
      rw [FlushControl.commitSlotBytes_marked h' hpend]
      exact MarkedHoldDocs.set _ h rfl hdocs
    | false =>
      rw [FlushControl.commitSlotBytes_unmarked h' hpend]
      exact MarkedHoldDocs.set _ h rfl hdocs
  | @checkout slot s h' =>
    have hdefault : SlotState.default.flushPending = true → 0 < SlotState.default.numDocs :=
      fun hd => Bool.noConfusion hd
    cases hpend : s.flushPending with
    | true =>
      rw [FlushControl.checkoutForFlush_marked h' hpend]
      exact MarkedHoldDocs.set _ h rfl hdefault
    | false =>
      rw [FlushControl.checkoutForFlush_unmarked h' hpend]
      exact MarkedHoldDocs.set _ h rfl hdefault
  | checkoutNone => exact h
  | done => exact h

theorem MarkedHoldDocs.new (slots : Nat) (buffer : Option Nat) :
    MarkedHoldDocs (Writer.new slots buffer) := by
  intro s hs hp
  rw [List.eq_of_mem_replicate hs] at hp
  cases hp

/-! ## The stall -/

/-- Some marked slot, or some buffer in flight, holds bytes. -/
def FlushesBytes (w : Writer) : Prop :=
  (∃ s ∈ w.ram.slots, s.flushPending = true ∧ 0 < s.ramBytes) ∨ ∃ bytes ∈ w.inFlight, 0 < bytes

theorem exists_pos_of_sum_pos {l : List Nat} (h : 0 < l.sum) : ∃ n ∈ l, 0 < n := by
  by_contra hnone
  have hzero : ∀ n ∈ l, n = 0 := fun n hn => by
    by_contra hne
    exact hnone ⟨n, hn, Nat.pos_of_ne_zero hne⟩
  rw [List.sum_eq_zero hzero] at h
  exact absurd h (Nat.lt_irrefl 0)

theorem Covered.flushesBytes {w : Writer} (h : Covered w) (hpos : 0 < w.ram.flushBytes) :
    FlushesBytes w := by
  unfold Covered at h
  have hsum : 0 < flushSum w.ram.slots ∨ 0 < w.inFlight.sum := by omega
  rcases hsum with hsum | hsum
  · obtain ⟨n, hn, hpos⟩ := exists_pos_of_sum_pos hsum
    obtain ⟨s, hs, rfl⟩ := List.mem_map.1 hn
    obtain ⟨hs, hp⟩ := List.mem_filter.1 hs
    exact Or.inl ⟨s, hs, hp, hpos⟩
  · exact Or.inr (exists_pos_of_sum_pos hsum)

/-- The slots alone do not make the decision: what stalls is being flushed. -/
theorem flushBytes_pos_of_stalls {ram : FlushControl} {buffer : Nat}
    (h : Writer.stalls ram buffer = true) : 0 < ram.flushBytes := by
  unfold Writer.stalls at h
  rw [Bool.and_eq_true, decide_eq_true_eq, decide_eq_true_eq] at h
  have := saturatingAdd_le ram.activeBytes ram.flushBytes
  omega

/-! ## The main result -/

/-- The accounting over every list of `update_ram` calls, with `flush_done`
called once for each checkout.  The totals are exact inside and between the
calls while all bytes fit in a `usize`.  Every marked slot holds documents
while no commit empties one.  The flags are mirrored after each call, and a
stall has something to flush. -/
theorem updateRam_accounting (slots : Nat) (buffer : Option Nat) :
    (∀ w changes, Reached Fits slots buffer w → Permits Fits w changes →
      Exact (changes.foldl Writer.change w)) ∧
    (∀ w changes, Reached KeepsDocs slots buffer w → Permits KeepsDocs w changes →
      MarkedHoldDocs (changes.foldl Writer.change w)) ∧
    (∀ w, Reached Returned slots buffer w →
      Mirrored w ∧ (w.stalled = true → FlushesBytes w)) := by
  refine ⟨?_, ?_, ?_⟩
  · intro w changes hw hp
    have h : Exact w := hw.run (Exact.new _ _) (fun _ _ => Exact.change) Exact.finish
    exact hp.run (fun _ _ => Exact.change) h
  · intro w changes hw hp
    have h : MarkedHoldDocs w :=
      hw.run (MarkedHoldDocs.new _ _) (fun _ _ => MarkedHoldDocs.change) fun _ _ h => h
    exact hp.run (fun _ _ => MarkedHoldDocs.change) h
  · intro w hw
    induction hw with
    | new => exact ⟨Mirrored.new _ _, fun h => Bool.noConfusion h⟩
    | @updateRam w changes hw hp ih =>
      have hcovered : Covered w :=
        hw.run (Nat.zero_le _) (fun _ _ => Covered.change) fun _ _ h => h
      unfold Writer.updateRam
      split
      · exact ih
      next b _ =>
        have htracks := hp.run (fun _ _ _ h => Tracks.change h) ih.1.tracks
        have hcovered := hp.run (fun _ _ => Covered.change) hcovered
        apply And.intro (htracks.finish_mirrored b)
        intro hstall
        exact Covered.flushesBytes (w := Writer.finish _ b) hcovered
          (flushBytes_pos_of_stalls hstall)

/-- A buffer is marked by its document count and grows while it is marked. -/
def markThenGrow : List Change :=
  [.commitSlotBytes 0 3 70, .onChange ⟨some 3, some 100⟩ (some 0), .commitSlotBytes 1 1 50,
    .commitSlotBytes 0 4 180]

/-- The marked buffer is taken while another one is in use, which stalls
indexing, and its flush is done afterwards. -/
theorem updateRam_accounting_run :
    let w := (Writer.new 2 (some 100)).updateRam markThenGrow
    let w' := w.updateRam [.checkoutForFlush 0]
    Exact (w'.change (.flushDone 180)) ∧ MarkedHoldDocs (w'.change (.flushDone 180)) ∧
      w'.stalled = true ∧ Mirrored w' ∧ FlushesBytes w' := by
  intro w w'
  have hfits : Reached Fits 2 (some 100) w' := by
    apply Reached.updateRam (Reached.updateRam Reached.new _)
    · exact ⟨⟨trivial, by decide⟩, trivial⟩
    · exact ⟨⟨trivial, by decide⟩, ⟨trivial, by decide⟩, ⟨trivial, by decide⟩,
        ⟨trivial, by decide⟩, trivial⟩
  have hdocs : Reached KeepsDocs 2 (some 100) w' := by
    apply Reached.updateRam (Reached.updateRam Reached.new _)
    · exact ⟨⟨trivial, by simp⟩, trivial⟩
    · exact ⟨⟨trivial, by simp⟩, ⟨trivial, by simp⟩, ⟨trivial, by simp⟩,
        ⟨trivial, by simp⟩, trivial⟩
  have hret : Reached Returned 2 (some 100) w' :=
    .updateRam (.updateRam .new ⟨trivial, trivial, trivial, trivial, trivial⟩)
      ⟨trivial, trivial⟩
  have hmem : (180 : Nat) ∈ w'.inFlight := by decide
  have hexact := (updateRam_accounting 2 (some 100)).1 w' [.flushDone 180] hfits
    ⟨⟨hmem, by decide⟩, trivial⟩
  have hmarked := (updateRam_accounting 2 (some 100)).2.1 w' [.flushDone 180] hdocs
    ⟨⟨hmem, by simp⟩, trivial⟩
  have hstalled : w'.stalled = true := by decide
  have hflags := (updateRam_accounting 2 (some 100)).2.2 w' hret
  exact ⟨hexact, hmarked, hstalled, hflags.1, hflags.2 hstalled⟩

/-- Two slots of `usize::MAX` bytes are more than `active_bytes` can say, and a
commit of no documents empties a marked slot. -/
theorem commit_breaks_accounting :
    (∃ w, w = (Writer.new 2 (some 100)).updateRam
        [.commitSlotBytes 0 1 usizeMax, .commitSlotBytes 1 1 usizeMax] ∧
      Reached Returned 2 (some 100) w ∧ w.ram.activeBytes ≠ activeSum w.ram.slots) ∧
    ∃ w, w = (Writer.new 1 (some 100)).updateRam
        [.commitSlotBytes 0 1 10, .setFlushPending 0, .commitSlotBytes 0 0 0] ∧
      Reached Returned 1 (some 100) w ∧ ¬ MarkedHoldDocs w := by
  apply And.intro
  · exact ⟨_, rfl, .updateRam .new ⟨trivial, trivial, trivial⟩, by decide⟩
  · refine ⟨_, rfl, .updateRam .new ⟨trivial, trivial, trivial, trivial⟩, ?_⟩
    intro h
    exact absurd (h ⟨0, 0, true⟩ (by decide) rfl) (by decide)

end LuceneRust.Index.FlushPolicy
