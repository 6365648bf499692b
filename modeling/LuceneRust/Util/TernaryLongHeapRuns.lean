import LuceneRust.Util.TernaryLongHeapSpec

/-!
# Runs of `TernaryLongHeap`

Each operation against the bag of what the heap holds.  `call_ok` is the step and
`run_ok` the run: a run panics only where it pops an empty heap, and otherwise it
leaves a heap in order over the bag that the calls describe.
-/

namespace LuceneRust.Util.TernaryLongHeap

open RustSem Rearrange AryHeap

variable {h h' : TernaryLongHeap} {x : Int} {cap : Nat}

/-- What the heap holds. -/
def elements (h : TernaryLongHeap) : Multiset Int := contents h.size (view h.heap)

/-- The heap is in order, and its vector has the place it needs. -/
structure Valid (h : TernaryLongHeap) : Prop where
  capacity : 1 ≤ h.initialCapacity
  room : h.size < h.heap.length
  ordered : Ordered arity h.size (view h.heap)

@[simp] theorem card_elements : h.elements.card = h.size := card_contents

theorem elements_eq_zero : h.elements = 0 ↔ h.size = 0 := by
  rw [← Multiset.card_eq_zero, card_elements]

/-! ## What the operations do -/

theorem length_resize (heap : List Int) {n : Nat} (hn : heap.length ≤ n) :
    (resize heap n).length = n := by
  rw [resize, List.take_of_length_le hn, List.length_append, List.length_replicate]
  omega

theorem view_resize (heap : List Int) {n i : Nat} (hn : heap.length ≤ n) (hi : i < heap.length) :
    view (resize heap n) i = view heap i := by
  unfold view resize
  rw [List.take_of_length_le hn, List.getD_append _ _ _ _ hi]

/-- The spec of `push`. -/
theorem push_ok (hv : Valid h) (x : Int) : ∃ h', h.push x = .ok h' ∧ Valid h' ∧
    h'.initialCapacity = h.initialCapacity ∧ h'.elements = x ::ₘ h.elements := by
  have hroom := hv.room
  -- the vector with a place for the new element
  obtain ⟨heap, hheap, hlen, hview⟩ : ∃ heap,
      (if h.size + 1 = h.heap.length then resize h.heap (((h.size + 1) * 3 + 1) / 2 + 1)
        else h.heap) = heap ∧ h.size + 1 < heap.length ∧
      ∀ i, i ≤ h.size → view heap i = view h.heap i := by
    refine ⟨_, rfl, ?_⟩
    split
    · rw [length_resize _ (by omega)]
      exact ⟨by omega, fun i hi => view_resize _ (by omega) (by omega)⟩
    · exact ⟨by omega, fun i _ => rfl⟩
  have hold : Ordered arity h.size (view heap) := by
    intro i hi hn
    have := parent_lt (d := arity) hi
    rw [hview i hn, hview _ (by omega)]
    exact hv.ordered i hi hn
  have hup : UpHole arity (h.size + 1) (h.size + 1) (view (heap.set (h.size + 1) x)) := by
    apply hold.upHole
    intro i hi
    rw [view_set hlen, Function.update_of_ne hi]
  obtain ⟨heap', hrun, hlen', hord, hre⟩ := upHeap_ok (by rw [List.length_set]; exact hlen) hup
  refine ⟨{ h with heap := heap', size := h.size + 1 }, ?_, ⟨hv.capacity, ?_, hord⟩, rfl, ?_⟩
  · unfold push
    dsimp only
    rw [hheap, put_ok hlen, ok_bind, hrun, ok_bind]
  · rw [hlen', List.length_set]
    exact hlen
  · change contents (h.size + 1) (view heap') = _
    rw [contents_rearranged hre, contents_succ, view_set hlen, Function.update_self]
    congr 1
    apply contents_congr
    intro i _ hn
    rw [Function.update_of_ne (by omega), hview i hn]

/-- The least of a heap that is not empty, and what `top` reads. -/
theorem top_ok (hv : Valid h) (hpos : 0 < h.size) : ∃ least, h.top = .ok least ∧
    h.heap[1]? = some least ∧ view h.heap 1 = least ∧ least ∈ h.elements ∧
    ∀ a ∈ h.elements, least ≤ a := by
  have hroom := hv.room
  have hget : h.heap[1]? = some (view h.heap 1) := getElem?_eq_view (by omega)
  obtain ⟨hmem, hleast⟩ := hv.ordered.least hpos
  refine ⟨view h.heap 1, ?_, hget, rfl, hmem, hleast⟩
  rw [top, hget, expect_some]

/-- Another value at the first place, before it goes down. -/
theorem contents_set_one {heap : List Int} {n : Nat} (hn : 1 ≤ n) (hlen : n < heap.length)
    (x : Int) : contents n (view (heap.set 1 x)) = x ::ₘ (contents n (view heap)).erase
      (view heap 1) := by
  obtain ⟨n, rfl⟩ := Nat.exists_eq_add_of_le' hn
  have hlt : 1 < heap.length := by omega
  induction n with
  | zero =>
    rw [contents_succ, contents_succ, contents_zero, contents_zero, view_set hlt,
      Function.update_self, Multiset.erase_cons_head]
  | succ n ih =>
    rw [contents_succ, ih (by omega) (by omega), contents_succ (n := n + 1), view_set hlt,
      Function.update_of_ne (by omega), Multiset.cons_swap]
    congr 1
    exact (Multiset.erase_cons_tail_of_mem (mem_contents.2 ⟨1, le_rfl, by omega, rfl⟩)).symm

/-- The spec of `pop`. -/
theorem pop_ok (hv : Valid h) (hpos : 0 < h.size) : ∃ least h', h.top = .ok least ∧
    h.pop = .ok (least, h') ∧ Valid h' ∧ h'.initialCapacity = h.initialCapacity ∧
    least ∈ h.elements ∧ (∀ a ∈ h.elements, least ≤ a) ∧
    h'.elements = h.elements.erase least := by
  have hroom := hv.room
  obtain ⟨least, htop, hget, hview, hmem, hleast⟩ := top_ok hv hpos
  have hlast : h.heap[h.size]? = some (view h.heap h.size) := getElem?_eq_view hroom
  have hput : put h.heap 1 (view h.heap h.size) = .ok (h.heap.set 1 (view h.heap h.size)) :=
    put_ok (by omega) _
  -- the last element goes to the first place
  have hmoved : contents (h.size - 1) (view (h.heap.set 1 (view h.heap h.size))) =
      h.elements.erase least := by
    unfold elements
    rw [← hview]
    obtain ⟨n, hn⟩ := Nat.exists_eq_add_of_le' hpos
    rw [hn, Nat.add_sub_cancel]
    rcases Nat.eq_zero_or_pos n with rfl | hn'
    · rw [contents_succ, contents_zero, contents_zero, Multiset.erase_cons_head]
    · rw [contents_set_one hn' (by omega), contents_succ]
      exact (Multiset.erase_cons_tail_of_mem (mem_contents.2 ⟨1, le_rfl, hn', rfl⟩)).symm
  have hrun : ∃ heap', downHeap (h.heap.set 1 (view h.heap h.size)) 1 (h.size - 1) = .ok heap' ∧
      heap'.length = h.heap.length ∧ Ordered arity (h.size - 1) (view heap') ∧
      contents (h.size - 1) (view heap') = h.elements.erase least := by
    rcases Nat.eq_zero_or_pos (h.size - 1) with hz | hn
    · refine ⟨_, by rw [downHeap, if_pos hz], List.length_set, ?_, hmoved⟩
      rw [hz]
      intro i hi hn
      omega
    · have hdown : DownHole arity (h.size - 1) 1 (view (h.heap.set 1 (view h.heap h.size))) := by
        apply Ordered.downHole (v := view h.heap) _ hn
        · intro i hi
          rw [view_set (by omega), Function.update_of_ne hi]
        · intro i hi hin
          exact hv.ordered i hi (by omega)
      obtain ⟨heap', hrun, hlen', hord, hre⟩ := downHeap_ok (by rw [List.length_set]; omega) hdown
      rw [List.length_set] at hlen'
      exact ⟨heap', hrun, hlen', hord, by rw [contents_rearranged hre, hmoved]⟩
  obtain ⟨heap', hdown, hlen', hord, helems⟩ := hrun
  refine ⟨least, { h with heap := heap', size := h.size - 1 }, htop, ?_,
    ⟨hv.capacity, ?_, hord⟩, rfl, hmem, hleast, helems⟩
  · unfold pop
    rw [guardOk_pos hpos, ok_bind, hget, expect_some, ok_bind, hlast,
      expect_some, ok_bind, hput, ok_bind]
    dsimp only
    rw [hdown, ok_bind]
  · rw [hlen']
    dsimp only
    omega

/-- `insert_with_overflow` of a value that is less than all of a full heap. -/
theorem insert_low (hv : Valid h) (hfull : h.initialCapacity ≤ h.size)
    (hx : ∀ a ∈ h.elements, x < a) : h.insertWithOverflow x = .ok (false, h) := by
  have hcap := hv.capacity
  obtain ⟨least, -, hget, -, hmem, -⟩ := top_ok hv (by omega)
  rw [insertWithOverflow, if_pos hfull, hget, expect_some, ok_bind,
    if_pos (hx least hmem)]

/-- `insert_with_overflow` of a value that a full heap keeps. -/
theorem insert_replaces (hv : Valid h) (hfull : h.initialCapacity ≤ h.size) {least : Int}
    (hmem : least ∈ h.elements) (hleast : ∀ a ∈ h.elements, least ≤ a) (hx : least ≤ x) :
    ∃ h', h.insertWithOverflow x = .ok (true, h') ∧ Valid h' ∧
      h'.initialCapacity = h.initialCapacity ∧ h'.elements = x ::ₘ h.elements.erase least := by
  have hcap := hv.capacity
  have hroom := hv.room
  obtain ⟨least', -, hget, hview, hmem', hleast'⟩ := top_ok hv (by omega)
  have heq : least' = least := le_antisymm (hleast' least hmem) (hleast least' hmem')
  rw [heq] at hget hview
  have hdown : DownHole arity h.size 1 (view (h.heap.set 1 x)) := by
    apply hv.ordered.downHole (by omega)
    intro i hi
    rw [view_set (by omega), Function.update_of_ne hi]
  obtain ⟨heap', hrun, hlen', hord, hre⟩ := downHeap_ok (by rw [List.length_set]; omega) hdown
  refine ⟨{ h with heap := heap' }, ?_, ⟨hcap, ?_, hord⟩, rfl, ?_⟩
  · rw [insertWithOverflow, if_pos hfull, hget, expect_some, ok_bind,
      if_neg (not_lt.2 hx), put_ok (by omega), ok_bind, hrun, ok_bind]
  · rw [hlen', List.length_set]
    exact hroom
  · change contents h.size (view heap') = _
    rw [contents_rearranged hre, contents_set_one (by omega) hroom, hview]
    rfl

/-- `insert_with_overflow` while there is room. -/
theorem insert_room (hv : Valid h) (hroom : h.size < h.initialCapacity) (x : Int) :
    ∃ h', h.insertWithOverflow x = .ok (true, h') ∧ Valid h' ∧
      h'.initialCapacity = h.initialCapacity ∧ h'.elements = x ::ₘ h.elements := by
  obtain ⟨h', hrun, hv', hcap, helems⟩ := push_ok hv x
  refine ⟨h', ?_, hv', hcap, helems⟩
  rw [insertWithOverflow, if_neg (by omega), hrun, ok_bind]

/-! ## Runs -/

/-- One call on a heap. -/
inductive Call where
  | push (element : Int)
  | pop
  | insertWithOverflow (value : Int)
  | clear
  deriving Repr, DecidableEq

/-- What the call does to the heap. -/
def call (h : TernaryLongHeap) : Call → Outcome Empty TernaryLongHeap
  | .push element => h.push element
  | .pop => do
    let (_, h) ← h.pop
    .ok h
  | .insertWithOverflow value => do
    let (_, h) ← h.insertWithOverflow value
    .ok h
  | .clear => .ok h.clear

/-- The calls one after the other. -/
def run (h : TernaryLongHeap) : List Call → Outcome Empty TernaryLongHeap
  | [] => .ok h
  | c :: calls => do
    let h ← h.call c
    h.run calls

/-- The loop that pops until the heap is empty. -/
def drain : Nat → TernaryLongHeap → Outcome Empty (List Int)
  | 0, _ => .ok []
  | n + 1, h => do
    let (x, h) ← h.pop
    let xs ← drain n h
    .ok (x :: xs)

/-- What a call means for the bag of the elements of a heap of the capacity `cap`. -/
inductive Step (cap : Nat) : Multiset Int → Call → Multiset Int → Prop
  | push (bag x) : Step cap bag (.push x) (x ::ₘ bag)
  | pop (bag least) (hmem : least ∈ bag) (hleast : ∀ a ∈ bag, least ≤ a) :
      Step cap bag .pop (bag.erase least)
  | room (bag x) (hroom : bag.card < cap) : Step cap bag (.insertWithOverflow x) (x ::ₘ bag)
  | refuse (bag x) (hfull : cap ≤ bag.card) (hx : ∀ a ∈ bag, x < a) :
      Step cap bag (.insertWithOverflow x) bag
  | replace (bag x least) (hfull : cap ≤ bag.card) (hmem : least ∈ bag)
      (hleast : ∀ a ∈ bag, least ≤ a) (hx : least ≤ x) :
      Step cap bag (.insertWithOverflow x) (x ::ₘ bag.erase least)
  | clear (bag) : Step cap bag .clear 0

/-- What a run means for the bag. -/
inductive Steps (cap : Nat) : Multiset Int → List Call → Multiset Int → Prop
  | nil (bag) : Steps cap bag [] bag
  | cons {bag bag' bag'' c calls} (hstep : Step cap bag c bag')
      (htail : Steps cap bag' calls bag'') : Steps cap bag (c :: calls) bag''

/-- A call on a heap in order: only popping an empty heap panics. -/
theorem call_ok (hv : Valid h) (c : Call) (hc : c = .pop → h.elements ≠ 0) :
    ∃ h', h.call c = .ok h' ∧ Valid h' ∧ h'.initialCapacity = h.initialCapacity ∧
      Step h.initialCapacity h.elements c h'.elements := by
  have hcap := hv.capacity
  cases c with
  | push x =>
    obtain ⟨h', hrun, hv', hcap', helems⟩ := push_ok hv x
    exact ⟨h', hrun, hv', hcap', helems ▸ .push _ x⟩
  | pop =>
    have hpos : 0 < h.size := by
      have := mt elements_eq_zero.2 (hc rfl)
      omega
    obtain ⟨least, h', -, hrun, hv', hcap', hmem, hleast, helems⟩ := pop_ok hv hpos
    refine ⟨h', ?_, hv', hcap', helems ▸ .pop _ least hmem hleast⟩
    rw [call, hrun, ok_bind]
  | insertWithOverflow x =>
    by_cases hfull : h.initialCapacity ≤ h.size
    · have hcard : h.initialCapacity ≤ h.elements.card := by rwa [card_elements]
      obtain ⟨least, -, -, -, hmem, hleast⟩ := top_ok hv (by omega)
      by_cases hx : least ≤ x
      · obtain ⟨h', hrun, hv', hcap', helems⟩ := insert_replaces hv hfull hmem hleast hx
        refine ⟨h', ?_, hv', hcap', helems ▸ .replace _ x least hcard hmem hleast hx⟩
        rw [call, hrun, ok_bind]
      · have hlow : ∀ a ∈ h.elements, x < a := fun a ha => (not_le.1 hx).trans_le (hleast a ha)
        refine ⟨h, ?_, hv, rfl, .refuse _ x hcard hlow⟩
        rw [call, insert_low hv hfull hlow, ok_bind]
    · obtain ⟨h', hrun, hv', hcap', helems⟩ := insert_room hv (by omega) x
      refine ⟨h', ?_, hv', hcap', helems ▸ .room _ x (by rw [card_elements]; omega)⟩
      rw [call, hrun, ok_bind]
  | clear =>
    have hzero : h.clear.elements = 0 := elements_eq_zero.2 rfl
    have hroom := hv.room
    refine ⟨h.clear, rfl, ⟨hcap, ?_, ?_⟩, rfl, hzero ▸ .clear _⟩
    · change 0 < h.heap.length
      omega
    · intro i hi hn
      change i ≤ 0 at hn
      omega

/-- A call that panics pops an empty heap. -/
theorem call_panic (hv : Valid h) {c : Call} :
    (∀ h', h.call c ≠ .ok h') ↔ c = .pop ∧ h.elements = 0 := by
  constructor
  · intro hno
    by_contra hcontra
    rw [not_and] at hcontra
    obtain ⟨h', hrun, -⟩ := call_ok hv c hcontra
    exact hno h' hrun
  · rintro ⟨rfl, hzero⟩ h' hrun
    have hsize : ¬ 0 < h.size := by
      have := elements_eq_zero.1 hzero
      omega
    obtain ⟨⟨y, h''⟩, hpop, -⟩ := Outcome.bind_eq_ok.1 hrun
    unfold pop at hpop
    obtain ⟨u, hguard, -⟩ := Outcome.bind_eq_ok.1 hpop
    exact hsize (guardOk_eq_ok hguard)

/-- A run of calls on a heap in order. -/
theorem run_ok (hv : Valid h) {calls : List Call} (hrun : h.run calls = .ok h') :
    Valid h' ∧ h'.initialCapacity = h.initialCapacity ∧
      Steps h.initialCapacity h.elements calls h'.elements := by
  induction calls generalizing h with
  | nil =>
    cases hrun
    exact ⟨hv, rfl, .nil _⟩
  | cons c calls ih =>
    obtain ⟨h₁, hcall, hrest⟩ := Outcome.bind_eq_ok.1 hrun
    have hpop : c = .pop → h.elements ≠ 0 := by
      intro hc hzero
      exact (call_panic hv).2 ⟨hc, hzero⟩ h₁ hcall
    obtain ⟨h₂, hcall', hv₁, hcap₁, hstep⟩ := call_ok hv c hpop
    rw [hcall] at hcall'
    cases hcall'
    obtain ⟨hv', hcap', hsteps⟩ := ih hv₁ hrest
    rw [hcap₁] at hcap' hsteps
    exact ⟨hv', hcap', .cons hstep hsteps⟩

/-- A run that does not return pops an empty heap. -/
theorem run_panic (hv : Valid h) (calls : List Call) :
    (∃ h', h.run calls = .ok h') ∨ ∃ before rest h₁, calls = before ++ .pop :: rest ∧
      h.run before = .ok h₁ ∧ h₁.size = 0 := by
  induction calls generalizing h with
  | nil => exact .inl ⟨h, rfl⟩
  | cons c calls ih =>
    by_cases hno : ∃ h₁, h.call c = .ok h₁
    · obtain ⟨h₁, hcall⟩ := hno
      have hone : h.run [c] = .ok h₁ := by rw [run, hcall, ok_bind, run]
      have hcons : ∀ rest, h.run (c :: rest) = h₁.run rest := by
        intro rest
        rw [run, hcall, ok_bind]
      rcases ih (run_ok hv hone).1 with ⟨h', hrest⟩ | ⟨before, rest, h₂, rfl, hbefore, hzero⟩
      · exact .inl ⟨h', by rw [hcons, hrest]⟩
      · exact .inr ⟨c :: before, rest, h₂, rfl, by rw [hcons, hbefore], hzero⟩
    · obtain ⟨rfl, hzero⟩ := (call_panic hv).1 fun h' hcall => hno ⟨h', hcall⟩
      exact .inr ⟨[], calls, h, rfl, rfl, elements_eq_zero.1 hzero⟩

/-- Draining gives the elements in ascending order. -/
theorem drain_ok (hv : Valid h) {n : Nat} (hn : h.size = n) :
    ∃ xs, drain n h = .ok xs ∧ xs.Pairwise (· ≤ ·) ∧ (xs : Multiset Int) = h.elements := by
  induction n generalizing h with
  | zero => exact ⟨[], rfl, .nil, (elements_eq_zero.2 hn).symm⟩
  | succ n ih =>
    obtain ⟨least, h', -, hpop, hv', -, hmem, hleast, helems⟩ := pop_ok hv (by omega)
    have hsize : h'.size = n := by
      rw [← card_elements, helems, Multiset.card_erase_of_mem hmem, card_elements, hn]
      rfl
    obtain ⟨xs, hxs, hsorted, hbag⟩ := ih hv' hsize
    refine ⟨least :: xs, ?_, List.pairwise_cons.2 ⟨fun a ha => ?_, hsorted⟩, ?_⟩
    · rw [drain, hpop, ok_bind]
      dsimp only
      rw [hxs, ok_bind]
    · have : a ∈ h'.elements := hbag ▸ Multiset.mem_coe.2 ha
      rw [helems] at this
      exact hleast a (Multiset.mem_of_mem_erase this)
    · rw [← Multiset.cons_coe, hbag, helems, Multiset.cons_erase hmem]

/-- What `insert_with_overflow` keeps. -/
theorem inserts_ok (hv : Valid h) (values : List Int) {offered : Multiset Int}
    (hkept : Greatest h.initialCapacity offered h.elements) :
    ∃ h', h.run (values.map .insertWithOverflow) = .ok h' ∧
      Greatest h.initialCapacity (offered + (values : Multiset Int)) h'.elements := by
  induction values generalizing h offered with
  | nil => exact ⟨h, rfl, by rwa [Multiset.coe_nil, add_zero]⟩
  | cons x values ih =>
    obtain ⟨h₁, hcall, hv₁, hcap₁, hstep⟩ := call_ok hv (.insertWithOverflow x) (fun h => nomatch h)
    have hkept₁ : Greatest h₁.initialCapacity (x ::ₘ offered) h₁.elements := by
      rw [hcap₁]
      generalize h₁.elements = bag at hstep
      cases hstep with
      | room _ hroom => exact hkept.room hroom
      | refuse _ hfull hx => exact hkept.refuse hfull hx
      | replace _ least hfull hmem hleast hx => exact hkept.replace hfull hmem hleast hx
    obtain ⟨h', hrun, hres⟩ := ih hv₁ hkept₁
    refine ⟨h', ?_, ?_⟩
    · rw [List.map_cons, run, hcall, ok_bind, hrun]
    · rw [hcap₁, Multiset.cons_add] at hres
      rwa [← Multiset.cons_coe, Multiset.add_cons]

theorem new_ok (hcap : 1 ≤ cap) : ∃ h, new cap = .ok h ∧ Valid h ∧ h.initialCapacity = cap ∧
    h.elements = 0 := by
  refine ⟨⟨cap, List.replicate (cap + 1) 0, 0⟩, ?_, ⟨hcap, ?_, ?_⟩, rfl, elements_eq_zero.2 rfl⟩
  · rw [new, guardOk_pos hcap, ok_bind]
  · change 0 < (List.replicate (cap + 1) 0).length
    rw [List.length_replicate]
    omega
  · intro i hi hn
    change i ≤ 0 at hn
    omega

/-- The heap over every run: in order over exactly the bag that the calls describe, with
the least on top, ascending when drained, and the greatest of what is offered when it is
only offered values. -/
theorem runs_keep_order (hcap : 1 ≤ cap) : ∃ h₀, new cap = .ok h₀ ∧
    (∀ calls h, h₀.run calls = .ok h →
      Ordered arity h.size (view h.heap) ∧ Steps cap 0 calls h.elements ∧
      (0 < h.size → ∃ least h', h.top = .ok least ∧ h.pop = .ok (least, h') ∧
        least ∈ h.elements ∧ (∀ a ∈ h.elements, least ≤ a) ∧
        h'.elements = h.elements.erase least) ∧
      ∃ xs, drain h.size h = .ok xs ∧ xs.Pairwise (· ≤ ·) ∧ (xs : Multiset Int) = h.elements) ∧
    (∀ calls, (∃ h, h₀.run calls = .ok h) ∨ ∃ before rest h₁, calls = before ++ .pop :: rest ∧
      h₀.run before = .ok h₁ ∧ h₁.size = 0) ∧
    ∀ values : List Int, ∃ h, h₀.run (values.map .insertWithOverflow) = .ok h ∧
      Greatest cap values h.elements := by
  obtain ⟨h₀, hnew, hv, hcap₀, hzero⟩ := new_ok hcap
  refine ⟨h₀, hnew, ?_, run_panic hv, ?_⟩
  · intro calls h hrun
    obtain ⟨hv', -, hsteps⟩ := run_ok hv hrun
    rw [hcap₀, hzero] at hsteps
    refine ⟨hv'.ordered, hsteps, fun hpos => ?_, drain_ok hv' rfl⟩
    obtain ⟨least, h', htop, hpop, -, -, hmem, hleast, helems⟩ := pop_ok hv' hpos
    exact ⟨least, h', htop, hpop, hmem, hleast, helems⟩
  · intro values
    have hnone : Greatest h₀.initialCapacity 0 h₀.elements := by
      rw [hzero]
      exact Greatest.all (Nat.zero_le _)
    obtain ⟨h, hrun, hkept⟩ := inserts_ok hv values hnone
    rw [hcap₀, zero_add] at hkept
    exact ⟨h, hrun, hkept⟩

theorem runs_keep_order_two : ∃ h₀, new 2 = .ok h₀ ∧
    ∃ h, h₀.run ([5, 1, 7, 3].map .insertWithOverflow) = .ok h ∧
      Greatest 2 ([5, 1, 7, 3] : List Int) h.elements := by
  obtain ⟨h₀, hnew, -, -, hkept⟩ := runs_keep_order (show 1 ≤ 2 by decide)
  exact ⟨h₀, hnew, hkept [5, 1, 7, 3]⟩

end LuceneRust.Util.TernaryLongHeap
