import LuceneRust.Util.Sorter.Radix
import LuceneRust.Util.Sorter.SliceAccess
import Mathlib.Algebra.Order.Interval.Finset.SuccPred
import Mathlib.Data.List.Lex
import Mathlib.Data.Nat.SuccPred

/-!
# Targets that show the bytes of keys

`RadixAccess t α maxLength lo hi` says that the target `t` gives access to the
places `lo..hi` of a slice of entries of the type `α`, and to the bytes of their
keys.  The order is that of `sortKey`, the first `max_length` bytes.

* `sortKey_lt` and `sortKey_eq` read the order off the buckets of a byte.
* `prefixAndHistogram_spec`: either the keys agree on some more bytes, or the
  histogram counts the entries of each bucket.
-/

namespace LuceneRust.Util.Sorter

open RustSem StateHoare Rearrange SliceView

/-! ## Keys -/

/-- What `byteAt` shows of a key. -/
def byteOf (key : List U8) (k : Nat) : Int :=
  match key[k]? with
  | none => -1
  | some b => b.toNat

/-- The bucket of a key by its byte `k`. -/
def bucketAt (key : List U8) (k : Nat) : Nat := (byteOf key k + 1).toNat

/-- The first bytes of a key, in lexicographic order. -/
def sortKey (maxLength : Nat) (key : List U8) : List Nat := (key.take maxLength).map BitVec.toNat

section Keys

variable {x y : List U8} {k k' m maxLength : Nat}

@[simp] theorem bucketAt_nil (k : Nat) : bucketAt [] k = 0 := rfl

@[simp] theorem bucketAt_cons_zero (b : U8) (x : List U8) :
    bucketAt (b :: x) 0 = b.toNat + 1 := rfl

@[simp] theorem bucketAt_cons_succ (b : U8) (x : List U8) (k : Nat) :
    bucketAt (b :: x) (k + 1) = bucketAt x k := rfl

theorem byteOf_eq (key : List U8) (k : Nat) : byteOf key k = (bucketAt key k : Int) - 1 := by
  unfold bucketAt byteOf
  split <;> omega

theorem bucketAt_lt (key : List U8) (k : Nat) : bucketAt key k < radixHistogramSize := by
  unfold bucketAt byteOf radixHistogramSize
  split
  · omega
  next b _ =>
    have := b.isLt
    omega

/-- Behind the end of a key there is nothing more. -/
theorem bucketAt_end (h : bucketAt x k = 0) (hle : k ≤ k') : bucketAt x k' = 0 := by
  induction x generalizing k k' with
  | nil => rfl
  | cons b x ih =>
    cases k with
    | zero => cases h
    | succ k =>
      obtain ⟨k', rfl⟩ : ∃ m, k' = m + 1 := ⟨k' - 1, by omega⟩
      exact ih (k := k) h (by omega)

/-- The first different byte decides. -/
theorem sortKey_lt (hk : k < maxLength) (hagree : ∀ j, j < k → bucketAt x j = bucketAt y j)
    (hlt : bucketAt x k < bucketAt y k) : sortKey maxLength x < sortKey maxLength y := by
  induction k generalizing x y maxLength with
  | zero =>
    obtain ⟨m, rfl⟩ : ∃ m, maxLength = m + 1 := ⟨maxLength - 1, by omega⟩
    cases y with
    | nil => exact absurd hlt (Nat.not_lt_zero _)
    | cons b y =>
      cases x with
      | nil => exact List.nil_lt_cons _ _
      | cons a x =>
        rw [bucketAt_cons_zero, bucketAt_cons_zero] at hlt
        exact List.cons_lt_cons_iff.2 (Or.inl (by omega))
  | succ k ih =>
    obtain ⟨m, rfl⟩ : ∃ m, maxLength = m + 1 := ⟨maxLength - 1, by omega⟩
    cases y with
    | nil => exact absurd hlt (Nat.not_lt_zero _)
    | cons b y =>
      cases x with
      | nil => exact List.nil_lt_cons _ _
      | cons a x =>
        have hzero := hagree 0 (Nat.succ_pos k)
        rw [bucketAt_cons_zero, bucketAt_cons_zero] at hzero
        exact List.cons_lt_cons_iff.2 (Or.inr ⟨by omega,
          ih (by omega : k < m) (fun j hj => hagree (j + 1) (by omega)) hlt⟩)

/-- Keys that agree on all bytes are equal. -/
theorem sortKey_eq (hagree : ∀ j, j < maxLength → bucketAt x j = bucketAt y j) :
    sortKey maxLength x = sortKey maxLength y := by
  induction maxLength generalizing x y with
  | zero => rfl
  | succ m ih =>
    have hzero := hagree 0 (Nat.succ_pos m)
    cases x with
    | nil =>
      cases y with
      | nil => rfl
      | cons b y => cases hzero
    | cons a x =>
      cases y with
      | nil => cases hzero
      | cons b y =>
        rw [bucketAt_cons_zero, bucketAt_cons_zero] at hzero
        have htail := ih (x := x) (y := y) fun j hj => hagree (j + 1) (by omega)
        unfold sortKey at htail ⊢
        rw [List.take_succ_cons, List.take_succ_cons, List.map_cons, List.map_cons, htail,
          show a.toNat = b.toNat by omega]

end Keys

/-! ## The access -/

variable {σ α : Type}

/-- The hooks of `t` are those of a slice of entries with keys, at the places
`lo..hi`.  The bytes in front of `max_length` are read, and the first one also
where `max_length` is 0. -/
structure RadixAccess (t : RadixTarget σ) (α : Type) (maxLength lo hi : Nat) extends
    SliceView σ α where
  key : α → List U8
  swap_law : ∀ {s i j}, Valid s → lo ≤ i ∧ i < hi → lo ≤ j ∧ j < hi →
    Yields (t.swap i j) s fun _ s' => Valid s' ∧ view s' = swapAt (view s) i j
  byteAt_law : ∀ {s i k}, Valid s → lo ≤ i ∧ i < hi → k < max maxLength 1 →
    Yields (t.byteAt i k) s fun b s' =>
      Valid s' ∧ view s' = view s ∧ b = byteOf (key (view s i)) k

variable {t : RadixTarget σ} {maxLength lo hi : Nat} {acc : RadixAccess t α maxLength lo hi}
  {a b k : Nat} {s : σ} {v w : Nat → α}

namespace RadixAccess

/-- The bucket of the entry at a place. -/
def bucket (acc : RadixAccess t α maxLength lo hi) (v : Nat → α) (k x : Nat) : Nat :=
  bucketAt (acc.key (v x)) k

/-- The keys of the places, in the order that is sorted by. -/
def keys (acc : RadixAccess t α maxLength lo hi) (v : Nat → α) (x : Nat) : List Nat :=
  sortKey maxLength (acc.key (v x))

/-- The keys of a range agree on the first `k` bytes. -/
def Agree (acc : RadixAccess t α maxLength lo hi) (a b k : Nat) (v : Nat → α) : Prop :=
  ∀ x y, a ≤ x → x < b → a ≤ y → y < b → ∀ j, j < k → acc.bucket v j x = acc.bucket v j y

/-- The entries of a range in the bucket `c`. -/
def inBucket (acc : RadixAccess t α maxLength lo hi) (a b k : Nat) (v : Nat → α) (c : Nat) :
    Finset Nat := (Finset.Ico a b).filter fun x => acc.bucket v k x = c

theorem Agree.zero (acc : RadixAccess t α maxLength lo hi) (a b : Nat) (v : Nat → α) :
    acc.Agree a b 0 v := fun _ _ _ _ _ _ _ hj => absurd hj (Nat.not_lt_zero _)

theorem Agree.mono {a' b' k' : Nat} (h : acc.Agree a b k v) (ha : a ≤ a') (hb : b' ≤ b)
    (hk : k' ≤ k) : acc.Agree a' b' k' v :=
  fun x y hx hxb hy hyb j hj => h x y (by omega) (by omega) (by omega) (by omega) j (by omega)

theorem Agree.rearranged (h : acc.Agree a b k v) (hre : Rearranged a b v w) :
    acc.Agree a b k w := by
  intro x y hx hxb hy hyb j hj
  obtain ⟨x', hx', heqx⟩ := hre.source ⟨hx, hxb⟩
  obtain ⟨y', hy', heqy⟩ := hre.source ⟨hy, hyb⟩
  unfold bucket
  rw [heqx, heqy]
  exact h x' y' hx'.1 hx'.2 hy'.1 hy'.2 j hj

/-- Keys that agree on all bytes are all equal. -/
theorem Agree.keys_eq (h : acc.Agree a b k v) (hk : maxLength ≤ k) {x y : Nat} (hx : a ≤ x)
    (hxb : x < b) (hy : a ≤ y) (hyb : y < b) : acc.keys v x = acc.keys v y :=
  sortKey_eq fun j hj => h x y hx hxb hy hyb j (by omega)

/-- Keys that agree on `k` bytes, of entries that all are in the bucket `c` by the
next one. -/
theorem Agree.succ (h : acc.Agree a b k v) {c : Nat}
    (hc : ∀ x, a ≤ x → x < b → acc.bucket v k x = c) : acc.Agree a b (k + 1) v := by
  intro x y hx hxb hy hyb j hj
  rcases Nat.eq_or_lt_of_le (Nat.le_of_lt_succ hj) with rfl | hlt
  · rw [hc x hx hxb, hc y hy hyb]
  · exact h x y hx hxb hy hyb j hlt

/-- Keys that all end at `k`. -/
theorem Agree.ended (h : acc.Agree a b k v) (hc : ∀ x, a ≤ x → x < b → acc.bucket v k x = 0)
    (k' : Nat) : acc.Agree a b k' v := by
  intro x y hx hxb hy hyb j _
  rcases Nat.lt_or_ge j k with hlt | hge
  · exact h x y hx hxb hy hyb j hlt
  · unfold bucket
    rw [bucketAt_end (hc x hx hxb) hge, bucketAt_end (hc y hy hyb) hge]

theorem Agree.keys_le (h : acc.Agree a b k v) (hk : k < maxLength) {x y : Nat} (hx : a ≤ x)
    (hxb : x < b) (hy : a ≤ y) (hyb : y < b) (hlt : acc.bucket v k x < acc.bucket v k y) :
    acc.keys v x ≤ acc.keys v y :=
  le_of_lt (sortKey_lt hk (fun j hj => h x y hx hxb hy hyb j hj) hlt)

end RadixAccess

open RadixAccess

theorem SliceView.At.exchange (h : acc.At v s) {i j : Nat} (hi' : lo ≤ i ∧ i < hi)
    (hj : lo ≤ j ∧ j < hi) : Yields (t.swap i j) s fun _ => acc.At (swapAt v i j) := by
  obtain ⟨hvalid, rfl⟩ := h
  exact acc.swap_law hvalid hi' hj

theorem SliceView.At.byteAt (h : acc.At v s) {i : Nat} (hi' : lo ≤ i ∧ i < hi)
    (hk : k < max maxLength 1) :
    Yields (t.byteAt i k) s fun b s' => acc.At v s' ∧ b = byteOf (acc.key (v i)) k := by
  obtain ⟨hvalid, rfl⟩ := h
  exact (acc.byteAt_law hvalid hi' hk).mono fun _ _ h => ⟨⟨h.1, h.2.1⟩, h.2.2⟩

theorem bucketOf_spec (key : List U8) (k : Nat) (s : σ) :
    Yields (bucketOf (byteOf key k)) s fun c s' => s' = s ∧ c = bucketAt key k := by
  have hlt := bucketAt_lt key k
  unfold bucketOf
  rw [if_pos (by rw [byteOf_eq]; omega)]
  exact Yields.pure ⟨rfl, rfl⟩

/-! ## The histogram -/

/-- How many entries of a range are in each bucket. -/
def bucketCounts (acc : RadixAccess t α maxLength lo hi) (a b k : Nat) (v : Nat → α) : Histogram :=
  fun c => (acc.inBucket a b k v c).card

theorem bucketCounts_rearranged (hre : Rearranged a b v w) (c : Nat) :
    bucketCounts acc a b k w c = bucketCounts acc a b k v c :=
  hre.card_filter fun z => bucketAt (acc.key z) k = c

theorem bucketCounts_succ (h : a < b) (c : Nat) :
    bucketCounts acc a b k v c =
      (if acc.bucket v k a = c then 1 else 0) + bucketCounts acc (a + 1) b k v c := by
  unfold bucketCounts inBucket
  rw [← Finset.insert_Ico_add_one_left_eq_Ico h, Finset.filter_insert]
  split
  · rw [Finset.card_insert_of_notMem, Nat.add_comm]
    rw [Finset.mem_filter, Finset.mem_Ico]
    omega
  · rw [Nat.zero_add]

/-- The entries in front of `i`, which are all in one bucket, and those behind. -/
theorem bucketCounts_split {i c₀ : Nat} (hi' : a ≤ i) (hib : i ≤ b)
    (hc : ∀ x, a ≤ x → x < i → acc.bucket v k x = c₀) (c : Nat) :
    bucketCounts acc a b k v c =
      (if c = c₀ then i - a else 0) + bucketCounts acc i b k v c := by
  induction i, hi' using Nat.le_induction with
  | base =>
    rw [Nat.sub_self, ite_self, Nat.zero_add]
  | succ i hai ih =>
    rw [ih (by omega) (fun x hx hxi => hc x hx (by omega)), bucketCounts_succ (a := i) (by omega),
      hc i hai (Nat.lt_succ_self i)]
    by_cases heq : c = c₀
    · rw [if_pos heq, if_pos heq, if_pos heq.symm]
      omega
    · rw [if_neg heq, if_neg heq, if_neg (Ne.symm heq)]
      omega

theorem countBytes_spec (hk : k < max maxLength 1) :
    ∀ (n x : Nat) (h : Histogram) (s : σ), acc.At v s → lo ≤ x → x + n ≤ hi →
      Yields (countBytes t k n x h) s fun h' s' => acc.At v s' ∧
        ∀ c, h' c = h c + bucketCounts acc x (x + n) k v c := by
  intro n
  induction n with
  | zero =>
    intro x h s hs _ _
    apply Yields.pure
    refine ⟨hs, fun c => ?_⟩
    unfold bucketCounts inBucket
    rw [Nat.add_zero, Finset.Ico_self, Finset.filter_empty, Finset.card_empty, Nat.add_zero]
  | succ n ih =>
    intro x h s hs hx hn
    unfold countBytes
    apply (hs.byteAt (i := x) (by omega) hk).bind
    intro byte s₁ ⟨hs₁, hbyte⟩
    rw [hbyte]
    apply (bucketOf_spec _ k s₁).bind
    intro c₁ s₂ ⟨hs₂, hc₁⟩
    rw [hs₂, hc₁]
    apply (ih (x + 1) _ s₁ hs₁ (by omega) (by omega)).mono
    intro h' s' ⟨hs', hcount⟩
    refine ⟨hs', fun c => ?_⟩
    rw [hcount c, bucketCounts_succ (a := x) (by omega), show x + 1 + n = x + (n + 1) by omega]
    unfold Histogram.incr Histogram.set bucket
    by_cases heq : c = bucketAt (acc.key (v x)) k
    · rw [if_pos heq, if_pos heq.symm, heq]
      omega
    · rw [if_neg heq, if_neg (Ne.symm heq)]
      omega

/-! ## The common prefix -/

/-- The bytes of a key from `k + j` on. -/
def bytesFrom (key : List U8) (k len j : Nat) : List Int :=
  (List.range' j len).map fun j => byteOf key (k + j)

theorem bytesFrom_succ (key : List U8) (k len j : Nat) :
    bytesFrom key k (len + 1) j = byteOf key (k + j) :: bytesFrom key k len (j + 1) := rfl

theorem bytesFrom_length (key : List U8) (k len j : Nat) :
    (bytesFrom key k len j).length = len := by
  unfold bytesFrom
  rw [List.length_map, List.length_range']

theorem bytesFrom_take (key : List U8) (k : Nat) :
    ∀ n len j, n ≤ len → (bytesFrom key k len j).take n = bytesFrom key k n j := by
  intro n
  induction n with
  | zero => exact fun len j _ => rfl
  | succ n ih =>
    intro len j hn
    obtain ⟨m, rfl⟩ : ∃ m, len = m + 1 := ⟨len - 1, by omega⟩
    rw [bytesFrom_succ, bytesFrom_succ, List.take_succ_cons, ih m (j + 1) (by omega)]

theorem readCommon_spec (ha : lo ≤ a ∧ a < hi) :
    ∀ n j s, acc.At v s → k + j + n ≤ max maxLength 1 →
      Yields (readCommon t a k n j) s fun common s' => acc.At v s' ∧
        ∃ len, common = bytesFrom (acc.key (v a)) k len j ∧ len ≤ n ∧ (1 ≤ n → 1 ≤ len) := by
  intro n
  induction n with
  | zero => exact fun j s hs _ => Yields.pure ⟨hs, 0, rfl, Nat.le_refl 0, fun h => h⟩
  | succ n ih =>
    intro j s hs hn
    unfold readCommon
    apply (hs.byteAt ha (k := k + j) (by omega)).bind
    intro byte s₁ ⟨hs₁, hbyte⟩
    split
    · exact Yields.pure ⟨hs₁, 1, by rw [hbyte]; rfl, by omega, fun _ => Nat.le_refl 1⟩
    · apply (ih (j + 1) s₁ hs₁ (by omega)).bind
      intro rest s₂ ⟨hs₂, len, hrest, hlen, _⟩
      apply Yields.pure
      exact ⟨hs₂, len + 1, by rw [hbyte, hrest, bytesFrom_succ], by omega, fun _ => by omega⟩

theorem mismatch_spec {i : Nat} (hi' : lo ≤ i ∧ i < hi) (key : List U8) :
    ∀ len j s, acc.At v s → k + j + len ≤ max maxLength 1 →
      Yields (mismatch t i k (bytesFrom key k len j) j) s fun found s' => acc.At v s' ∧
        match found with
        | none => ∀ j', j ≤ j' → j' < j + len → acc.bucket v (k + j') i = bucketAt key (k + j')
        | some (m, byte) => (j ≤ m ∧ m < j + len) ∧ byte = byteOf (acc.key (v i)) (k + m) ∧
            acc.bucket v (k + m) i ≠ bucketAt key (k + m) ∧
            ∀ j', j ≤ j' → j' < m → acc.bucket v (k + j') i = bucketAt key (k + j') := by
  intro len
  induction len with
  | zero => exact fun j s hs _ => Yields.pure ⟨hs, fun j' hj hj' => by omega⟩
  | succ len ih =>
    intro j s hs hlen
    rw [bytesFrom_succ]
    unfold mismatch
    apply (hs.byteAt hi' (k := k + j) (by omega)).bind
    intro byte s₁ ⟨hs₁, hbyte⟩
    have hi₁ := byteOf_eq (acc.key (v i)) (k + j)
    have hk₁ := byteOf_eq key (k + j)
    split
    next hne =>
      apply Yields.pure
      refine ⟨hs₁, by omega, hbyte, ?_, fun j' hj hj' => by omega⟩
      intro heq
      unfold bucket at heq
      rw [hbyte] at hne
      omega
    next heq =>
      have hfirst : acc.bucket v (k + j) i = bucketAt key (k + j) := by
        rw [hbyte] at heq
        unfold bucket
        omega
      apply (ih (j + 1) s₁ hs₁ (by omega)).mono
      intro found s' ⟨hs', hfound⟩
      refine ⟨hs', ?_⟩
      match found, hfound with
      | none, hall =>
        intro j' hj hj'
        rcases Nat.eq_or_lt_of_le hj with rfl | hlt
        · exact hfirst
        · exact hall j' hlt (by omega)
      | some (m, byte), ⟨hm, hb, hne, hall⟩ =>
        refine ⟨by omega, hb, hne, fun j' hj hj' => ?_⟩
        rcases Nat.eq_or_lt_of_le hj with rfl | hlt
        · exact hfirst
        · exact hall j' hlt hj'

/-- The entries at `a..i` agree with the one at `a` on the bytes `k..k+len`. -/
def AgreeWithFirst (acc : RadixAccess t α maxLength lo hi) (a i k len : Nat) (v : Nat → α) : Prop :=
  ∀ x, a ≤ x → x < i → ∀ j, j < len → acc.bucket v (k + j) x = acc.bucket v (k + j) a

theorem AgreeWithFirst.succ {i len : Nat} (h : AgreeWithFirst acc a i k len v) (len' : Nat)
    (hlen : len' ≤ len)
    (hi' : ∀ j, j < len' → acc.bucket v (k + j) i = acc.bucket v (k + j) a) :
    AgreeWithFirst acc a (i + 1) k len' v := by
  intro x hx hxi j hj
  rcases Nat.eq_or_lt_of_le (Nat.le_of_lt_succ hxi) with rfl | hlt
  · exact hi' j hj
  · exact h x hx hlt j (by omega)

theorem compareEntries_spec (ha : lo ≤ a) :
    ∀ n i len s, acc.At v s → a < i → i + n ≤ hi → 1 ≤ len → k + len ≤ max maxLength 1 →
      AgreeWithFirst acc a i k len v →
      Yields (compareEntries t k n i (bytesFrom (acc.key (v a)) k len 0)) s fun r s' =>
        acc.At v s' ∧ match r with
        | (len', i', none) => i' = i + n ∧ (1 ≤ len' ∧ len' ≤ len) ∧
            AgreeWithFirst acc a (i + n) k len' v
        | (len', i', some byte) => len' = 0 ∧ (a < i' ∧ i' < i + n) ∧
            AgreeWithFirst acc a i' k 1 v ∧ byte = byteOf (acc.key (v i')) k ∧
            acc.bucket v k i' ≠ acc.bucket v k a := by
  intro n
  induction n with
  | zero =>
    intro i len s hs hi' _ hlen _ hagree
    unfold compareEntries
    apply Yields.pure
    rw [bytesFrom_length]
    exact ⟨hs, rfl, ⟨hlen, Nat.le_refl len⟩, hagree⟩
  | succ n ih =>
    intro i len s hs hi' hn hlen hk hagree
    unfold compareEntries
    apply (mismatch_spec (i := i) (by omega) (acc.key (v a)) len 0 s hs (by omega)).bind
    intro found s₁ ⟨hs₁, hfound⟩
    match found, hfound with
    | none, hall =>
      have hnext := hagree.succ len (Nat.le_refl len) fun j hj => hall j (Nat.zero_le j) (by omega)
      have hrun := ih (i + 1) len s₁ hs₁ (by omega) (by omega) hlen hk hnext
      rw [show i + 1 + n = i + (n + 1) by omega] at hrun
      exact hrun
    | some (0, byte), ⟨_, hbyte, hne, _⟩ =>
      apply Yields.pure
      refine ⟨hs₁, rfl, by omega, fun x hx hxi j hj => ?_, hbyte, hne⟩
      exact hagree x hx hxi j (by omega)
    | some (m + 1, byte), ⟨hm, _, _, hall⟩ =>
      have hnext := hagree.succ (m + 1) (by omega)
        fun j hj => hall j (Nat.zero_le j) hj
      dsimp only
      rw [bytesFrom_take _ _ _ _ _ (by omega)]
      apply (ih (i + 1) (m + 1) s₁ hs₁ (by omega) (by omega) (by omega) (by omega) hnext).mono
      intro r s' ⟨hs', hr⟩
      refine ⟨hs', ?_⟩
      rw [show i + 1 + n = i + (n + 1) by omega] at hr
      match r, hr with
      | (len', i', none), ⟨h₁, h₂, h₃⟩ => exact ⟨h₁, by omega, h₃⟩
      | (len', i', some byte), h => exact h

/-- What `prefix_and_histogram` finds out: the keys agree on `r.1` more bytes, or
the histogram counts the entries of each bucket. -/
def Found (acc : RadixAccess t α maxLength lo hi) (a b k : Nat) (v : Nat → α)
    (r : Nat × Histogram) : Prop :=
  (0 < r.1 ∧ k + r.1 ≤ maxLength ∧ AgreeWithFirst acc a b k r.1 v ∧
    r.2 0 = if acc.bucket v k a = 0 then b - a else 0) ∨
  (r.1 = 0 ∧ ∀ c, r.2 c = bucketCounts acc a b k v c)

theorem prefixAndHistogram_spec (msbStyle : Bool) (ha : lo ≤ a) (hb : b ≤ hi) (hab : a < b)
    (hk : k < maxLength) (hv : acc.At v s) :
    Yields (prefixAndHistogram t maxLength a b k msbStyle) s fun r s' => acc.At v s' ∧
      Found acc a b k v r := by
  unfold prefixAndHistogram
  dsimp only
  apply (readCommon_spec (a := a) (by omega) _ 0 s hv (by omega)).bind
  intro common s₁ ⟨hs₁, len, hcommon, hlen, hpos⟩
  have hlen₁ : 1 ≤ len := hpos (by omega)
  have hhead : common.headD 0 = byteOf (acc.key (v a)) k := by
    obtain ⟨m, rfl⟩ : ∃ m, len = m + 1 := ⟨len - 1, by omega⟩
    rw [hcommon, bytesFrom_succ]
    rfl
  have hstart : AgreeWithFirst acc a (a + 1) k len v := by
    intro x hx hxa j _
    rw [show x = a by omega]
  rw [hcommon] at hhead ⊢
  apply (compareEntries_spec ha (b - (a + 1)) (a + 1) len s₁ hs₁ (by omega) (by omega) hlen₁
    (by omega) hstart).bind
  intro r s₂ ⟨hs₂, hr⟩
  rw [hhead]
  apply (bucketOf_spec _ k s₂).bind
  intro first s₃ ⟨hs₃, hfirst⟩
  rw [hs₃, hfirst]
  match r, hr with
  | (len', i, none), ⟨_, hlen', hagree⟩ =>
    apply Yields.pure
    refine ⟨hs₂, Or.inl ⟨by dsimp only; omega, by dsimp only; omega, ?_, ?_⟩⟩
    · rwa [show a + 1 + (b - (a + 1)) = b by omega] at hagree
    · unfold Histogram.set bucket
      dsimp only
      by_cases hzero : bucketAt (acc.key (v a)) k = 0
      · rw [if_pos hzero, if_pos hzero.symm]
      · rw [if_neg hzero, if_neg (Ne.symm hzero)]
  | (len', i, some byte), ⟨hlen', hi', hagree, hbyte, hne⟩ =>
    have hinner : ∀ x, a ≤ x → x < i → acc.bucket v k x = bucketAt (acc.key (v a)) k :=
      fun x hx hxi => hagree x hx hxi 0 Nat.one_pos
    dsimp only
    cases msbStyle with
    | true =>
      apply (countBytes_spec (by omega) (b - i) i _ s₂ hs₂ (by omega) (by omega)).bind
      intro histogram s₄ ⟨hs₄, hcount⟩
      apply Yields.pure
      refine ⟨hs₄, Or.inr ⟨hlen', fun c => ?_⟩⟩
      rw [show i + (b - i) = b by omega] at hcount
      dsimp only
      rw [hcount c, bucketCounts_split (by omega) (by omega) hinner]
      rfl
    | false =>
      rw [hbyte]
      apply (bucketOf_spec _ k s₂).bind
      intro c₁ s₄ ⟨hs₄, hc₁⟩
      rw [hs₄, hc₁]
      apply (countBytes_spec (by omega) (b - (i + 1)) (i + 1) _ s₂ hs₂ (by omega) (by omega)).bind
      intro histogram s₅ ⟨hs₅, hcount⟩
      apply Yields.pure
      refine ⟨hs₅, Or.inr ⟨hlen', fun c => ?_⟩⟩
      rw [show i + 1 + (b - (i + 1)) = b by omega] at hcount
      dsimp only
      rw [hcount c, bucketCounts_split (by omega) (by omega) hinner,
        bucketCounts_succ (a := i) (by omega)]
      unfold Histogram.set bucket
      dsimp only
      unfold bucket at hne
      by_cases hc : c = bucketAt (acc.key (v i)) k
      · rw [if_pos hc, if_pos hc.symm, if_neg (by rw [hc]; exact hne)]
        omega
      · rw [if_neg hc, if_neg (Ne.symm hc)]
        omega

/-- The histogram where no key has a byte. -/
theorem prefixAndHistogram_zero (msbStyle : Bool) (hv : acc.At v s) :
    Yields (prefixAndHistogram t 0 a b 0 msbStyle) s fun r s' => acc.At v s' ∧
      r = (0, Histogram.set (fun _ => 0) 1 (b - a)) := by
  have hrun : ∀ n i, Yields (compareEntries t 0 n i []) s fun r s' => s' = s ∧
      r = (0, i + n, none) := by
    intro n
    induction n with
    | zero => exact fun i => Yields.pure ⟨rfl, rfl⟩
    | succ n ih =>
      intro i
      unfold compareEntries
      apply (Yields.pure (a := none) (Q := fun found s' => found = none ∧ s' = s) ⟨rfl, rfl⟩).bind
      intro found s' ⟨hfound, hs'⟩
      rw [hfound, hs']
      have := ih (i + 1)
      rwa [show i + 1 + n = i + (n + 1) by omega] at this
  unfold prefixAndHistogram
  apply (Yields.pure (a := []) (Q := fun common s' => common = [] ∧ s' = s) ⟨rfl, rfl⟩).bind
  intro common s₁ ⟨hcommon, hs₁⟩
  rw [hcommon, hs₁]
  apply (hrun _ _).bind
  intro r s₂ ⟨hs₂, hr⟩
  rw [hr, hs₂]
  exact Yields.pure ⟨hv, rfl⟩

end LuceneRust.Util.Sorter
