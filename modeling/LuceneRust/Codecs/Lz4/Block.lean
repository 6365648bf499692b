import LuceneRust.Lib.BackRef
import LuceneRust.RustSem.Bytes

/-!
# The LZ4 block format

What an LZ4 block means, without a destination buffer.  A decoder state is
the compressed bytes still to read and the output so far; a back-reference
reads the output only.  `decodePass` is one sequence of the format: a token,
literals, a two-byte distance and a match.  `decodeBlock` runs sequences
until the output has reached `destEnd`.

Both decoders of `lucene_codecs::lz4` are compared with `decodeBlock`, and
both compressors are proved against it.

The errors of the format are not told apart here, so the error type is
`Unit`.  `cap` is the length of the destination: output past it is an error.
-/

namespace LuceneRust.Codecs.Lz4

open RustSem BackRef

/-- `MIN_MATCH`. -/
def minMatch : Nat := 4

/-- The compressed bytes still to read and the output so far. -/
abbrev BlockState := List U8 × List U8

/-- A length extension: bytes `0xFF` add 255 each, and the first other byte
ends the run. -/
def extLength : List U8 → Nat → Outcome Unit (Nat × List U8)
  | [], _ => .err ()
  | b :: bs, len =>
    match checkedAdd len b.toNat with
    | none => .err ()
    | some next => if b ≠ 0xFF then .ok (next, bs) else extLength bs next

/-- A length of a token nibble: `0x0F` is followed by an extension. -/
def nibbleLength (nibble : Nat) (rest : List U8) :
    Outcome Unit (Nat × List U8) :=
  if nibble = 0x0F then extLength rest nibble else .ok (nibble, rest)

/-- Move `lit` literals from the compressed bytes to the output. -/
def takeLiterals (cap lit : Nat) (rest out : List U8) :
    Outcome Unit BlockState :=
  if lit ≠ 0 then
    match checkedAdd out.length lit with
    | none => .err ()
    | some end' =>
      if cap < end' then .err ()
      else if rest.length < lit then .err ()
      else .ok (rest.drop lit, out ++ rest.take lit)
  else .ok (rest, out)

/-- The literals of a sequence: their number and then the bytes. -/
def blockLiterals (cap nibble : Nat) (rest out : List U8) :
    Outcome Unit BlockState := do
  let (lit, rest) ← nibbleLength nibble rest
  takeLiterals cap lit rest out

/-- Read the distance and the length of a match and append it. -/
def takeMatch (cap nibble : Nat) (rest out : List U8) :
    Outcome Unit BlockState :=
  match rest with
  | b₀ :: b₁ :: rest =>
    let dist := (fromLeBytes 16 [b₀, b₁]).toNat
    if dist = 0 then .err ()
    else do
      let (len, rest) ← nibbleLength nibble rest
      match checkedAdd len minMatch with
      | none => .err ()
      | some len =>
        if out.length < dist then .err ()
        else
          match checkedAdd out.length len with
          | none => .err ()
          | some end' =>
            if cap < end' then .err ()
            else .ok (rest, appendMatch out dist len)
  | _ => .err ()

/-- One sequence of a block. -/
def decodePass (destEnd cap : Nat) (s : BlockState) :
    Outcome Unit (BlockState ⊕ BlockState) :=
  match s.1 with
  | [] => .err ()
  | token :: rest => do
    let s ← blockLiterals cap (token.toNat >>> 4) rest s.2
    if destEnd ≤ s.2.length then .ok (.inr s)
    else do
      let s ← takeMatch cap (token.toNat &&& 0x0F) s.1 s.2
      .ok (if destEnd ≤ s.2.length then .inr s else .inl s)

/-- Decode a block: `out` is the destination up to where the block starts,
and the output has to reach `destEnd`. -/
def decodeBlock (destEnd cap : Nat) (rest out : List U8) :
    Outcome Unit BlockState :=
  iterate (decodePass destEnd cap) (rest.length + 1) (rest, out)

/-! ## A sequence consumes input -/

attribute [local simp] extLength nibbleLength

theorem extLength_length {rest rest' : List U8} {len len' : Nat}
    (h : extLength rest len = .ok (len', rest')) :
    rest'.length < rest.length := by
  induction rest generalizing len with
  | nil => simp [extLength] at h
  | cons b bs ih =>
    rw [extLength] at h
    split at h
    · cases h
    · split at h
      · simp only [Outcome.ok.injEq, Prod.mk.injEq] at h
        simp [← h.2]
      · have := ih h
        simp only [List.length_cons]
        omega

theorem nibbleLength_length {rest rest' : List U8} {nibble len : Nat}
    (h : nibbleLength nibble rest = .ok (len, rest')) :
    rest'.length ≤ rest.length := by
  unfold nibbleLength at h
  split at h
  · exact Nat.le_of_lt (extLength_length h)
  · simp only [Outcome.ok.injEq, Prod.mk.injEq] at h
    rw [h.2]

theorem takeLiterals_length {cap lit : Nat} {rest out : List U8}
    {s : BlockState} (h : takeLiterals cap lit rest out = .ok s) :
    s.1.length ≤ rest.length := by
  unfold takeLiterals at h
  split at h
  · split at h
    · cases h
    · split at h
      · cases h
      · split at h
        · cases h
        · simp only [Outcome.ok.injEq] at h
          simp [← h]
  · simp only [Outcome.ok.injEq] at h
    simp [← h]

theorem blockLiterals_length {cap nibble : Nat} {rest out : List U8}
    {s : BlockState} (h : blockLiterals cap nibble rest out = .ok s) :
    s.1.length ≤ rest.length := by
  obtain ⟨⟨lit, rest'⟩, hn, h⟩ := Outcome.bind_eq_ok.1 h
  have h₁ := nibbleLength_length hn
  have h₂ := takeLiterals_length h
  omega

theorem takeMatch_length {cap nibble : Nat} {rest out : List U8}
    {s : BlockState} (h : takeMatch cap nibble rest out = .ok s) :
    s.1.length < rest.length := by
  unfold takeMatch at h
  split at h
  · rename_i b₀ b₁ tail
    dsimp only at h
    split at h
    · cases h
    · obtain ⟨⟨len, rest'⟩, hn, h⟩ := Outcome.bind_eq_ok.1 h
      have hle := nibbleLength_length hn
      have hs : s.1 = rest' := by
        split at h
        · cases h
        · split at h
          · cases h
          · split at h
            · cases h
            · split at h
              · cases h
              · simp only [Outcome.ok.injEq] at h
                rw [← h]
      rw [hs, List.length_cons, List.length_cons]
      omega
  · cases h

/-! ## Lengths do not shrink, and nothing panics -/

theorem extLength_le {rest rest' : List U8} {len len' : Nat}
    (h : extLength rest len = .ok (len', rest')) : len ≤ len' := by
  induction rest generalizing len with
  | nil => simp [extLength] at h
  | cons b bs ih =>
    rw [extLength] at h
    cases hadd : checkedAdd len b.toNat with
    | none => simp [hadd] at h
    | some next =>
      have hnext := checkedAdd_eq_some hadd
      simp only [hadd] at h
      split at h
      · simp only [Outcome.ok.injEq, Prod.mk.injEq] at h
        omega
      · have := ih h
        omega

theorem nibbleLength_le {rest rest' : List U8} {nibble len : Nat}
    (h : nibbleLength nibble rest = .ok (len, rest')) : nibble ≤ len := by
  unfold nibbleLength at h
  split at h
  · exact extLength_le h
  · simp only [Outcome.ok.injEq, Prod.mk.injEq] at h
    omega

theorem extLength_ne_panic (rest : List U8) (len : Nat) :
    extLength rest len ≠ .panic := by
  induction rest generalizing len with
  | nil => simp [extLength]
  | cons b bs ih =>
    rw [extLength]
    split
    · simp
    · split
      · simp
      · exact ih _

theorem nibbleLength_ne_panic (nibble : Nat) (rest : List U8) :
    nibbleLength nibble rest ≠ .panic := by
  unfold nibbleLength
  split
  · exact extLength_ne_panic rest nibble
  · simp

/-- A match that reaches back too far is an error whatever its length. -/
theorem takeMatch_back (cap nibble : Nat) {b₀ b₁ : U8} {rest out : List U8}
    (h : out.length < (fromLeBytes 16 [b₀, b₁]).toNat) :
    takeMatch cap nibble (b₀ :: b₁ :: rest) out = .err () := by
  have hne : (fromLeBytes 16 [b₀, b₁]).toNat ≠ 0 := by omega
  simp only [takeMatch]
  rw [if_neg hne]
  cases hn : nibbleLength nibble rest with
  | err e => rfl
  | panic => exact absurd hn (nibbleLength_ne_panic nibble rest)
  | ok p =>
    obtain ⟨len, rest'⟩ := p
    rw [ok_bind]
    simp only
    cases checkedAdd len minMatch with
    | none => rfl
    | some len => simp only [if_pos h]

end LuceneRust.Codecs.Lz4
