import LuceneRust.RustSem.Bytes

/-!
# `lucene_store::data_input::SliceInput`, the raw cursor

A `SliceInput` is a cursor over a byte slice.  The type invariant that the
source states in a comment, `pos <= buf.len()`, is the field `pos_le` here.

`SliceInput.rest` is the part that is not read yet.  Every reader is
described by what it does to `rest`, so a proof about a decoder never
mentions a position: `readN_append` is the read that succeeds and
`readN_short` the read that runs past the end.
-/

namespace LuceneRust.Store

open RustSem

/-- `lucene_store::Error`, the variants that a decoder returns. -/
inductive Error where
  /-- `Eof { offset }`: "unexpected end of input at offset {offset}". -/
  | eof (offset : Nat)
  /-- "malformed vint/vlong: too many bytes". -/
  | malformedVarint
  /-- "corrupted index: {0}". -/
  | corrupted (msg : String)
  deriving Repr, DecidableEq

abbrev Result := Outcome Error

/-- `SliceInput`: a buffer and a position in it. -/
structure SliceInput where
  buf : List U8
  pos : Nat
  pos_le : pos ≤ buf.length

namespace SliceInput

/-- `SliceInput::new`. -/
def new (buf : List U8) : SliceInput := ⟨buf, 0, Nat.zero_le _⟩

/-- `as_slice`: the bytes that are not read yet. -/
def rest (inp : SliceInput) : List U8 := inp.buf.drop inp.pos

/-- `remaining`. -/
def remaining (inp : SliceInput) : Nat := inp.buf.length - inp.pos

/-- Move the cursor `n` bytes on, at most to the end. -/
def advance (inp : SliceInput) (n : Nat) : SliceInput :=
  ⟨inp.buf, min (inp.pos + n) inp.buf.length, Nat.min_le_right _ _⟩

/-- `buf.get(pos..pos + n).ok_or_else(eof)`, then `pos += n`.  This is
`read_bytes`, and every reader of a fixed width is this one. -/
def readN (inp : SliceInput) (n : Nat) : Result (List U8 × SliceInput) :=
  if inp.pos + n ≤ inp.buf.length then
    .ok ((inp.buf.drop inp.pos).take n, inp.advance n)
  else .err (.eof inp.pos)

/-- `read_byte`. -/
def readByte (inp : SliceInput) : Result (U8 × SliceInput) :=
  match inp.buf[inp.pos]? with
  | some b => .ok (b, inp.advance 1)
  | none => .err (.eof inp.pos)

/-- `skip`. -/
def skip (inp : SliceInput) (n : Nat) : Result SliceInput :=
  if inp.remaining < n then .err (.eof inp.pos) else .ok (inp.advance n)

/-- `read_u16`: two little-endian bytes. -/
def readU16 (inp : SliceInput) : Result (U16 × SliceInput) := do
  let (b, inp) ← inp.readN 2
  pure (fromLeBytes 16 b, inp)

attribute [local simp] readN readByte skip

/-! ## What a read does to the rest -/

@[simp] theorem rest_new (buf : List U8) : (new buf).rest = buf := by
  simp [new, rest]

@[simp] theorem buf_advance (inp : SliceInput) (n : Nat) :
    (inp.advance n).buf = inp.buf := rfl

theorem rest_length (inp : SliceInput) : inp.rest.length = inp.remaining := by
  simp [rest, remaining]

@[simp] theorem rest_advance (inp : SliceInput) (n : Nat) :
    (inp.advance n).rest = inp.rest.drop n := by
  simp only [rest, advance, List.drop_drop]
  rcases Nat.le_total (inp.pos + n) inp.buf.length with h | h
  · rw [Nat.min_eq_left h]
  · rw [Nat.min_eq_right h, List.drop_length,
      List.drop_eq_nil_of_le (by omega)]

theorem rest_advance_append {inp : SliceInput} {a b : List U8}
    (h : inp.rest = a ++ b) : (inp.advance a.length).rest = b := by
  rw [rest_advance, h, List.drop_left]

theorem pos_advance {inp : SliceInput} {n : Nat}
    (h : n ≤ inp.rest.length) : (inp.advance n).pos = inp.pos + n := by
  have hle := inp.pos_le
  rw [rest_length, remaining] at h
  exact Nat.min_eq_left (by omega)

theorem advance_advance (inp : SliceInput) (m n : Nat) :
    (inp.advance m).advance n = inp.advance (m + n) := by
  simp only [advance, mk.injEq, true_and]
  omega

@[simp] theorem advance_zero (inp : SliceInput) : inp.advance 0 = inp := by
  have h := inp.pos_le
  cases inp
  simp only [advance, mk.injEq, true_and, Nat.add_zero] at h ⊢
  omega

/-- A cursor is its buffer and what is left of it. -/
theorem ext_rest {a b : SliceInput} (hbuf : a.buf = b.buf)
    (hrest : a.rest = b.rest) : a = b := by
  have ha := a.pos_le
  have hb := b.pos_le
  have hlen := congrArg List.length hrest
  rw [rest_length, rest_length, remaining, remaining] at hlen
  cases a
  cases b
  simp only [mk.injEq] at hbuf hlen ha hb ⊢
  subst hbuf
  exact ⟨rfl, by omega⟩

/-- A read of bytes that are there. -/
theorem readN_append {inp : SliceInput} {a b : List U8}
    (h : inp.rest = a ++ b) :
    inp.readN a.length = .ok (a, inp.advance a.length) := by
  have hlen := congrArg List.length h
  have hle := inp.pos_le
  rw [rest_length, remaining, List.length_append] at hlen
  have htake : (inp.buf.drop inp.pos).take a.length = a := by
    rw [show inp.buf.drop inp.pos = a ++ b from h, List.take_left]
  rw [readN, if_pos (by omega), htake]

theorem readN_of_le {inp : SliceInput} {n : Nat} (h : n ≤ inp.rest.length) :
    inp.readN n = .ok (inp.rest.take n, inp.advance n) := by
  have hle := inp.pos_le
  rw [rest_length, remaining] at h
  rw [readN, if_pos (by omega)]
  rfl

/-- A read past the end. -/
theorem readN_short {inp : SliceInput} {n : Nat} (h : inp.rest.length < n) :
    inp.readN n = .err (.eof inp.pos) := by
  have hle := inp.pos_le
  rw [rest_length, remaining] at h
  rw [readN, if_neg (by omega)]

theorem getElem?_pos (inp : SliceInput) : inp.buf[inp.pos]? = inp.rest.head? := by
  rw [rest, List.head?_drop]

theorem readByte_cons {inp : SliceInput} {b : U8} {bs : List U8}
    (h : inp.rest = b :: bs) : inp.readByte = .ok (b, inp.advance 1) := by
  rw [readByte, getElem?_pos, h]
  rfl

theorem readByte_nil {inp : SliceInput} (h : inp.rest = []) :
    inp.readByte = .err (.eof inp.pos) := by
  rw [readByte, getElem?_pos, h]
  rfl

theorem skip_of_le {inp : SliceInput} {n : Nat} (h : n ≤ inp.rest.length) :
    inp.skip n = .ok (inp.advance n) := by
  rw [rest_length] at h
  rw [skip, if_neg (by omega)]

theorem skip_short {inp : SliceInput} {n : Nat} (h : inp.rest.length < n) :
    inp.skip n = .err (.eof inp.pos) := by
  rw [rest_length] at h
  rw [skip, if_pos h]

end SliceInput

end LuceneRust.Store
