import Mathlib.Data.List.Basic
import Mathlib.Tactic.Common

/-!
# Back-references

An LZ77 decoder extends its output by a *match*: `len` symbols, each the one
`dist` positions back.  The match may overlap itself (`dist < len`), and then
it repeats the symbols it has just written.  `appendMatch` is that byte loop,
over any alphabet.

* `appendMatch_eq` is the closed form: symbol `j` of the match is symbol
  `j % dist` of the `dist` symbols before it.
* `matchRun_add` continues a match from any whole number of periods back.
  It is the fact behind every decoder that copies a match in blocks.
* `appendMatch_take` is the encoder's side: a match that was checked against
  the text extends a prefix of the text to a longer prefix.
-/

namespace BackRef

variable {α : Type} [Inhabited α]

/-- Extend `out` by `len` symbols, each the one `dist` back. -/
def appendMatch (out : List α) (dist : Nat) : Nat → List α
  | 0 => out
  | len + 1 =>
    let prev := appendMatch out dist len
    prev ++ [prev.getD (prev.length - dist) default]

/-- The symbols that a match appends to `out`. -/
def matchRun (out : List α) (dist len : Nat) : List α :=
  (List.range len).map fun j =>
    out.getD (out.length - dist + j % dist) default

attribute [local simp] appendMatch

@[simp] theorem matchRun_length (out : List α) (dist len : Nat) :
    (matchRun out dist len).length = len := by
  simp [matchRun]

@[simp] theorem matchRun_zero (out : List α) (dist : Nat) :
    matchRun out dist 0 = [] := rfl

theorem matchRun_getElem? (out : List α) (dist len : Nat) {j : Nat}
    (hj : j < len) :
    (matchRun out dist len)[j]? =
      some (out.getD (out.length - dist + j % dist) default) := by
  simp [matchRun, hj]

theorem matchRun_succ (out : List α) (dist len : Nat) :
    matchRun out dist (len + 1) =
      matchRun out dist len ++
        [out.getD (out.length - dist + len % dist) default] := by
  simp [matchRun, List.range_succ]

/-- A prefix of a match is a shorter match. -/
theorem matchRun_take (out : List α) (dist : Nat) {n len : Nat} (h : n ≤ len) :
    (matchRun out dist len).take n = matchRun out dist n := by
  rw [matchRun, ← List.map_take, List.take_range, Nat.min_eq_left h]
  rfl

/-- Symbol `dist` back from the end of a partial match, in closed form. -/
theorem getD_append_matchRun (out : List α) {dist n : Nat}
    (hdl : dist ≤ out.length) (j : Nat) (hj : j < dist + n) :
    (out ++ matchRun out dist n)[out.length - dist + j]? =
      some (out.getD (out.length - dist + j % dist) default) := by
  rcases Nat.lt_or_ge j dist with hlt | hge
  · have hin : out.length - dist + j < out.length := by omega
    rw [List.getElem?_append_left hin, Nat.mod_eq_of_lt hlt,
      List.getD_eq_getElem?_getD, List.getElem?_eq_getElem hin,
      Option.getD_some]
  · have hge' : out.length ≤ out.length - dist + j := by omega
    have hidx : out.length - dist + j - out.length = j - dist := by omega
    rw [List.getElem?_append_right hge', hidx,
      matchRun_getElem? out dist n (by omega), Nat.mod_eq_sub_mod hge]

/-- The closed form of the byte loop. -/
theorem appendMatch_eq (out : List α) {dist : Nat} (hd : 0 < dist)
    (hdl : dist ≤ out.length) (len : Nat) :
    appendMatch out dist len = out ++ matchRun out dist len := by
  induction len with
  | zero => simp [appendMatch]
  | succ len ih =>
    have hidx : (out ++ matchRun out dist len).length - dist =
        out.length - dist + len := by
      rw [List.length_append, matchRun_length]
      omega
    have hget := getD_append_matchRun out (n := len) hdl len (by omega)
    rw [appendMatch, ih, matchRun_succ, ← List.append_assoc]
    simp only [hidx, List.getD_eq_getElem?_getD] at hget ⊢
    rw [hget, Option.getD_some]

theorem appendMatch_length (out : List α) (dist len : Nat) :
    (appendMatch out dist len).length = out.length + len := by
  induction len with
  | zero => rfl
  | succ len ih => simp [appendMatch, ih]; omega

/-- A match of `w` symbols can be continued by copying from `v` symbols
after its source, where `w - v` is a whole number of periods: `n` more
symbols, as many as are there. -/
theorem matchRun_add (out : List α) {dist v w n : Nat}
    (hdl : dist ≤ out.length) (hv : v ≤ w) (hw : dist ∣ w - v)
    (hn : n ≤ dist + (w - v)) :
    matchRun out dist (w + n) =
      matchRun out dist w ++
        ((out ++ matchRun out dist w).drop (out.length - dist + v)).take n := by
  refine List.ext_getElem? fun i => ?_
  rcases Nat.lt_or_ge i w with hi | hi
  · rw [List.getElem?_append_left (by simpa using hi),
      matchRun_getElem? out dist w hi,
      matchRun_getElem? out dist (w + n) (by omega)]
  · obtain ⟨j, rfl⟩ : ∃ j, i = w + j := ⟨i - w, by omega⟩
    rw [List.getElem?_append_right (by simp), matchRun_length,
      Nat.add_sub_cancel_left]
    rcases Nat.lt_or_ge j n with hj | hj
    · have hmod : (w + j) % dist = (v + j) % dist := by
        obtain ⟨c, hc⟩ := hw
        rw [show w + j = dist * c + (v + j) by omega, Nat.mul_add_mod]
      rw [matchRun_getElem? out dist (w + n) (by omega),
        List.getElem?_take_of_lt hj, List.getElem?_drop, Nat.add_assoc,
        getD_append_matchRun out hdl (v + j) (by omega), hmod]
    · rw [List.getElem?_eq_none (by simp; omega),
        List.getElem?_take_eq_none hj]

/-- A match no longer than its distance is a plain copy. -/
theorem matchRun_of_le (out : List α) {dist len : Nat}
    (hdl : dist ≤ out.length) (hl : len ≤ dist) :
    matchRun out dist len = (out.drop (out.length - dist)).take len := by
  have h := matchRun_add out (v := 0) (w := 0) (n := len) hdl
    (Nat.le_refl 0) (Nat.dvd_zero dist) (by omega)
  simpa using h

/-- A match at distance one repeats the last symbol. -/
theorem matchRun_one (out : List α) (len : Nat) :
    matchRun out 1 len =
      List.replicate len (out.getD (out.length - 1) default) := by
  rw [matchRun, List.eq_replicate_iff]
  refine ⟨by simp, fun b hb => ?_⟩
  obtain ⟨j, _, rfl⟩ := List.mem_map.1 hb
  rw [Nat.mod_one, Nat.add_zero]

/-- A match that agrees with the text extends a prefix of the text.  The
hypothesis is what an encoder checks before it emits the match. -/
theorem appendMatch_take (text : List α) {pos dist : Nat} (hd : 0 < dist)
    (hdp : dist ≤ pos) (len : Nat) (hlen : pos + len ≤ text.length)
    (heq : ∀ k, k < len → text[pos + k]? = text[pos - dist + k]?) :
    appendMatch (text.take pos) dist len = text.take (pos + len) := by
  induction len with
  | zero => rfl
  | succ len ih =>
    have ih' := ih (by omega) (fun k hk => heq k (by omega))
    have hl : (text.take (pos + len)).length - dist = pos - dist + len := by
      rw [List.length_take]
      omega
    have hlt : pos + len < text.length := by omega
    have hget : (text.take (pos + len))[pos - dist + len]? =
        some text[pos + len] := by
      rw [List.getElem?_take_of_lt (by omega), ← heq len (by omega),
        List.getElem?_eq_getElem hlt]
    rw [appendMatch, ih']
    simp only [hl, List.getD_eq_getElem?_getD, hget, Option.getD_some]
    exact List.take_append_getElem hlt

end BackRef
