import Mathlib.Logic.Function.Basic
import Mathlib.Tactic.Common

/-!
# Lines with a pattern (`grep.c`)

A pointer to a string is the list of the characters from there on, and behind its end there is a NUL. The buffer of
`grep` is an array, and pointers into it are indices.
-/

namespace Xv6.Grep

def NUL : Char := '\x00'

/-- `*s` -/
def deref (s : List Char) : Char := s.headD NUL

theorem ne_nil_of_deref {s : List Char} (h : deref s ≠ NUL) : s ≠ [] := by
  rintro rfl
  exact h rfl

/-! ## The matcher -/

mutual

/-- `re` at the beginning of `text`. -/
def matchhere (re text : List Char) : Bool :=
  if deref re = NUL then true
  else if deref re.tail = '*' then matchstar (deref re) re.tail.tail text
  else if deref re = '$' ∧ deref re.tail = NUL then deref text = NUL
  else if deref text ≠ NUL ∧ (deref re = '.' ∨ deref re = deref text) then matchhere re.tail text.tail
  else false
termination_by (re.length, text.length, 0)
decreasing_by
  all_goals
    have hpos := List.length_pos_iff.mpr (ne_nil_of_deref ‹_›)
    apply Prod.Lex.left
    simp only [List.length_tail]
    omega

/-- `c*re` at the beginning of `text`. -/
def matchstar (c : Char) (re text : List Char) : Bool :=
  if matchhere re text then true
  else if deref text ≠ NUL ∧ (deref text = c ∨ c = '.') then matchstar c re text.tail
  else false
termination_by (re.length, text.length, 1)
decreasing_by
  · apply Prod.Lex.right
    apply Prod.Lex.right
    exact Nat.zero_lt_one
  · have hpos := List.length_pos_iff.mpr (ne_nil_of_deref (And.left ‹_›))
    apply Prod.Lex.right
    apply Prod.Lex.left
    simp only [List.length_tail]
    omega

end

/-- The loop of `match`, which looks at the empty string at the end too. -/
def matchFrom (re : List Char) : List Char → Bool
  | [] => matchhere re []
  | x :: text => if matchhere re (x :: text) then true else if x ≠ NUL then matchFrom re text else false

/-- `match` -/
def matchText (re text : List Char) : Bool := if deref re = '^' then matchhere re.tail text else matchFrom re text

/-! ## The buffer -/

abbrev Buffer := Nat → Char

/-- `sizeof(buf)` -/
def BUFSZ : Nat := 1024

/-- `strchr(s, c)`, where `n` bytes of the buffer are left. -/
def strchr (buf : Buffer) (c : Char) : Nat → Nat → Option Nat
  | 0, _ => none
  | n + 1, s => if buf s = NUL then none else if buf s = c then some s else strchr buf c n (s + 1)

/-- `n` bytes from `p` on. -/
def bytesAt (buf : Buffer) (p n : Nat) : List Char := (List.range n).map fun i => buf (p + i)

/-- The string at `p`. -/
def stringAt (buf : Buffer) (p : Nat) : List Char := (bytesAt buf p (BUFSZ - p)).takeWhile (· ≠ NUL)

/-- `src` is written from `p` on. -/
def put (buf : Buffer) (p : Nat) (src : List Char) : Buffer :=
  fun k => if p ≤ k then src[k - p]?.getD (buf k) else buf k

/-- `memmove(buf, p, n)` -/
def memmove (buf : Buffer) (p n : Nat) : Buffer := fun k => if k < n then buf (p + k) else buf k

/-! ## `grep` -/

/-- The loop over the lines in the buffer, which has no more lines than bytes: the buffer, `p` and what has been
written. -/
def scan (pattern : List Char) : Nat → Buffer → Nat → List (List Char) → Buffer × Nat × List (List Char)
  | 0, buf, p, out => (buf, p, out)
  | n + 1, buf, p, out =>
    match strchr buf '\n' (BUFSZ - p) p with
    | none => (buf, p, out)
    | some q =>
      let cut := Function.update buf q NUL
      if matchText pattern (stringAt cut p) then
        let full := Function.update cut q '\n'
        scan pattern n full (q + 1) (out ++ [bytesAt full p (q + 1 - p)])
      else scan pattern n cut (q + 1) out

structure State where
  buf : Buffer
  m : Nat
  out : List (List Char)

/-- One turn of the loop over `read`, which has returned `piece`. -/
def turn (pattern : List Char) (s : State) (piece : List Char) : State :=
  let m := s.m + piece.length
  let (buf, p, out) := scan pattern BUFSZ (Function.update (put s.buf s.m piece) m NUL) 0 s.out
  let m := if p = 0 then 0 else m
  if 0 < m then ⟨memmove buf p (m - p), m - p, out⟩ else ⟨buf, m, out⟩

/-- The writes of `grep`, for the successive results of `read`. -/
def grep (pattern : List Char) (buf : Buffer) (pieces : List (List Char)) : List (List Char) :=
  (pieces.foldl (turn pattern) ⟨buf, 0, []⟩).out

/-- Each piece is not empty, and not longer than `read` has been asked for. -/
def Reads (pattern : List Char) : State → List (List Char) → Prop
  | _, [] => True
  | s, piece :: pieces => piece ≠ [] ∧ piece.length ≤ BUFSZ - s.m - 1 ∧ Reads pattern (turn pattern s piece) pieces

end Xv6.Grep
