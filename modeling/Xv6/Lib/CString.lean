import Mathlib.Data.List.TakeWhile
import Mathlib.Tactic.Common

/-!
# C strings

A string is the characters before its NUL. A pointer into it is an index, and the NUL itself may be read.
-/

namespace Lib

structure CString where
  chars : List Char
  noNul : ∀ c ∈ chars, c ≠ '\x00'

namespace CString

variable {x : CString} {s : Nat} {p : Char → Bool}

/-- `*s` -/
def deref (x : CString) (s : Nat) : Char := x.chars.getD s '\x00'

/-- `while(p(*s)) s++`, with fuel. -/
def advance (p : Char → Bool) (x : CString) : Nat → Nat → Nat
  | 0, s => s
  | n + 1, s => if p (x.deref s) then advance p x n (s + 1) else s

/-- The loop for a test that fails at the NUL. -/
def skipWhile (p : Char → Bool) (x : CString) (s : Nat) : Nat := x.advance p (x.chars.length - s) s

theorem deref_of_drop {c : Char} {l : List Char} (h : x.chars.drop s = c :: l) : x.deref s = c := by
  rw [deref, List.getD_eq_getElem?_getD, ← List.head?_drop, h]
  rfl

theorem deref_of_nil (h : x.chars.drop s = []) : x.deref s = '\x00' := by
  rw [deref, List.getD_eq_getElem?_getD, ← List.head?_drop, h]
  rfl

theorem drop_succ {c : Char} {l : List Char} (h : x.chars.drop s = c :: l) : x.chars.drop (s + 1) = l := by
  rw [← List.drop_drop, h]
  rfl

theorem deref_eq_nul : x.deref s = '\x00' ↔ x.chars.drop s = [] := by
  refine ⟨fun hnul => ?_, deref_of_nil⟩
  rcases hd : x.chars.drop s with _ | ⟨c, l⟩
  · rfl
  · rw [deref_of_drop hd] at hnul
    exact absurd hnul (x.noNul c (List.mem_of_mem_drop (hd ▸ List.mem_cons_self)))

theorem advance_eq (n : Nat) (hn : n = x.chars.length - s) :
    x.advance p n s = s + ((x.chars.drop s).takeWhile p).length := by
  induction n generalizing s with
  | zero =>
    rw [advance, List.drop_eq_nil_of_le (by omega)]
    rfl
  | succ n ih =>
    rcases hd : x.chars.drop s with _ | ⟨c, l⟩
    · have := List.drop_eq_nil_iff.mp hd
      omega
    rw [advance, deref_of_drop hd, List.takeWhile_cons]
    split_ifs with hc
    · rw [ih (by omega), drop_succ hd, List.length_cons]
      omega
    · rfl

theorem skipWhile_eq (p : Char → Bool) (x : CString) (s : Nat) :
    x.skipWhile p s = s + ((x.chars.drop s).takeWhile p).length := advance_eq _ rfl

theorem drop_skipWhile (p : Char → Bool) (x : CString) (s : Nat) :
    x.chars.drop (x.skipWhile p s) = (x.chars.drop s).dropWhile p := by
  rw [skipWhile_eq, ← List.drop_drop]
  generalize x.chars.drop s = l
  calc l.drop (l.takeWhile p).length
      = (l.takeWhile p ++ l.dropWhile p).drop (l.takeWhile p).length := by rw [List.takeWhile_append_dropWhile]
    _ = l.dropWhile p := List.drop_left

theorem skipWhile_congr {q : Char → Bool} (h : ∀ c, c ≠ '\x00' → p c = q c) (x : CString) (s : Nat) :
    x.skipWhile p s = x.skipWhile q s := by
  have hl : ∀ c ∈ x.chars.drop s, p c = q c := fun c hc => h c (x.noNul c (List.mem_of_mem_drop hc))
  rw [skipWhile_eq, skipWhile_eq]
  generalize x.chars.drop s = l at hl
  induction l with
  | nil => rfl
  | cons c l ih =>
    have ih' := ih fun c hc => hl c (List.mem_cons_of_mem _ hc)
    rw [List.takeWhile_cons, List.takeWhile_cons, hl c List.mem_cons_self]
    split_ifs
    · simp only [List.length_cons]
      omega
    · rfl

end CString

end Lib
