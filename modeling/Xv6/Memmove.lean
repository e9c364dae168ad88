import Mathlib.Logic.Function.Basic
import Xv6.Lib.Bytes

/-!
# `memmove` of `ulib.c` and of `string.c`

Addresses are below `2 ^ 32`, and pointer arithmetic wraps.
-/

open Lib Function

namespace Xv6.Memmove

abbrev Mem := Nat → Byte

/-- `while(n-- > 0) *d++ = *s++` -/
def copyUp : Nat → Mem → Nat → Nat → Mem
  | 0, m, _, _ => m
  | n + 1, m, d, s => copyUp n (update m d (m s)) ((d + 1) % 2 ^ 32) ((s + 1) % 2 ^ 32)

/-- `--p` -/
def dec (p : Nat) : Nat := if p = 0 then 2 ^ 32 - 1 else p - 1

/-- `while(n-- > 0) *--d = *--s` -/
def copyDown : Nat → Mem → Nat → Nat → Mem
  | 0, m, _, _ => m
  | n + 1, m, d, s => copyDown n (update m (dec d) (m (dec s))) (dec d) (dec s)

/-- `ulib.c` -/
def User.memmove (m : Mem) (dst src : Nat) (n : Int) : Mem := copyUp n.toNat m dst src

/-- `string.c` -/
def Kernel.memmove (m : Mem) (dst src n : Nat) : Mem :=
  if src < dst ∧ dst < (src + n) % 2 ^ 32 then copyDown n m ((dst + n) % 2 ^ 32) ((src + n) % 2 ^ 32)
  else copyUp n m dst src

def moved (m : Mem) (dst src n : Nat) : Mem := fun a => if dst ≤ a ∧ a < dst + n then m (src + (a - dst)) else m a

variable {m : Mem} {d s n : Nat}

theorem copyUp_succ (hd : d + (n + 1) ≤ 2 ^ 32) (hs : s + (n + 1) ≤ 2 ^ 32) :
    copyUp (n + 1) m d s = copyUp n (update m d (m s)) (d + 1) (s + 1) := by
  rw [copyUp]
  cases n with
  | zero => rfl
  | succ n => rw [Nat.mod_eq_of_lt (by omega), Nat.mod_eq_of_lt (by omega)]

theorem succ_mod (k p : Nat) (hp : 0 < p) : k % p + 1 = p ∧ (k + 1) % p = 0 ∨ k % p + 1 = (k + 1) % p := by
  have hlt := Nat.mod_lt k hp
  have hsplit : k + 1 = p * (k / p) + (k % p + 1) := by rw [← Nat.add_assoc, Nat.div_add_mod]
  rcases Nat.lt_or_ge (k % p + 1) p with h | h
  · right
    rw [hsplit, Nat.mul_add_mod, Nat.mod_eq_of_lt h]
  · have hp : k % p + 1 = p := by omega
    left
    refine ⟨hp, ?_⟩
    rw [hsplit, hp, Nat.mul_add_mod, Nat.mod_self]

/-- With `s < d` the bytes from `s` up to `d` are copied over and over. -/
theorem copyUp_eq (hd : d + n ≤ 2 ^ 32) (hs : s + n ≤ 2 ^ 32) :
    copyUp n m d s = fun a => if d ≤ a ∧ a < d + n then m (s + (a - d) % (d - s)) else m a := by
  induction n generalizing m d s with
  | zero =>
    funext a
    exact (if_neg (by omega)).symm
  | succ n ih =>
    rw [copyUp_succ hd hs, ih (by omega) (by omega)]
    funext a
    rcases Nat.lt_trichotomy a d with ha | rfl | ha
    · rw [if_neg (by omega), if_neg (by omega), update_of_ne (by omega)]
    · rw [if_neg (by omega), if_pos (by omega), update_self, Nat.sub_self, Nat.zero_mod, Nat.add_zero]
    · by_cases hin : a < d + 1 + n
      · obtain ⟨k, rfl⟩ : ∃ k, a = d + 1 + k := ⟨a - (d + 1), by omega⟩
        rw [if_pos (by omega), if_pos (by omega), Nat.add_sub_cancel_left, Nat.add_sub_add_right,
          show d + 1 + k - d = k + 1 by omega]
        rcases Nat.eq_zero_or_pos (d - s) with h0 | hpos
        · rw [h0, Nat.mod_zero, Nat.mod_zero, update_of_ne (by omega), Nat.add_assoc, Nat.add_comm 1]
        · have hk := Nat.mod_lt k hpos
          rcases succ_mod k (d - s) hpos with ⟨hwrap, h0⟩ | hnext
          · rw [show s + 1 + k % (d - s) = d by omega, update_self, h0, Nat.add_zero]
          · have := Nat.mod_lt (k + 1) hpos
            rw [update_of_ne (by omega), ← hnext, Nat.add_assoc, Nat.add_comm 1]
      · rw [if_neg (by omega), if_neg (by omega), update_of_ne (by omega)]

theorem copyUp_moved (hd : d + n ≤ 2 ^ 32) (hs : s + n ≤ 2 ^ 32) (h : ∀ k < n, m (s + k % (d - s)) = m (s + k)) :
    copyUp n m d s = moved m d s n := by
  rw [copyUp_eq hd hs]
  funext a
  unfold moved
  split_ifs with ha
  · exact h _ (by omega)
  · rfl

theorem dec_succ (x : Nat) : dec ((x + 1) % 2 ^ 32) = x % 2 ^ 32 := by
  unfold dec
  split_ifs <;> omega

theorem copyDown_moved (hle : s ≤ d) (hd : d + n ≤ 2 ^ 32) :
    copyDown n m ((d + n) % 2 ^ 32) ((s + n) % 2 ^ 32) = moved m d s n := by
  induction n generalizing m with
  | zero =>
    funext a
    exact (if_neg (by omega)).symm
  | succ n ih =>
    simp only [copyDown, ← Nat.add_assoc, dec_succ]
    rw [ih (by omega), Nat.mod_eq_of_lt (by omega), Nat.mod_eq_of_lt (by omega)]
    funext a
    unfold moved
    rcases Nat.lt_trichotomy a (d + n) with ha | rfl | ha
    · by_cases hin : d ≤ a
      · rw [if_pos (by omega), if_pos (by omega), update_of_ne (by omega)]
      · rw [if_neg (by omega), if_neg (by omega), update_of_ne (by omega)]
    · rw [if_neg (by omega), if_pos (by omega), update_self, Nat.add_sub_cancel_left]
    · rw [if_neg (by omega), if_neg (by omega), update_of_ne (by omega)]

theorem kernel_moved (hd : d + n ≤ 2 ^ 32) (hs : s + n ≤ 2 ^ 32) : Kernel.memmove m d s n = moved m d s n := by
  unfold Kernel.memmove
  split_ifs with h
  · exact copyDown_moved h.1.le hd
  · refine copyUp_moved hd hs fun k hk => ?_
    rcases Nat.lt_or_ge s d with hlt | hle
    · rw [Nat.mod_eq_of_lt (by omega)]
    · rw [Nat.sub_eq_zero_of_le hle, Nat.mod_zero]

/-- **Both copies respect overlap** exactly when the bytes from `s` on repeat up to `d`, or `d` is not above `s`. -/
theorem memmove_moved_iff (m : Mem) (d s n : Nat) (hd : d + n ≤ 2 ^ 32) (hs : s + n ≤ 2 ^ 32) :
    (User.memmove m d s n = moved m d s n ∧ Kernel.memmove m d s n = moved m d s n) ↔
      (s < d → ∀ k < n, m (s + k % (d - s)) = m (s + k)) := by
  unfold User.memmove
  rw [Int.toNat_natCast]
  constructor
  · rintro ⟨h, -⟩ _ k hk
    have ha := congrFun h (d + k)
    rw [copyUp_eq hd hs] at ha
    simpa [moved, hk] using ha
  · refine fun h => ⟨copyUp_moved hd hs fun k hk => ?_, kernel_moved hd hs⟩
    rcases Nat.lt_or_ge s d with hlt | hle
    · exact h hlt k hk
    · rw [Nat.sub_eq_zero_of_le hle, Nat.mod_zero]

theorem memmove_moved_down : User.memmove (fun a => BitVec.ofNat 8 a) 0 1 2 = moved (fun a => BitVec.ofNat 8 a) 0 1 2 :=
  ((memmove_moved_iff _ 0 1 2 (by decide) (by decide)).mpr fun h => absurd h (by decide)).1

theorem user_memmove_overlap :
    User.memmove (fun a => BitVec.ofNat 8 a) 1 0 2 2 = 0 ∧ moved (fun a => BitVec.ofNat 8 a) 1 0 2 2 = 1 := by decide

end Xv6.Memmove
