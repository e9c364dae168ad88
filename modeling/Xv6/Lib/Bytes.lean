import Mathlib.Tactic.Common
import Mathlib.Tactic.Ring
import Mathlib.Data.Nat.ModEq

/-! # Little-endian numbers in byte strings -/

namespace Lib

abbrev Byte := BitVec 8

/-- The number in the first `len` bytes of `f`, least significant byte first. -/
def leVal (f : Nat → Byte) : Nat → Nat
  | 0 => 0
  | len + 1 => (f 0).toNat + 256 * leVal (fun i => f (i + 1)) len

def leByte (n i : Nat) : Byte := BitVec.ofNat 8 (n / 256 ^ i)

theorem leVal_congr (f g : Nat → Byte) (len : Nat) (h : ∀ i < len, f i = g i) : leVal f len = leVal g len := by
  induction len generalizing f g with
  | zero => rfl
  | succ len ih =>
    rw [leVal, leVal, h 0 (by omega), ih _ _ (fun i hi => h (i + 1) (by omega))]

theorem leVal_leByte (n len : Nat) : leVal (leByte n) len = n % 256 ^ len := by
  induction len generalizing n with
  | zero => simp [leVal, Nat.mod_one]
  | succ len ih =>
    have hshift : (fun i => leByte n (i + 1)) = leByte (n / 256) := by
      funext i
      rw [leByte, leByte, Nat.div_div_eq_div_mul, pow_succ']
    rw [leVal, hshift, ih, leByte, pow_succ', Nat.mod_mul]
    simp

theorem leVal_lt (f : Nat → Byte) (len : Nat) : leVal f len < 256 ^ len := by
  induction len generalizing f with
  | zero => simp [leVal]
  | succ len ih =>
    have h1 := ih (fun i => f (i + 1))
    rw [leVal, pow_succ']
    omega

end Lib
