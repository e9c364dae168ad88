import Mathlib.Tactic.Common

/-!
# Shift registers over exclusive or

One shift of a reflected CRC register. It is linear, so the low bits of a register can be looked up and the
other bits only move.
-/

namespace Lib.Crc

variable {w : Nat} {poly c low : BitVec w} {n : Nat}

def shift (poly c : BitVec w) : BitVec w := if c.getLsbD 0 then (c >>> 1) ^^^ poly else c >>> 1

def shifts (poly : BitVec w) : Nat → BitVec w → BitVec w
  | 0, c => c
  | n + 1, c => shift poly (shifts poly n c)

/-- The register after the bytes, lowest bit first. -/
def feed (poly : BitVec w) (c : BitVec w) (bytes : List (BitVec 8)) : BitVec w :=
  bytes.foldl (fun c b => shifts poly 8 (c ^^^ b.setWidth w)) c

theorem shift_xor (a b : BitVec w) : shift poly (a ^^^ b) = shift poly a ^^^ shift poly b := by
  unfold shift
  rw [BitVec.getLsbD_xor, BitVec.ushiftRight_xor_distrib]
  cases a.getLsbD 0 <;> cases b.getLsbD 0
  · simp
  · simp [BitVec.xor_assoc]
  · simp only [Bool.xor_false, if_true, Bool.false_eq_true, if_false]
    ac_rfl
  · have hcancel : (a >>> 1 ^^^ poly) ^^^ (b >>> 1 ^^^ poly) = a >>> 1 ^^^ b >>> 1 ^^^ (poly ^^^ poly) := by ac_rfl
    simp [hcancel]

theorem shifts_xor (n : Nat) (a b : BitVec w) : shifts poly n (a ^^^ b) = shifts poly n a ^^^ shifts poly n b := by
  induction n with
  | zero => rfl
  | succ n ih => rw [shifts, ih, shift_xor, shifts, shifts]

theorem shifts_clear (h : ∀ i < n, c.getLsbD i = false) : shifts poly n c = c >>> n := by
  induction n with
  | zero => rw [shifts, BitVec.ushiftRight_zero]
  | succ n ih =>
    have hbit : (c >>> n).getLsbD 0 = false := by
      rw [BitVec.getLsbD_ushiftRight]
      exact h n (Nat.lt_succ_self n)
    rw [shifts, ih fun i hi => h i (Nat.lt_succ_of_lt hi), shift, hbit, BitVec.shiftRight_add]
    rfl

theorem shifts_low (h : ∀ i < n, low.getLsbD i = c.getLsbD i) :
    shifts poly n c = shifts poly n low ^^^ ((c ^^^ low) >>> n) := by
  have hclear : ∀ i < n, (c ^^^ low).getLsbD i = false := fun i hi => by rw [BitVec.getLsbD_xor, h i hi, Bool.xor_self]
  have hsplit : c = low ^^^ (c ^^^ low) := by
    rw [BitVec.xor_comm c, ← BitVec.xor_assoc, BitVec.xor_self, BitVec.zero_xor]
  conv_lhs => rw [hsplit, shifts_xor, shifts_clear hclear]

end Lib.Crc
