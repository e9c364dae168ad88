import Xv6.Crc.Code
import Xv6.Lib.Crc

/-! # The table and the polynomial -/

open Lib Lib.Crc

namespace Xv6.Crc

def POLY : BitVec 32 := 0xEDB88320#32

theorem tab_eq (i : BitVec 8) : crc32_tab.getD i.toNat 0 = shifts POLY 8 (i.setWidth 32) := by
  have h : ∀ i : Fin 256, crc32_tab.getD i.val 0 = shifts POLY 8 ((BitVec.ofFin i : BitVec 8).setWidth 32) := by
    decide +kernel
  exact h i.toFin

theorem toNat_and_ff (c : BitVec 32) : (c &&& 0xFF#32).toNat = (c.setWidth 8).toNat := by
  rw [BitVec.toNat_and, BitVec.toNat_setWidth]
  exact Nat.and_two_pow_sub_one_eq_mod c.toNat 8

theorem crcByte_eq (crc : BitVec 32) (p : Byte) : crcByte crc p = shifts POLY 8 (crc ^^^ p.setWidth 32) := by
  have hlow : ∀ i < 8, (((crc ^^^ p.setWidth 32).setWidth 8).setWidth 32).getLsbD i =
    (crc ^^^ p.setWidth 32).getLsbD i := by
    intro i hi
    simp [BitVec.getLsbD_setWidth, hi]
    omega
  have hhigh : ((crc ^^^ p.setWidth 32) ^^^ ((crc ^^^ p.setWidth 32).setWidth 8).setWidth 32) >>> 8 = crc >>> 8 := by
    apply BitVec.eq_of_getLsbD_eq
    intro i _
    simp [BitVec.getLsbD_setWidth, BitVec.getLsbD_ushiftRight]
  unfold crcByte
  rw [toNat_and_ff, tab_eq, shifts_low hlow, hhigh]

theorem foldl_crcByte (bytes : List Byte) (c : BitVec 32) : bytes.foldl crcByte c = feed POLY c bytes := by
  unfold feed
  congr
  funext c p
  exact crcByte_eq c p

/-- **The table is CRC-32**, and a file may be read in pieces. -/
theorem crc32_eq_feed : (∀ b, crc32 0 b = feed POLY 0xFFFFFFFF#32 b ^^^ 0xFFFFFFFF#32) ∧
    ∀ a b, crc32 (crc32 0 a) b = crc32 0 (a ++ b) := by
  refine ⟨fun b => ?_, fun a b => ?_⟩
  · unfold crc32
    rw [foldl_crcByte]
    rfl
  · unfold crc32
    rw [List.foldl_append, BitVec.xor_assoc (a.foldl _ _), BitVec.xor_self, BitVec.xor_zero]

example : crc32 0 [0x31, 0x32, 0x33, 0x34, 0x35, 0x36, 0x37, 0x38, 0x39] = 0xCBF43926#32 := by decide +kernel

end Xv6.Crc
