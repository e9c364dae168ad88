import Xv6.Param
import Xv6.Lib.Bytes

/-! # Disk blocks -/

open Lib

namespace Xv6

instance : NeZero BSIZE := ⟨by decide⟩

abbrev Block := Fin BSIZE → Byte

namespace Block

def byte (b : Block) (i : Nat) : Byte := b (Fin.ofNat BSIZE i)

def zero : Block := fun _ => 0

/-- The unsigned little-endian field of `len` bytes at offset `off`. -/
def field (b : Block) (off len : Nat) : Nat := leVal (fun i => b.byte (off + i)) len

def setField (b : Block) (off len n : Nat) : Block :=
  fun k => if off ≤ k.val ∧ k.val < off + len then leByte n (k.val - off) else b k

/-- Entry `j` of the block read as an array of `uint`. -/
def word (b : Block) (j : Nat) : Nat := b.field (4 * j) 4

def setWord (b : Block) (j n : Nat) : Block := b.setField (4 * j) 4 n

theorem byte_setField (b : Block) (off len n i : Nat) (hi : i < BSIZE) :
    (b.setField off len n).byte i =
      if off ≤ i ∧ i < off + len then leByte n (i - off) else b.byte i := by
  simp only [byte, setField, Fin.val_ofNat, Nat.mod_eq_of_lt hi]

theorem field_setField_self (b : Block) (off len n : Nat) (h : off + len ≤ BSIZE) :
    (b.setField off len n).field off len = n % 256 ^ len := by
  rw [field, leVal_congr _ (leByte n), leVal_leByte]
  intro i hi
  rw [byte_setField _ _ _ _ _ (by omega), if_pos (by omega), Nat.add_sub_cancel_left]

theorem field_setField_ne (b : Block) (off len n off' len' : Nat) (h : off' + len' ≤ BSIZE)
    (hd : off' + len' ≤ off ∨ off + len ≤ off') :
    (b.setField off len n).field off' len' = b.field off' len' := by
  apply leVal_congr
  intro i hi
  rw [byte_setField _ _ _ _ _ (by omega), if_neg (by omega)]

theorem word_setWord_self (b : Block) (j n : Nat) (hj : 4 * j + 4 ≤ BSIZE) (hn : n < 2 ^ 32) :
    (b.setWord j n).word j = n := by
  rw [word, setWord, field_setField_self _ _ _ _ hj]
  exact Nat.mod_eq_of_lt hn

theorem word_setWord_ne (b : Block) (i j n : Nat) (hi : 4 * i + 4 ≤ BSIZE) (hij : i ≠ j) :
    (b.setWord j n).word i = b.word i :=
  field_setField_ne _ _ _ _ _ _ hi (by omega)

end Block

end Xv6
