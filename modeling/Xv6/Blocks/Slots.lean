import Xv6.Blocks.Layout
import Xv6.Lib.Owns

/-!
# Where an inode holds block numbers

An inode has 12 direct slots, one for its indirect block and 128 in that block.
-/

open Lib Function

namespace Xv6.Blocks

variable {blk blk' : Nat → Block} {ip : Dinode} {cur : Nat → Dinode} {n i j k b : Nat}

/-- The slot of the indirect block. -/
abbrev ind : Fin (NDIRECT + 1) := Fin.last NDIRECT

def slot (blk : Nat → Block) (ip : Dinode) (k : Nat) : Nat :=
  if h : k < NDIRECT + 1 then ip.addrs ⟨k, h⟩
  else if ip.addrs ind ≠ 0 ∧ k - (NDIRECT + 1) < NINDIRECT then (blk (ip.addrs ind)).word (k - (NDIRECT + 1))
  else 0

/-- The slot of block `bn` of a file. -/
def slotOf (bn : Nat) : Nat := if bn < NDIRECT then bn else bn + 1

def addrOf (blk : Nat → Block) (ip : Dinode) (bn : Nat) : Nat := slot blk ip (slotOf bn)

theorem slotOf_ne_ind (bn : Nat) : slotOf bn ≠ NDIRECT := by
  unfold slotOf
  split_ifs <;> omega

theorem slotOf_inj {bn bn' : Nat} (h : slotOf bn = slotOf bn') : bn = bn' := by
  unfold slotOf at h
  split_ifs at h <;> omega

theorem slot_addr (k : Fin (NDIRECT + 1)) : slot blk ip k = ip.addrs k := dif_pos k.isLt

theorem slot_ind : slot blk ip NDIRECT = ip.addrs ind := slot_addr ind

theorem slot_congr (h : ip.addrs ind ≠ 0 → blk' (ip.addrs ind) = blk (ip.addrs ind)) : slot blk' ip = slot blk ip := by
  funext k
  unfold slot
  split_ifs with h1 h2
  · rfl
  · rw [h h2.1]
  · rfl

theorem slot_same_addrs {ip' : Dinode} (h : ip'.addrs = ip.addrs) : slot blk ip' = slot blk ip := by
  funext k
  unfold slot
  rw [h]

theorem slot_ge {k : Nat} (h : NDIRECT + 1 ≤ k) : slot blk ip k =
    if ip.addrs ind ≠ 0 ∧ k - (NDIRECT + 1) < NINDIRECT then (blk (ip.addrs ind)).word (k - (NDIRECT + 1)) else 0 :=
  dif_neg (Nat.not_lt.mpr h)

def refs (n : Nat) (blk : Nat → Block) (cur : Nat → Dinode) (a : Nat × Nat) : Nat :=
  if a.1 < n ∧ (cur a.1).type ≠ 0 then slot blk (cur a.1) a.2 else 0

theorem refs_eq (hi : i < n) (ht : (cur i).type ≠ 0) (k : Nat) : refs n blk cur (i, k) = slot blk (cur i) k :=
  if_pos ⟨hi, ht⟩

def fileByte (blk : Nat → Block) (ip : Dinode) (i : Nat) : Byte := (blk (addrOf blk ip (i / BSIZE))).byte (i % BSIZE)

def fileBytes (blk : Nat → Block) (ip : Dinode) (off n : Nat) : List Byte :=
  (List.range n).map fun i => fileByte blk ip (off + i)

def NoHoles (blk : Nat → Block) (ip : Dinode) : Prop := ∀ bn, bn * BSIZE < ip.size → addrOf blk ip bn ≠ 0

end Xv6.Blocks
