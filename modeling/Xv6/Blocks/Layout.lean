import Xv6.Blocks.Code

/-! # What is in a block: bits, bytes and inodes -/

open Lib

namespace Xv6.Block

theorem byte_lt (b : Block) {i : Nat} (hi : i < BSIZE) : b.byte i = b ⟨i, hi⟩ := by
  unfold byte
  congr 1
  exact Fin.ext (by rw [Fin.val_ofNat]; exact Nat.mod_eq_of_lt hi)

theorem byte_put (b : Block) (off : Nat) (src : List Byte) {i : Nat} (hi : i < BSIZE) :
    (b.put off src).byte i = if off ≤ i ∧ i < off + src.length then src.getD (i - off) 0 else b.byte i := by
  rw [byte_lt _ hi, byte_lt _ hi]
  rfl

end Xv6.Block

namespace Xv6.Blocks

structure Dinode.Fits (ip : Dinode) : Prop where
  type : ip.type < 2 ^ 16
  major : ip.major < 2 ^ 16
  minor : ip.minor < 2 ^ 16
  nlink : ip.nlink < 2 ^ 16
  size : ip.size < 2 ^ 32
  addrs : ∀ k, ip.addrs k < 2 ^ 32

open Block

theorem field_setDinode (b : Block) (ip : Dinode) {k o len : Nat} (hk : k < IPB) (ho : o + len ≤ 64) :
    (b.setDinode k ip).field (64 * k + o) len = leVal (fun i => dinodeByte ip (o + i)) len := by
  have hIPB : IPB = 8 := rfl
  have hB : BSIZE = 512 := rfl
  apply leVal_congr
  intro i hi
  rw [byte_lt _ (by omega : 64 * k + o + i < BSIZE)]
  unfold setDinode
  dsimp only
  rw [if_pos (by omega), show (64 * k + o + i) % 64 = o + i by omega]

theorem field_setDinode_ne (b : Block) (ip : Dinode) {k k' o len : Nat} (hk : k' < IPB) (hne : k' ≠ k)
    (ho : o + len ≤ 64) : (b.setDinode k ip).field (64 * k' + o) len = b.field (64 * k' + o) len := by
  have hIPB : IPB = 8 := rfl
  have hB : BSIZE = 512 := rfl
  apply leVal_congr
  intro i hi
  rw [byte_lt _ (by omega : 64 * k' + o + i < BSIZE), byte_lt _ (by omega : 64 * k' + o + i < BSIZE)]
  unfold setDinode
  dsimp only
  rw [if_neg (by omega)]

theorem dinode_setDinode_ne (b : Block) (ip : Dinode) {k k' : Nat} (hk : k' < IPB) (hne : k' ≠ k) :
    (b.setDinode k ip).dinode k' = b.dinode k' := by
  have h : ∀ o len, o + len ≤ 64 → (b.setDinode k ip).field (64 * k' + o) len = b.field (64 * k' + o) len :=
    fun _ _ ho => field_setDinode_ne b ip hk hne ho
  have h0 := h 0 2 (by omega)
  rw [Nat.add_zero] at h0
  unfold dinode
  rw [h0, h 2 2 (by omega), h 4 2 (by omega), h 6 2 (by omega), h 8 4 (by omega)]
  congr 1
  funext i
  rw [Nat.add_assoc]
  exact h _ 4 (by have := i.isLt; unfold NDIRECT at this; omega)

theorem dinode_setDinode_self (b : Block) {ip : Dinode} {k : Nat} (hk : k < IPB) (hip : ip.Fits) :
    (b.setDinode k ip).dinode k = ip := by
  have h : ∀ n o len, o + len ≤ 64 → n < 256 ^ len → (∀ i < len, dinodeByte ip (o + i) = leByte n i) →
      (b.setDinode k ip).field (64 * k + o) len = n := by
    intro n o len ho hn hb
    rw [field_setDinode b ip hk ho, leVal_congr _ (leByte n) len hb, leVal_leByte, Nat.mod_eq_of_lt hn]
  have h0 := h ip.type 0 2 (by omega) hip.type (fun i hi => by simp [dinodeByte, hi])
  rw [Nat.add_zero] at h0
  unfold dinode
  rw [h0]
  rw [h ip.major 2 2 (by omega) hip.major (fun i hi => by
    rw [dinodeByte, if_neg (by omega), if_pos (by omega), Nat.add_sub_cancel_left])]
  rw [h ip.minor 4 2 (by omega) hip.minor (fun i hi => by
    rw [dinodeByte, if_neg (by omega), if_neg (by omega), if_pos (by omega), Nat.add_sub_cancel_left])]
  rw [h ip.nlink 6 2 (by omega) hip.nlink (fun i hi => by
    rw [dinodeByte, if_neg (by omega), if_neg (by omega), if_neg (by omega), if_pos (by omega),
      Nat.add_sub_cancel_left])]
  rw [h ip.size 8 4 (by omega) hip.size (fun i hi => by
    rw [dinodeByte, if_neg (by omega), if_neg (by omega), if_neg (by omega), if_neg (by omega), if_pos (by omega),
      Nat.add_sub_cancel_left])]
  have haddrs : (fun i : Fin (NDIRECT + 1) => (b.setDinode k ip).field (64 * k + 12 + 4 * i.val) 4) = ip.addrs := by
    funext i
    have hi := i.isLt
    unfold NDIRECT at hi
    rw [Nat.add_assoc]
    refine h (ip.addrs i) (12 + 4 * i.val) 4 (by omega) (hip.addrs i) fun j hj => ?_
    rw [dinodeByte, if_neg (by omega), if_neg (by omega), if_neg (by omega), if_neg (by omega), if_neg (by omega)]
    congr 2
    · apply Fin.ext
      rw [Fin.val_ofNat, Nat.mod_eq_of_lt (by unfold NDIRECT; omega)]
      omega
    · omega
  rw [haddrs]

end Xv6.Blocks
