import Mathlib.Data.List.Nodup
import Mathlib.Logic.Function.Basic
import Xv6.Param

/-!
# The in-memory log (`log.c`)

`lh.block` is the memory from `lh.block[0]` on; the C array has `LOGSIZE` slots.
-/

namespace Xv6

structure LogHeader where
  n : Nat
  block : Nat → Nat

structure Log where
  start : Nat
  size : Nat
  outstanding : Int
  committing : Bool
  dev : Nat
  lh : LogHeader

namespace LogHeader

/-- `lh.block[0..n)` -/
def blocks (lh : LogHeader) : List Nat := (List.range lh.n).map lh.block

/-- The slot where the loop of `log_write` stops. -/
def slot (lh : LogHeader) (blockno : Nat) : Nat := (List.range lh.n).findIdx fun i => lh.block i == blockno

/-- `log_write` under `log.lock`. -/
def absorb (lh : LogHeader) (blockno : Nat) : LogHeader :=
  let i := lh.slot blockno
  { n := if i = lh.n then lh.n + 1 else lh.n, block := Function.update lh.block i blockno }

variable (lh : LogHeader) (b : Nat)

@[simp]
theorem blocks_length : lh.blocks.length = lh.n := by simp [blocks]

theorem mem_blocks : b ∈ lh.blocks ↔ ∃ i < lh.n, lh.block i = b := by
  simp [blocks]

theorem absorb_of_mem (h : b ∈ lh.blocks) : lh.absorb b = lh := by
  have hlt : lh.slot b < lh.n := by
    have : lh.slot b < (List.range lh.n).length :=
      List.findIdx_lt_length_of_exists (by simpa [mem_blocks] using h)
    simpa using this
  have hb : lh.block (lh.slot b) = b := by
    have := @List.findIdx_getElem _ (fun i => lh.block i == b) (List.range lh.n) (by simpa [slot] using hlt)
    simpa [slot] using this
  unfold absorb
  dsimp only
  rw [if_neg (by omega), show Function.update lh.block (lh.slot b) b = lh.block by simp [hb]]

theorem slot_of_not_mem (h : b ∉ lh.blocks) : lh.slot b = lh.n := by
  have : lh.slot b = (List.range lh.n).length := by
    apply List.findIdx_eq_length_of_false
    intro i hi
    simp only [mem_blocks, not_exists, not_and] at h
    simpa using h i (by simpa using hi)
  simpa using this

theorem absorb_blocks :
    (lh.absorb b).blocks = if b ∈ lh.blocks then lh.blocks else lh.blocks ++ [b] := by
  split
  · rename_i h; rw [absorb_of_mem lh b h]
  · rename_i h
    unfold absorb blocks
    simp only [slot_of_not_mem lh b h, if_true, List.range_succ, List.map_append, List.map_cons,
      Function.update_self, List.map_nil, List.append_cancel_right_eq]
    apply List.map_congr_left
    intro i hi
    rw [Function.update_of_ne]
    have := List.mem_range.mp hi
    omega

theorem absorb_n :
    (lh.absorb b).n = if b ∈ lh.blocks then lh.n else lh.n + 1 := by
  rw [← blocks_length, absorb_blocks]
  split <;> simp

theorem absorb_nodup (h : lh.blocks.Nodup) : (lh.absorb b).blocks.Nodup := by
  rw [absorb_blocks]
  split
  · exact h
  · rename_i hb; exact List.nodup_append.mpr ⟨h, by simp, by rintro x hx y hy rfl; simp_all⟩

end LogHeader

/-- The first check of `log_write`. -/
def Log.full (log : Log) : Bool := LOGSIZE ≤ log.lh.n || log.size ≤ log.lh.n + 1

/-- `begin_op` finds no room for one more operation. -/
def Log.crowded (log : Log) : Prop := (log.lh.n : Int) + (log.outstanding + 1) * MAXOPBLOCKS > LOGSIZE

instance (log : Log) : Decidable log.crowded := inferInstanceAs (Decidable (_ > _))

end Xv6
