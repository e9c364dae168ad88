import Mathlib.Data.Nat.ModEq
import Mathlib.Logic.Function.Basic
import Mathlib.Tactic.Common

/-!
# Queues in an array with free-running counters

The counters count all items ever removed and added, modulo `M`. The array has `N` cells, and an
item goes to the cell of its number modulo `N`. This works when `N` divides `M` and is below it.
-/

namespace Lib

variable {α : Type}

/-- The cells from number `past` on hold `q`. -/
structure Fifo (M N : Nat) (data : Nat → α) (nread nwrite past : Nat) (q : List α) : Prop where
  nread : nread = past % M
  nwrite : nwrite = (past + q.length) % M
  fits : q.length ≤ N
  cells : ∀ k (h : k < q.length), data ((past + k) % N) = q[k]

namespace Fifo

variable {M N : Nat} {data : Nat → α} {nread nwrite past : Nat} {q q' : List α} {x : α}

section

variable (h : Fifo M N data nread nwrite past q) (hlt : N < M)

include h hlt

theorem add_eq_iff (k : Nat) (hk : k ≤ N) : (nread + k) % M = nwrite ↔ q.length = k := by
  have hq := h.fits
  rw [h.nread, h.nwrite, Nat.mod_add_mod]
  constructor
  · intro he
    have he : past + k ≡ past + q.length [MOD M] := he
    have := Nat.ModEq.add_left_cancel' past he
    rw [Nat.ModEq, Nat.mod_eq_of_lt (by omega), Nat.mod_eq_of_lt (by omega)] at this
    exact this.symm
  · rintro rfl
    rfl

theorem full_iff : nwrite = (nread + N) % M ↔ q.length = N := by
  rw [eq_comm]
  exact h.add_eq_iff hlt N le_rfl

theorem empty_iff : nread = nwrite ↔ q = [] := by
  have hM : nread % M = nread := by rw [h.nread, Nat.mod_mod]
  have := h.add_eq_iff hlt 0 (Nat.zero_le N)
  rwa [Nat.add_zero, hM, List.length_eq_zero_iff] at this

theorem used : (nwrite + M - nread) % M = q.length := by
  have hq := h.fits
  have hr : nread < M := h.nread ▸ Nat.mod_lt _ (by omega)
  have hw := (h.add_eq_iff hlt q.length hq).mpr rfl
  rw [← hw]
  by_cases hn : nread + q.length < M
  · rw [Nat.mod_eq_of_lt hn, show nread + q.length + M - nread = q.length + M by omega, Nat.add_mod_right,
      Nat.mod_eq_of_lt (by omega)]
  · have hwrap : (nread + q.length) % M = nread + q.length - M := by
      rw [Nat.mod_eq_sub_mod (by omega), Nat.mod_eq_of_lt (by omega)]
    rw [hwrap, show nread + q.length - M + M - nread = q.length by omega, Nat.mod_eq_of_lt (by omega)]

end

theorem init (data : Nat → α) : Fifo M N data 0 0 0 [] :=
  ⟨(Nat.zero_mod M).symm, (Nat.zero_mod M).symm, Nat.zero_le N, fun _ h => absurd h (Nat.not_lt_zero _)⟩

theorem put (h : Fifo M N data nread nwrite past q) (hdvd : N ∣ M) (hq : q.length < N) (x : α) :
    Fifo M N (Function.update data (nwrite % N) x) nread ((nwrite + 1) % M) past (q ++ [x]) := by
  have hw : nwrite % N = (past + q.length) % N := by rw [h.nwrite, Nat.mod_mod_of_dvd _ hdvd]
  refine ⟨h.nread, ?_, ?_, fun k hk => ?_⟩
  · rw [h.nwrite, Nat.mod_add_mod, List.length_append, List.length_singleton, Nat.add_assoc]
  · rw [List.length_append, List.length_singleton]
    omega
  · rw [List.length_append, List.length_singleton] at hk
    rw [hw]
    by_cases hkq : k < q.length
    · rw [List.getElem_append_left hkq, Function.update_of_ne, h.cells k hkq]
      -- Numbers that are less than `N` apart have different cells.
      intro he
      have he : past + k ≡ past + q.length [MOD N] := he
      have := Nat.ModEq.add_left_cancel' past he
      rw [Nat.ModEq, Nat.mod_eq_of_lt (by omega), Nat.mod_eq_of_lt hq] at this
      omega
    · obtain rfl : k = q.length := by omega
      rw [Function.update_self]
      simp

theorem next (h : Fifo M N data nread nwrite past (x :: q)) (hdvd : N ∣ M) : data (nread % N) = x := by
  have := h.cells 0 (Nat.zero_lt_succ _)
  rwa [Nat.add_zero, ← Nat.mod_mod_of_dvd past hdvd, ← h.nread] at this

theorem skip (h : Fifo M N data nread nwrite past (x :: q)) :
    Fifo M N data ((nread + 1) % M) nwrite (past + 1) q := by
  refine ⟨by rw [h.nread, Nat.mod_add_mod], ?_, Nat.le_of_succ_le h.fits, fun k hk => ?_⟩
  · rw [h.nwrite, List.length_cons, Nat.add_right_comm, Nat.add_assoc]
  · have := h.cells (k + 1) (Nat.succ_lt_succ hk)
    rwa [List.getElem_cons_succ, show past + (k + 1) = past + 1 + k by omega] at this

theorem back_eq (h : Fifo M N data nread nwrite past (q ++ [x])) (hlt : N < M) :
    (nwrite + M - 1) % M = (past + q.length) % M := by
  have hw := h.nwrite
  rw [List.length_append, List.length_singleton, ← Nat.add_assoc] at hw
  have hlast : nwrite + M - 1 ≡ past + q.length [MOD M] := by
    apply Nat.ModEq.add_right_cancel' 1
    rw [Nat.sub_add_cancel (by omega), Nat.ModEq, Nat.add_mod_right, hw, Nat.mod_mod]
  exact hlast

theorem last (h : Fifo M N data nread nwrite past (q ++ [x])) (hdvd : N ∣ M) (hlt : N < M) :
    data ((nwrite + M - 1) % M % N) = x := by
  rw [h.back_eq hlt, Nat.mod_mod_of_dvd _ hdvd, h.cells q.length (by simp)]
  simp

theorem unput (h : Fifo M N data nread nwrite past (q ++ [x])) (hlt : N < M) :
    Fifo M N data nread ((nwrite + M - 1) % M) past q := by
  have hfits := h.fits
  rw [List.length_append, List.length_singleton] at hfits
  refine ⟨h.nread, h.back_eq hlt, by omega, fun k hk => ?_⟩
  rw [h.cells k (by rw [List.length_append]; omega), List.getElem_append_left hk]

theorem first (h : Fifo M N data nread nwrite past (q ++ q')) : Fifo M N data nread ((past + q.length) % M) past q := by
  have hfits := h.fits
  rw [List.length_append] at hfits
  refine ⟨h.nread, rfl, by omega, fun k hk => ?_⟩
  rw [h.cells k (by rw [List.length_append]; omega), List.getElem_append_left hk]

theorem rest (h : Fifo M N data nread nwrite past (q ++ q')) :
    Fifo M N data ((past + q.length) % M) nwrite (past + q.length) q' := by
  have hfits := h.fits
  have hw := h.nwrite
  rw [List.length_append] at hfits
  rw [List.length_append, ← Nat.add_assoc] at hw
  refine ⟨rfl, hw, by omega, fun k hk => ?_⟩
  rw [Nat.add_assoc, h.cells (q.length + k) (by rw [List.length_append]; omega), List.getElem_append_right (by omega)]
  simp

end Fifo

end Lib
