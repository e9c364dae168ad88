import Mathlib.Algebra.BigOperators.Fin
import Mathlib.Algebra.Order.BigOperators.Group.Finset

/-! # Sums over processes when one process moves -/

namespace Lib

variable {ι : Type} [Fintype ι]

theorem sum_move {M : Type} [AddCommMonoid M] [DecidableEq ι] (f g : ι → M) (p : ι) (h : ∀ q, q ≠ p → g q = f q) :
    ∑ q, g q + f p = ∑ q, f q + g p := by
  have hrest : ∑ q ∈ Finset.univ.erase p, g q = ∑ q ∈ Finset.univ.erase p, f q :=
    Finset.sum_congr rfl (fun q hq => h q (Finset.ne_of_mem_erase hq))
  rw [← Finset.add_sum_erase Finset.univ f (Finset.mem_univ p), ← Finset.add_sum_erase Finset.univ g
    (Finset.mem_univ p), hrest]
  ac_rfl

theorem sum_update {κ M : Type} [AddCommMonoid M] [DecidableEq ι] (w : κ → M) (f : ι → κ) (p : ι) (v : κ) :
    ∑ q, w (Function.update f p v q) + w (f p) = ∑ q, w (f q) + w v := by
  have h := sum_move (fun q => w (f q)) (fun q => w (Function.update f p v q)) p
    (fun q hq => by simp [Function.update_of_ne hq])
  simpa using h

theorem le_sum (f : ι → Nat) (p : ι) : f p ≤ ∑ q, f q :=
  Finset.single_le_sum (fun _ _ => Nat.zero_le _) (Finset.mem_univ p)

theorem add_le_sum [DecidableEq ι] (f : ι → Nat) (p q : ι) (h : p ≠ q) : f p + f q ≤ ∑ r, f r := by
  rw [← Finset.sum_pair h]
  exact Finset.sum_le_sum_of_subset (Finset.subset_univ _)

theorem le_sum_of_nonneg (f : ι → Int) (h : ∀ q, 0 ≤ f q) (p : ι) : f p ≤ ∑ q, f q :=
  Finset.single_le_sum (fun q _ => h q) (Finset.mem_univ p)

theorem add_le_sum_of_nonneg [DecidableEq ι] (f : ι → Int) (h : ∀ q, 0 ≤ f q) (p q : ι) (hne : p ≠ q) :
    f p + f q ≤ ∑ r, f r := by
  rw [← Finset.sum_pair hne]
  exact Finset.sum_le_sum_of_subset_of_nonneg (Finset.subset_univ _) fun r _ _ => h r

end Lib
