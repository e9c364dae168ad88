import Mathlib.Algebra.Order.Group.Multiset
import Mathlib.Algebra.Order.BigOperators.Group.Finset
import Xv6.Lib.Count

/-!
# Things with one owner each

The owners' things are added up as multisets. Nothing has two owners when the sum has no duplicates.
-/

namespace Lib

variable {ι α : Type} [Fintype ι] {f g : ι → Multiset α} {i : ι} {x : α}

/-- All things of all owners. -/
@[irreducible]
def total (f : ι → Multiset α) : Multiset α := ∑ i, f i

theorem mem_total : x ∈ total f ↔ ∃ i, x ∈ f i := by
  unfold total
  rw [Multiset.mem_sum]
  simp

theorem owner_le_total (f : ι → Multiset α) (i : ι) : f i ≤ total f := by
  unfold total
  exact Finset.single_le_sum (fun _ _ => Multiset.zero_le _) (Finset.mem_univ i)

theorem nodup_of_total (h : (total f).Nodup) (i : ι) : (f i).Nodup := Multiset.nodup_of_le (owner_le_total f i) h

theorem not_mem_of_nodup_add {A B : Multiset α} (h : (A + B).Nodup) (hx : x ∈ A) : x ∉ B :=
  Multiset.disjoint_left.mp (Multiset.nodup_add.mp h).2.2 hx

section

variable [DecidableEq ι]

theorem eq_of_mem_total {j : ι} (h : (total f).Nodup) (hi : x ∈ f i) (hj : x ∈ f j) : i = j := by
  by_contra hne
  have hle : f i + f j ≤ total f := by
    unfold total
    rw [← Finset.sum_pair hne]
    exact Finset.sum_le_sum_of_subset (Finset.subset_univ _)
  exact not_mem_of_nodup_add (Multiset.nodup_of_le hle h) hi hj

theorem total_move (i : ι) (h : ∀ j, j ≠ i → g j = f j) : total g + f i = total f + g i := by
  unfold total
  exact sum_move f g i h

end

end Lib
