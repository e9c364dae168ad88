import Mathlib.Data.Set.Finite.Lemmas
import Mathlib.Logic.Relation

/-! # Cycles of a relation with a rank -/

open Relation

namespace Lib

variable {α : Type} {W : α → α → Prop}

theorem cycle_next (p x : α) (hp : TransGen W p p) (hpx : ReflTransGen W p x) (hxp : ReflTransGen W x p) :
    ∃ y, W x y ∧ ReflTransGen W p y ∧ ReflTransGen W y p := by
  have hx : TransGen W x p := by
    rcases ReflTransGen.cases_head hxp with rfl | ⟨y, hxy, hyp⟩
    · exact hp
    · exact TransGen.head' hxy hyp
  obtain ⟨y, hxy, hyp⟩ := TransGen.head'_iff.mp hx
  exact ⟨y, hxy, hpx.tail hxy, hyp⟩

/-- There is no cycle when the rank goes up along every edge that can be continued by two more edges. -/
theorem acyclic_of_rank [Finite α] (rank : α → Nat) (h : ∀ x y z u, W x y → W y z → W z u → rank x < rank y) (p : α) :
    ¬ TransGen W p p := by
  intro hp
  have hfin : ({x | ReflTransGen W p x ∧ ReflTransGen W x p}).Finite := Set.toFinite _
  obtain ⟨x, hx, hmax⟩ := Set.exists_max_image _ rank hfin ⟨p, .refl, .refl⟩
  obtain ⟨y, hxy, hpy, hyp⟩ := cycle_next p x hp hx.1 hx.2
  obtain ⟨z, hyz, hpz, hzp⟩ := cycle_next p y hp hpy hyp
  obtain ⟨u, hzu, -⟩ := cycle_next p z hp hpz hzp
  have := h x y z u hxy hyz hzu
  have := hmax y ⟨hpy, hyp⟩
  omega

end Lib
