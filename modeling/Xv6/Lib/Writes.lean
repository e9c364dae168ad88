import Mathlib.Data.List.Basic
import Mathlib.Logic.Function.Basic

/-! # Lists of writes, oldest first -/

namespace Lib

variable {α β : Type} [DecidableEq α]

def applyW (m : α → β) (ws : List (α × β)) : α → β := ws.foldl (fun m w => Function.update m w.1 w.2) m

@[simp]
theorem applyW_nil (m : α → β) : applyW m [] = m := rfl

theorem applyW_cons (m : α → β) (w : α × β) (ws : List (α × β)) :
    applyW m (w :: ws) = applyW (Function.update m w.1 w.2) ws := rfl

theorem applyW_append (m : α → β) (ws vs : List (α × β)) : applyW m (ws ++ vs) = applyW (applyW m ws) vs := by
  simp [applyW]

theorem applyW_concat (m : α → β) (ws : List (α × β)) (x : α) (y : β) :
    applyW m (ws ++ [(x, y)]) = Function.update (applyW m ws) x y := by
  simp [applyW]

/-- The writes to `x` all store `y`, and there is one or `y` was there before. -/
theorem applyW_eq (m : α → β) (ws : List (α × β)) (x : α) (y : β) (h : ∀ w ∈ ws, w.1 = x → w.2 = y)
    (hx : m x = y ∨ ∃ w ∈ ws, w.1 = x) : applyW m ws x = y := by
  induction ws generalizing m with
  | nil => simpa using hx
  | cons w ws ih =>
    rw [applyW_cons]
    apply ih _ (fun u hu => h u (List.mem_cons_of_mem _ hu))
    by_cases hw : w.1 = x
    · left
      rw [hw, Function.update_self]
      exact h w List.mem_cons_self hw
    · rcases hx with hx | ⟨u, hu, hux⟩
      · left; rwa [Function.update_of_ne (Ne.symm hw)]
      · right
        rcases List.mem_cons.mp hu with rfl | hu
        · exact absurd hux hw
        · exact ⟨u, hu, hux⟩

theorem applyW_of_not_mem (m : α → β) (ws : List (α × β)) (x : α) (h : ∀ w ∈ ws, w.1 ≠ x) :
    applyW m ws x = m x :=
  applyW_eq m ws x (m x) (fun w hw hx => absurd hx (h w hw)) (Or.inl rfl)

end Lib
