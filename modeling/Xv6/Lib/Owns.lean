import Mathlib.Logic.Function.Basic
import Mathlib.Tactic.Common

/-!
# Slots that own numbers

Each slot holds a number or 0. The numbers with `P` are those that a slot holds, and no two slots hold
the same.
-/

namespace Lib

variable {α : Type} {P Q : Nat → Prop} {r : α → Nat} {a : α} {b : Nat}

structure Owns (P : Nat → Prop) (r : α → Nat) : Prop where
  mem : ∀ a, r a ≠ 0 → P (r a)
  inj : ∀ a a', r a ≠ 0 → r a = r a' → a = a'
  surj : ∀ b, P b → ∃ a, r a ≠ 0 ∧ r a = b

namespace Owns

theorem congr (h : Owns P r) (hPQ : ∀ b, P b ↔ Q b) : Owns Q r :=
  ⟨fun a ha => (hPQ _).mp (h.mem a ha), h.inj, fun b hb => h.surj b ((hPQ b).mpr hb)⟩

variable [DecidableEq α]

theorem alloc (h : Owns P r) (ha : r a = 0) (hb : b ≠ 0) (hP : ¬ P b) :
    Owns (fun x => x = b ∨ P x) (Function.update r a b) := by
  have hfresh : ∀ a', r a' ≠ b := by
    rintro a' rfl
    exact hP (h.mem a' hb)
  refine ⟨fun a' ha' => ?_, fun a₁ a₂ h₁ heq => ?_, fun x hx => ?_⟩
  · rw [Function.update_apply] at ha' ⊢
    split_ifs at ha' ⊢
    · exact .inl rfl
    · exact .inr (h.mem a' ha')
  · rw [Function.update_apply, Function.update_apply] at heq
    rw [Function.update_apply] at h₁
    split_ifs at h₁ heq with e₁ e₂ e₂
    · exact e₁.trans e₂.symm
    · exact absurd heq.symm (hfresh a₂)
    · exact absurd heq (hfresh a₁)
    · exact h.inj a₁ a₂ h₁ heq
  · rcases hx with rfl | hx
    · refine ⟨a, ?_⟩
      rw [Function.update_self]
      exact ⟨hb, rfl⟩
    · obtain ⟨a', ha', rfl⟩ := h.surj x hx
      refine ⟨a', ?_⟩
      rw [Function.update_of_ne (by rintro rfl; exact ha' ha)]
      exact ⟨ha', rfl⟩

end Owns

end Lib
