import Mathlib.Tactic.Common

/-!
# Step systems

A system takes labelled steps, `none` when the step is not enabled. `Reach` is every state
of every run. `ReachIf` keeps the runs whose steps all meet a condition on the state before
the step and its label.
-/

namespace Lib

-- The library's instances by name: the literals of `Fin 1` and `Fin 2`, the systems whose runs are given as lists of
-- labels, then carry one proof in every module.
instance one_neZero : @NeZero Nat Zero.ofOfNat0 1 := inferInstance

instance two_neZero : @NeZero Nat Zero.ofOfNat0 2 := inferInstance

structure System (σ α : Type) where
  init : σ → Prop
  step : σ → α → Option σ

namespace System

variable {σ α : Type} (S : System σ α)

inductive Reach : σ → Prop where
  | init (s : σ) (h : S.init s) : Reach s
  | step (s s' : σ) (a : α) (h : Reach s) (hs : S.step s a = some s') : Reach s'

inductive ReachIf (C : σ → α → Prop) : σ → Prop where
  | init (s : σ) (h : S.init s) : ReachIf C s
  | step (s s' : σ) (a : α) (h : ReachIf C s) (hc : C s a) (hs : S.step s a = some s') : ReachIf C s'

theorem reach_inv (I : σ → Prop) (h0 : ∀ s, S.init s → I s)
    (hstep : ∀ s a s', I s → S.step s a = some s' → I s') (s : σ) (h : S.Reach s) : I s := by
  induction h with
  | init s h => exact h0 s h
  | step s s' a _ hs ih => exact hstep s a s' ih hs

theorem reachIf_inv (C : σ → α → Prop) (I : σ → Prop) (h0 : ∀ s, S.init s → I s)
    (hstep : ∀ s a s', I s → C s a → S.step s a = some s' → I s') (s : σ) (h : S.ReachIf C s) : I s := by
  induction h with
  | init s h => exact h0 s h
  | step s s' a _ hc hs ih => exact hstep s a s' ih hc hs

variable {S} in
theorem ReachIf.mono {C C' : σ → α → Prop} {s : σ} (h : S.ReachIf C s) (hc : ∀ s a, C s a → C' s a) :
    S.ReachIf C' s := by
  induction h with
  | init s h => exact .init s h
  | step s s' a _ ha hs ih => exact .step s s' a ih (hc s a ha) hs

def run (s : σ) : List α → Option σ
  | [] => some s
  | a :: as => (S.step s a).bind fun s' => run s' as

theorem reach_of_run (s : σ) (h : S.Reach s) (as : List α) (s' : σ) (hr : S.run s as = some s') :
    S.Reach s' := by
  induction as generalizing s with
  | nil => cases hr; exact h
  | cons a as ih =>
    obtain ⟨t, ht, hr⟩ := Option.bind_eq_some_iff.mp hr
    exact ih t (.step s t a h ht) hr

theorem reach_of_map {β : Type} {f : σ → β} {v : β} {s : σ} {as : List α} (h : S.init s)
    (hr : (S.run s as).map f = some v) : ∃ s', S.Reach s' ∧ f s' = v := by
  obtain ⟨s', hs, hv⟩ := Option.map_eq_some_iff.mp hr
  exact ⟨s', S.reach_of_run s (.init s h) as s' hs, hv⟩

/-- A run that stops with `none` at the first step that breaks `C`. -/
def runIf (C : σ → α → Prop) [∀ s a, Decidable (C s a)] (s : σ) : List α → Option σ
  | [] => some s
  | a :: as => if C s a then (S.step s a).bind fun s' => runIf C s' as else none

theorem reachIf_of_runIf (C : σ → α → Prop) [∀ s a, Decidable (C s a)] (s : σ) (h : S.ReachIf C s)
    (as : List α) (s' : σ) (hr : S.runIf C s as = some s') : S.ReachIf C s' := by
  induction as generalizing s with
  | nil => cases hr; exact h
  | cons a as ih =>
    rw [runIf] at hr
    split at hr
    · rename_i hc
      obtain ⟨t, ht, hr⟩ := Option.bind_eq_some_iff.mp hr
      exact ih t (.step s t a h hc ht) hr
    · cases hr

theorem reachIf_of_map {C : σ → α → Prop} [∀ s a, Decidable (C s a)] {β : Type} {f : σ → β} {v : β} {s : σ}
    {as : List α} (h : S.init s) (hr : (S.runIf C s as).map f = some v) : ∃ s', S.ReachIf C s' ∧ f s' = v := by
  obtain ⟨s', hs, hv⟩ := Option.map_eq_some_iff.mp hr
  exact ⟨s', S.reachIf_of_runIf C s (.init s h) as s' hs, hv⟩

end System

end Lib
