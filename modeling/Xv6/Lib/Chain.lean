import Mathlib.Data.List.Nodup
import Mathlib.Logic.Function.Basic
import Mathlib.Data.Option.Basic
import Mathlib.Tactic.Common

/-!
# Linked queues

A place is the head of the queue (`none`) or the link of a member (`some b`). `Chain next a ys` says
that the links visit `ys` from the place `a` and then stop.
-/

namespace Lib

variable {β : Type} {next next' : Option β → Option β} {a b : Option β} {y z : β} {ys : List β}

def Chain (next : Option β → Option β) : Option β → List β → Prop
  | a, [] => next a = none
  | a, y :: ys => next a = some y ∧ Chain next (some y) ys

theorem chain_frame (h : Chain next a ys) (hnext : ∀ x ∈ a :: ys.map some, next' x = next x) : Chain next' a ys := by
  induction ys generalizing a with
  | nil => exact (hnext a List.mem_cons_self).trans h
  | cons y ys ih =>
    refine ⟨(hnext a List.mem_cons_self).trans h.1, ih h.2 fun x hx => hnext x (List.mem_cons_of_mem _ hx)⟩

def lastPlace : Option β → List β → Option β
  | a, [] => a
  | _, y :: ys => lastPlace (some y) ys

/-- `for(a; *a; a = &(*a)->next)`, with `none` when the fuel runs out. -/
def seekEnd (next : Option β → Option β) : Nat → Option β → Option (Option β)
  | 0, _ => none
  | fuel + 1, a =>
    match next a with
    | none => some a
    | some y => seekEnd next fuel (some y)

theorem seekEnd_chain (h : Chain next a ys) (n : Nat) (hn : ys.length < n) :
    seekEnd next n a = some (lastPlace a ys) := by
  induction ys generalizing a n with
  | nil =>
    obtain ⟨n, rfl⟩ := Nat.exists_eq_add_one_of_ne_zero (Nat.ne_of_gt hn)
    rw [seekEnd, show next a = none from h]
    rfl
  | cons y ys ih =>
    obtain ⟨n, rfl⟩ := Nat.exists_eq_add_one_of_ne_zero (Nat.ne_of_gt (Nat.zero_lt_of_lt hn))
    rw [seekEnd, h.1]
    exact ih h.2 n (Nat.lt_of_succ_lt_succ hn)

theorem lastPlace_mem : lastPlace a ys ∈ a :: ys.map some := by
  induction ys generalizing a with
  | nil => exact List.mem_cons_self
  | cons y ys ih => exact List.mem_cons_of_mem _ ih

section

variable [DecidableEq β]

theorem chain_append (h : Chain next a ys) (hnd : (a :: ys.map some).Nodup) (hz : some z ∉ a :: ys.map some)
    (hend : next (some z) = none) :
    Chain (Function.update next (lastPlace a ys) (some z)) a (ys ++ [z]) := by
  induction ys generalizing a with
  | nil =>
    refine ⟨Function.update_self .., ?_⟩
    rw [lastPlace]
    change Function.update next a (some z) (some z) = none
    rwa [Function.update_of_ne fun he => hz (by simp [he])]
  | cons y ys ih =>
    rw [List.map_cons] at hnd hz
    -- `a` is not the last place, so its own link stays.
    have hlast : a ≠ lastPlace (some y) ys := by
      intro he
      apply (List.nodup_cons.mp hnd).1
      nth_rw 1 [he]
      exact lastPlace_mem
    refine ⟨?_, ih h.2 (List.nodup_cons.mp hnd).2 fun hmem => hz (List.mem_cons_of_mem _ hmem)⟩
    rw [lastPlace, Function.update_of_ne hlast, h.1]

theorem chain_push (h : Chain next none ys) (hnd : ys.Nodup) (hz : z ∉ ys) (n : Nat) (hn : ys.length < n) :
    ∃ e, seekEnd (Function.update next (some z) none) n none = some e ∧
      Chain (Function.update (Function.update next (some z) none) e (some z)) none (ys ++ [z]) := by
  have hz' : some z ∉ none :: ys.map some := by simpa using hz
  have hnd' : (none :: ys.map some).Nodup := List.nodup_cons.mpr ⟨by simp, hnd.map (Option.some_injective β)⟩
  have hclear : Chain (Function.update next (some z) none) none ys := by
    refine chain_frame h fun x hx => Function.update_of_ne ?_ ..
    rintro rfl
    exact hz' hx
  exact ⟨_, seekEnd_chain hclear n hn, chain_append hclear hnd' hz' (Function.update_self ..)⟩

theorem chain_pop (h : Chain next none (y :: ys)) : Chain (Function.update next none (next (some y))) none ys := by
  cases ys with
  | nil =>
    change Function.update next none _ none = none
    rw [Function.update_self]
    exact h.2
  | cons z ys =>
    refine ⟨?_, chain_frame h.2.2 fun x hx => Function.update_of_ne ?_ ..⟩
    · rw [Function.update_self, h.2.1]
    · rintro rfl
      simp at hx

end

end Lib
