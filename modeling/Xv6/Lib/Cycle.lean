import Mathlib.Data.List.Nodup
import Mathlib.Data.List.Rotate
import Mathlib.Logic.Function.Basic
import Mathlib.Tactic.Common

/-!
# Singly linked cycles

`Cycle next c` says that `next` goes around the list `c`: from each element to the one behind it, and
from the last to the first. Where the list starts does not matter.
-/

namespace Lib

variable {β : Type} {next : β → β} {c l l' : List β} {a b p x y z : β}

def Cycle (next : β → β) (c : List β) : Prop := c.map next = c.rotate 1

theorem cycle_cons : Cycle next (a :: l) ↔ (a :: l).map next = l ++ [a] := by
  rw [Cycle, List.rotate_cons_succ, List.rotate_zero]

theorem Cycle.rotate (h : Cycle next c) (k : Nat) : Cycle next (c.rotate k) := by
  unfold Cycle at h ⊢
  rw [List.map_rotate, h, List.rotate_rotate, List.rotate_rotate, Nat.add_comm]

theorem Cycle.swap (h : Cycle next (l ++ l')) : Cycle next (l' ++ l) := by
  have := h.rotate l.length
  rwa [List.rotate_append_length_eq] at this

theorem Cycle.start (h : Cycle next c) (ha : a ∈ c) : ∃ l, Cycle next (a :: l) ∧ (a :: l).Perm c := by
  obtain ⟨s, t, rfl⟩ := List.append_of_mem ha
  have hperm : (a :: t ++ s).Perm (s ++ a :: t) := List.perm_append_comm
  exact ⟨t ++ s, h.swap, hperm⟩

theorem Cycle.inj (h : Cycle next c) (hnd : c.Nodup) (ha : a ∈ c) (hb : b ∈ c) (he : next a = next b) : a = b := by
  refine List.inj_on_of_nodup_map ?_ ha hb he
  rw [h]
  exact List.nodup_rotate.mpr hnd

theorem Cycle.next_eq (h : Cycle next (l ++ a :: b :: l')) : next a = b := by
  have hs : Cycle next (a :: (b :: l' ++ l)) := h.swap
  exact (List.cons.inj (cycle_cons.mp hs)).1

theorem Cycle.next_last (h : Cycle next (a :: l ++ [z])) : next z = a := by
  have hs : Cycle next (z :: (a :: l)) := h.swap
  exact (List.cons.inj (cycle_cons.mp hs)).1

theorem Cycle.next_mem (h : Cycle next c) (ha : a ∈ c) : next a ∈ c := by
  have hmem : next a ∈ c.map next := List.mem_map_of_mem ha
  rwa [h, List.mem_rotate] at hmem

theorem Cycle.congr {next' : β → β} (h : Cycle next c) (he : ∀ a ∈ c, next' a = next a) : Cycle next' c := by
  unfold Cycle at h ⊢
  rw [List.map_congr_left he, h]

section

variable [DecidableEq β]

theorem Cycle.insert (h : Cycle next (l ++ p :: l')) (hnd : (l ++ p :: l').Nodup) (hb : b ∉ l ++ p :: l') :
    Cycle (Function.update (Function.update next b (next p)) p b) (l ++ p :: b :: l') := by
  have hpl : p ∉ l' ++ l := by
    have hnd' : (p :: (l' ++ l)).Nodup := List.nodup_append_comm.mp hnd
    exact (List.nodup_cons.mp hnd').1
  have hbl : b ∉ l' ++ l ∧ b ≠ p := by
    simp only [List.mem_append, List.mem_cons, not_or] at hb ⊢
    exact ⟨⟨hb.2.2, hb.1⟩, hb.2.1⟩
  have hs : Cycle next (p :: (l' ++ l)) := h.swap
  have hc : next p :: (l' ++ l).map next = (l' ++ l) ++ [p] := cycle_cons.mp hs
  refine Cycle.swap (l := p :: b :: l') ?_
  rw [List.cons_append, List.cons_append, cycle_cons, List.map_cons, List.map_cons, Function.update_self,
    Function.update_of_ne hbl.2, Function.update_self]
  have hrest : (l' ++ l).map (Function.update (Function.update next b (next p)) p b) = (l' ++ l).map next := by
    refine List.map_congr_left fun a ha => ?_
    rw [Function.update_of_ne, Function.update_of_ne]
    · rintro rfl
      exact hbl.1 ha
    · rintro rfl
      exact hpl ha
  rw [hrest, hc]
  rfl

theorem Cycle.remove (h : Cycle next (l ++ y :: x :: l')) (hnd : (l ++ y :: x :: l').Nodup) :
    Cycle (Function.update next y (next x)) (l ++ y :: l') := by
  have hyl : y ∉ l' ++ l := by
    have hnd' : (y :: (x :: (l' ++ l))).Nodup := List.nodup_append_comm.mp hnd
    have hy := (List.nodup_cons.mp hnd').1
    exact fun hm => hy (List.mem_cons_of_mem x hm)
  have hs : Cycle next (y :: (x :: (l' ++ l))) := h.swap
  have hc : next y :: next x :: (l' ++ l).map next = x :: ((l' ++ l) ++ [y]) := cycle_cons.mp hs
  refine Cycle.swap (l := y :: l') ?_
  rw [List.cons_append, cycle_cons, List.map_cons, Function.update_self]
  have hrest : (l' ++ l).map (Function.update next y (next x)) = (l' ++ l).map next := by
    refine List.map_congr_left fun a ha => Function.update_of_ne ?_ ..
    rintro rfl
    exact hyl ha
  rw [hrest]
  exact (List.cons.inj hc).2

end

/-- `for(a; !stop(a); a = next(a))`, with `none` when the fuel runs out. -/
def follow (next : β → β) (stop : β → Bool) : Nat → β → Option β
  | 0, _ => none
  | n + 1, a => if stop a then some a else follow next stop n (next a)

theorem follow_path (stop : β → Bool) (hpath : (a :: l).map next = l ++ [z]) (hp : p ∈ a :: l) (hstop : stop p = true)
    (hno : ∀ b ∈ a :: l, b ≠ p → stop b = false) (n : Nat) (hn : (a :: l).length ≤ n) :
    follow next stop n a = some p := by
  induction l generalizing a n with
  | nil =>
    obtain ⟨n, rfl⟩ : ∃ m, n = m + 1 := ⟨n - 1, by simp only [List.length_cons] at hn; omega⟩
    obtain rfl := List.mem_singleton.mp hp
    rw [follow, if_pos hstop]
  | cons b l ih =>
    obtain ⟨n, rfl⟩ : ∃ m, n = m + 1 := ⟨n - 1, by simp only [List.length_cons] at hn; omega⟩
    rw [follow]
    rcases eq_or_ne a p with rfl | hap
    · rw [if_pos hstop]
    · simp only [List.map_cons, List.cons_append, List.cons.injEq] at hpath
      rw [if_neg (by rw [hno a List.mem_cons_self hap]; simp), hpath.1]
      refine ih hpath.2 (List.mem_of_ne_of_mem hap.symm hp) (fun b hb => hno b (List.mem_cons_of_mem a hb)) n ?_
      simp only [List.length_cons] at hn ⊢
      omega

theorem follow_cycle (stop : β → Bool) (h : Cycle next c) (ha : a ∈ c) (hp : p ∈ c) (hstop : stop p = true)
    (hno : ∀ b ∈ c, b ≠ p → stop b = false) (n : Nat) (hn : c.length ≤ n) : follow next stop n a = some p := by
  obtain ⟨l, hl, hperm⟩ := h.start ha
  refine follow_path stop (cycle_cons.mp hl) (hperm.mem_iff.mpr hp) hstop (fun b hb => hno b (hperm.mem_iff.mp hb)) n ?_
  rw [hperm.length_eq]
  exact hn

theorem follow_mono {stop : β → Bool} {n m : Nat} (hnm : n ≤ m) (hf : follow next stop n a = some p) :
    follow next stop m a = some p := by
  induction n generalizing a m with
  | zero => cases hf
  | succ n ih =>
    obtain ⟨m, rfl⟩ : ∃ k, m = k + 1 := ⟨m - 1, by omega⟩
    rw [follow] at hf ⊢
    split_ifs at hf ⊢ with hstop
    · exact hf
    · exact ih (by omega) hf

end Lib
