import Mathlib.Tactic.Common

/-!
# Memory in pages

An address is a page number and an offset. `tr` tells in which page of memory a page of addresses lies, if it lies
anywhere.
-/

namespace Lib

variable {ρ β : Type} {n : Nat} {tr : Nat → Option ρ} {mem mem₁ mem' : ρ → Nat → β}

def place (n : Nat) (tr : Nat → Option ρ) (a : Nat) : Option (ρ × Nat) := (tr (a / n)).map fun x => (x, a % n)

theorem place_eq {a : Nat} {x : ρ} {o : Nat} : place n tr a = some (x, o) ↔ tr (a / n) = some x ∧ a % n = o := by
  unfold place
  rcases tr (a / n) with _ | y
  · simp
  · simp

def Separate (tr : Nat → Option ρ) : Prop := ∀ v w x, tr v = some x → tr w = some x → v = w

theorem Separate.place (hs : Separate tr) {a b : Nat} {q : ρ × Nat} (ha : place n tr a = some q)
    (hb : place n tr b = some q) : a = b := by
  obtain ⟨x, o⟩ := q
  rw [place_eq] at ha hb
  have hdiv := hs _ _ x ha.1 hb.1
  rw [← Nat.div_add_mod a n, ← Nat.div_add_mod b n, hdiv, ha.2, hb.2]

/-- The bytes from `va` on have become `src`, and no other byte has changed. -/
structure Wrote (n : Nat) (tr : Nat → Option ρ) (va : Nat) (src : List β) (mem mem' : ρ → Nat → β) : Prop where
  new : ∀ i (hi : i < src.length) x o, place n tr (va + i) = some (x, o) → mem' x o = src[i]
  old : ∀ x o, (∀ i < src.length, place n tr (va + i) ≠ some (x, o)) → mem' x o = mem x o

theorem Wrote.nil (va : Nat) : Wrote n tr va [] mem mem := ⟨fun _ hi => absurd hi (Nat.not_lt_zero _), fun _ _ _ => rfl⟩

theorem Wrote.append (hs : Separate tr) {va : Nat} {s t : List β} (h : Wrote n tr va s mem mem₁)
    (h' : Wrote n tr (va + s.length) t mem₁ mem') : Wrote n tr va (s ++ t) mem mem' := by
  constructor
  · intro i hi x o hplace
    rw [List.length_append] at hi
    by_cases hlt : i < s.length
    · rw [List.getElem_append_left hlt, ← h.new i hlt x o hplace]
      refine h'.old x o fun j _ hj => ?_
      have := hs.place hplace hj
      omega
    · rw [List.getElem_append_right (Nat.not_lt.mp hlt)]
      refine h'.new (i - s.length) (by omega) x o ?_
      rwa [Nat.add_assoc, Nat.add_sub_cancel' (Nat.not_lt.mp hlt)]
  · intro x o hnone
    rw [List.length_append] at hnone
    rw [h'.old x o fun j hj => ?_, h.old x o fun j hj => hnone j (by omega)]
    rw [Nat.add_assoc]
    exact hnone (s.length + j) (by omega)

def store [DecidableEq ρ] (mem : ρ → Nat → β) (x : ρ) (o : Nat) (src : List β) : ρ → Nat → β := fun y k =>
  if y = x ∧ o ≤ k then src[k - o]?.getD (mem y k) else mem y k

section

variable [DecidableEq ρ] {x : ρ} {o : Nat} {src : List β}

theorem store_of_ne {y : ρ} (h : y ≠ x) : store mem x o src y = mem y := by
  funext k
  unfold store
  rw [if_neg fun hk => h hk.1]

theorem store_inside {i : Nat} (hi : i < src.length) : store mem x o src x (o + i) = src[i] := by
  unfold store
  rw [if_pos ⟨rfl, Nat.le_add_right _ _⟩, Nat.add_sub_cancel_left, List.getElem?_eq_getElem hi, Option.getD_some]

theorem store_outside {k : Nat} (h : k < o ∨ o + src.length ≤ k) : store mem x o src x k = mem x k := by
  unfold store
  split_ifs with hk
  · rw [List.getElem?_eq_none (by omega), Option.getD_none]
  · rfl

theorem same_page {va i : Nat} (h : va % n + i < n) : (va + i) / n = va / n ∧ (va + i) % n = va % n + i := by
  have hpos : 0 < n := by omega
  have hva := Nat.div_add_mod va n
  have hsum : va + i = va % n + i + n * (va / n) := by omega
  constructor
  · rw [hsum, Nat.add_mul_div_left _ _ hpos, Nat.div_eq_of_lt h, Nat.zero_add]
  · rw [hsum, Nat.add_mul_mod_self_left, Nat.mod_eq_of_lt h]

theorem wrote_page {va : Nat} (hx : tr (va / n) = some x) (hfit : va % n + src.length ≤ n) :
    Wrote n tr va src mem (store mem x (va % n) src) := by
  have hplace : ∀ i < src.length, place n tr (va + i) = some (x, va % n + i) := by
    intro i hi
    obtain ⟨hdiv, hmod⟩ := same_page (show va % n + i < n by omega)
    rw [place_eq, hdiv]
    exact ⟨hx, hmod⟩
  constructor
  · intro i hi y k hy
    rw [hplace i hi] at hy
    obtain ⟨rfl, rfl⟩ := Prod.mk.inj (Option.some.inj hy)
    exact store_inside hi
  · intro y k hnone
    by_cases hy : y = x
    · subst hy
      refine store_outside (Decidable.byContradiction fun hin => ?_)
      rw [not_or] at hin
      refine hnone (k - va % n) (by omega) ?_
      rw [hplace _ (by omega), Nat.add_sub_cancel' (by omega)]
    · rw [store_of_ne hy]

end

end Lib
