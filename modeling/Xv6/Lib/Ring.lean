import Mathlib.Data.List.Nodup
import Mathlib.Logic.Function.Basic
import Mathlib.Data.Option.Basic
import Mathlib.Tactic.Common

/-!
# Rings: circular doubly linked lists with a sentinel

The sentinel is `none` and the members are `some b`. `Ring l ys` says that the links visit
exactly `ys`, forwards by `next` and backwards by `prev`.
-/

namespace Lib

variable {β : Type}

structure Links (β : Type) where
  next : Option β → Option β
  prev : Option β → Option β

namespace Links

section

variable [DecidableEq β]

def setNext (l : Links β) (x v : Option β) : Links β := { l with next := Function.update l.next x v }

def setPrev (l : Links β) (x v : Option β) : Links β := { l with prev := Function.update l.prev x v }

/-- The neighbours of `b` are joined to each other. `b` keeps its own links. -/
def unlink (l : Links β) (b : Option β) : Links β :=
  let l := l.setPrev (l.next b) (l.prev b)
  l.setNext (l.prev b) (l.next b)

/-- `b` goes between the sentinel and the first member. -/
def pushFront (l : Links β) (b : Option β) : Links β :=
  let l := l.setNext b (l.next none)
  let l := l.setPrev b none
  let l := l.setPrev (l.next none) b
  l.setNext none b

end

def swap (l : Links β) : Links β := { next := l.prev, prev := l.next }

end Links

/-- From `a` over the members `ys` to `b`, both directions agreeing at each link. -/
def Path (l : Links β) : Option β → List β → Option β → Prop
  | a, [], b => l.next a = b ∧ l.prev b = a
  | a, y :: ys, b => l.next a = some y ∧ l.prev (some y) = a ∧ Path l (some y) ys b

variable (l : Links β) (a b : Option β) (xs : List β) (ys : List β)

theorem path_append (xs zs : List β) (y : β) :
    Path l a (xs ++ y :: zs) b ↔ Path l a xs (some y) ∧ Path l (some y) zs b := by
  induction xs generalizing a with
  | nil => simp [Path, and_assoc]
  | cons x xs ih => simp [Path, ih, and_assoc]

theorem path_frame (l l' : Links β) (a b : Option β) (xs : List β)
    (hn : ∀ x ∈ a :: xs.map some, l'.next x = l.next x)
    (hp : ∀ x ∈ xs.map some ++ [b], l'.prev x = l.prev x) (h : Path l a xs b) : Path l' a xs b := by
  induction xs generalizing a with
  | nil =>
    obtain ⟨h1, h2⟩ := h
    exact ⟨by rw [hn a (by simp), h1], by rw [hp b (by simp), h2]⟩
  | cons x xs ih =>
    obtain ⟨h1, h2, h3⟩ := h
    refine ⟨by rw [hn a (by simp), h1], by rw [hp (some x) (by simp), h2], ?_⟩
    exact ih (some x) (fun y hy => hn y (List.mem_cons_of_mem _ (by simpa using hy)))
      (fun y hy => hp y (List.mem_cons_of_mem _ hy)) h3

theorem path_prev_mem (h : Path l a xs b) :
    l.prev b ∈ a :: xs.map some := by
  induction xs generalizing a with
  | nil => simp [h.2]
  | cons x xs ih => exact List.mem_cons_of_mem _ (by simpa using ih (some x) h.2.2)

theorem path_swap (h : Path l a xs b) :
    Path l.swap b xs.reverse a := by
  induction xs generalizing a with
  | nil => exact ⟨h.2, h.1⟩
  | cons x xs ih =>
    rw [List.reverse_cons, path_append]
    exact ⟨ih (some x) h.2.2, h.2.1, h.1⟩

theorem path_retarget (l l' : Links β) (a b c : Option β) (xs : List β)
    (hnd : (a :: xs.map some).Nodup) (h : Path l a xs b)
    (hn : ∀ x ∈ a :: xs.map some, x ≠ l.prev b → l'.next x = l.next x)
    (hp : ∀ x ∈ xs.map some, l'.prev x = l.prev x)
    (hlast : l'.next (l.prev b) = c) (hc : l'.prev c = l.prev b) : Path l' a xs c := by
  induction xs generalizing a with
  | nil =>
    obtain ⟨-, h2⟩ := h
    exact ⟨by rw [← h2, hlast], by rw [hc, h2]⟩
  | cons x xs ih =>
    obtain ⟨h1, h2, h3⟩ := h
    rw [List.map_cons, List.nodup_cons] at hnd
    -- `a` is not the last node, so its own link stays.
    have ha : a ≠ l.prev b := by
      intro he
      exact hnd.1 (he ▸ by simpa using path_prev_mem l (some x) b xs h3)
    refine ⟨by rw [hn a (by simp) ha, h1], by rw [hp (some x) (by simp), h2], ?_⟩
    exact ih (some x) hnd.2 h3 (fun y hy => hn y (List.mem_cons_of_mem _ (by simpa using hy)))
      (fun y hy => hp y (by simp at hy ⊢; tauto))

def Ring (l : Links β) (ys : List β) : Prop := Path l none ys none ∧ ys.Nodup

theorem ring_empty (hn : l.next none = none) (hp : l.prev none = none) : Ring l [] :=
  ⟨⟨hn, hp⟩, List.nodup_nil⟩

theorem ring_swap (h : Ring l ys) : Ring l.swap ys.reverse :=
  ⟨path_swap l none none ys h.1, List.nodup_reverse.mpr h.2⟩

theorem map_some_nodup (h : xs.Nodup) : (none :: xs.map some).Nodup := by
  rw [List.nodup_cons]
  exact ⟨by simp, h.map (Option.some_injective β)⟩

theorem ring_unlink [DecidableEq β] (xs zs : List β) (b : β) (h : Ring l (xs ++ b :: zs)) :
    Ring (l.unlink (some b)) (xs ++ zs) := by
  obtain ⟨hpath, hnd⟩ := h
  rw [path_append] at hpath
  obtain ⟨hxs, hzs⟩ := hpath
  have hnd' : (xs ++ zs).Nodup := hnd.sublist (by simp)
  refine ⟨?_, hnd'⟩
  have hpm := path_prev_mem l none (some b) xs hxs
  -- Members of the two halves are distinct, and none of them is `b`.
  simp only [List.nodup_append, List.nodup_cons, List.mem_cons, ne_eq, forall_eq_or_imp] at hnd
  obtain ⟨hx, ⟨hbz, hz⟩, hdisj⟩ := hnd
  have hxz : ∀ y ∈ xs, y ∉ zs := fun y hy hm => (hdisj y hy).2 y hm rfl
  have hnb : l.next (some b) ≠ some b := by
    cases zs with
    | nil => rw [hzs.1]; simp
    | cons z zs => rw [hzs.1]; simp at hbz ⊢; tauto
  have hl : (l.unlink (some b)).next = Function.update l.next (l.prev (some b)) (l.next (some b)) := by
    simp [Links.unlink, Links.setPrev, Links.setNext, Function.update_of_ne hnb.symm]
  have hr : (l.unlink (some b)).prev = Function.update l.prev (l.next (some b)) (l.prev (some b)) := rfl
  have hfirst : Path (l.unlink (some b)) none xs (l.next (some b)) := by
    apply path_retarget l _ none (some b) _ xs (map_some_nodup xs hx) hxs
    · intro x _ hne; rw [hl, Function.update_of_ne hne]
    · intro x hm
      rw [hr, Function.update_of_ne]
      obtain ⟨y, hy, rfl⟩ := List.mem_map.mp hm
      cases zs with
      | nil => rw [hzs.1]; simp
      | cons z zs => rw [hzs.1]; rintro ⟨⟩; exact hxz _ hy (by simp)
    · rw [hl, Function.update_self]
    · rw [hr, Function.update_self]
  cases zs with
  | nil => rw [hzs.1] at hfirst; simpa using hfirst
  | cons z zs =>
    rw [path_append]
    refine ⟨hzs.1 ▸ hfirst, ?_⟩
    apply path_frame l _ _ _ _ _ _ hzs.2.2
    · intro x hm
      rw [hl, Function.update_of_ne]
      rintro rfl
      rw [← List.map_cons, List.mem_map] at hm
      obtain ⟨y, hy, he⟩ := hm
      rw [← he, List.mem_cons] at hpm
      rcases hpm with hpm | hpm
      · cases hpm
      · obtain ⟨y', hy', he'⟩ := List.mem_map.mp hpm
        cases he'
        exact hxz y hy' hy
    · intro x hm
      rw [hr, hzs.1, Function.update_of_ne]
      rintro rfl
      simp only [List.mem_append, List.mem_map, Option.some.injEq, exists_eq_right, List.mem_singleton,
        reduceCtorEq, or_false] at hm
      exact (List.nodup_cons.mp hz).1 hm

theorem ring_pushFront [DecidableEq β] (b : β) (h : Ring l ys) (hb : b ∉ ys) :
    Ring (l.pushFront (some b)) (b :: ys) := by
  obtain ⟨hpath, hnd⟩ := h
  refine ⟨?_, List.nodup_cons.mpr ⟨hb, hnd⟩⟩
  have hn0 : (l.pushFront (some b)).next none = some b := by simp [Links.pushFront, Links.setNext]
  have hnb : (l.pushFront (some b)).next (some b) = l.next none := by
    simp [Links.pushFront, Links.setNext, Links.setPrev]
  have hne : ∀ x, x ≠ none → x ≠ some b → (l.pushFront (some b)).next x = l.next x := by
    intro x h1 h2
    simp [Links.pushFront, Links.setNext, Links.setPrev, Function.update_of_ne h1, Function.update_of_ne h2]
  have hpe : (l.pushFront (some b)).prev =
      Function.update (Function.update l.prev (some b) none) (l.next none) (some b) := by
    simp [Links.pushFront, Links.setNext, Links.setPrev]
  cases ys with
  | nil =>
    rw [hpath.1] at hnb hpe
    exact ⟨hn0, by simp [hpe], hnb, by simp [hpe]⟩
  | cons y ys =>
    obtain ⟨h1, h2, h3⟩ := hpath
    rw [h1] at hnb hpe
    have hby : b ≠ y := fun he => hb (by simp [he])
    refine ⟨hn0, by simp [hpe, Function.update_of_ne, hby], hnb, by simp [hpe], ?_⟩
    apply path_frame l _ _ _ _ _ _ h3
    · intro x hm
      apply hne
      · rintro rfl; simp at hm
      · rintro rfl; simp at hm hb; tauto
    · intro x hm
      rw [hpe, Function.update_of_ne, Function.update_of_ne]
      · rintro rfl; simp at hm hb; tauto
      · rintro rfl; simp at hm hnd; tauto

/-- Follow `step` until the sentinel or a member that satisfies `p`. `none` when `fuel` runs out. -/
def scan (step : Option β → Option β) (p : β → Bool) : Nat → Option β → Option (Option β)
  | 0, _ => none
  | _ + 1, none => some none
  | fuel + 1, some b => if p b then some (some b) else scan step p fuel (step (some b))

theorem scan_path (p : β → Bool) (a : Option β) (ys : List β) (h : Path l a ys none) :
    scan l.next p (ys.length + 1) (l.next a) = some (ys.find? p) := by
  induction ys generalizing a with
  | nil => rw [h.1]; rfl
  | cons y ys ih =>
    obtain ⟨h1, -, h3⟩ := h
    rw [h1, List.length_cons, scan, List.find?_cons]
    cases hp : p y with
    | true => simp
    | false => simpa using ih (some y) h3

theorem scan_next (p : β → Bool) (ys : List β) (h : Ring l ys) :
    scan l.next p (ys.length + 1) (l.next none) = some (ys.find? p) :=
  scan_path l p none ys h.1

end Lib
