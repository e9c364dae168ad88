import Mathlib
import Xv6.Malloc.Code

/-!
# The free list

`FreeList` says what the free list is: a cycle through `base` over blocks in the order of their addresses,
with a gap behind each. `free` finds the place of a block in it and joins the block to its neighbours.
-/

open Lib Function

namespace Xv6.Malloc

open Heap

variable {base : Nat} {h h' : Heap} {l A B B' : List Nat} {bp p k : Nat}

def Covers (size : Nat → Nat) (l : List Nat) (y : Nat) : Prop := ∃ a ∈ l, a ≤ y ∧ y < a + 8 * size a

theorem covers_append (size : Nat → Nat) (y : Nat) : Covers size (A ++ B) y ↔ Covers size A y ∨ Covers size B y := by
  simp only [Covers, List.mem_append]
  constructor
  · rintro ⟨a, ha | ha, hy⟩
    · exact .inl ⟨a, ha, hy⟩
    · exact .inr ⟨a, ha, hy⟩
  · rintro (⟨a, ha, hy⟩ | ⟨a, ha, hy⟩)
    · exact ⟨a, .inl ha, hy⟩
    · exact ⟨a, .inr ha, hy⟩

theorem covers_cons (size : Nat → Nat) (a y : Nat) :
    Covers size (a :: B) y ↔ (a ≤ y ∧ y < a + 8 * size a) ∨ Covers size B y := by
  simp [Covers]

theorem covers_congr {size size' : Nat → Nat} (hs : ∀ a ∈ l, size' a = size a) (y : Nat) :
    Covers size' l y ↔ Covers size l y := by
  unfold Covers
  refine exists_congr fun a => and_congr_right fun ha => ?_
  rw [hs a ha]

abbrev Gaps (size : Nat → Nat) (c : List Nat) : Prop := c.Pairwise fun a b => a + 8 * size a < b

structure FreeList (base : Nat) (h : Heap) (l : List Nat) : Prop where
  cycle : Cycle h.ptr (base :: l)
  gaps : Gaps h.size (base :: l)
  zero : h.size base = 0
  pos : ∀ a ∈ l, 1 ≤ h.size a
  room : ∀ a ∈ l, a + 8 * h.size a < 2 ^ 32
  above : ∀ a ∈ l, base + 8 ≤ a
  freep : h.freep ∈ base :: l

theorem Gaps.sorted {size : Nat → Nat} {c : List Nat} (h : Gaps size c) : c.Pairwise (· < ·) := h.imp fun hab => by
  omega

theorem FreeList.nodup (h : FreeList base h' l) : (base :: l).Nodup := h.gaps.sorted.imp fun hab => Nat.ne_of_lt hab

theorem FreeList.next (hr : FreeList base h l) {a : Nat} (ha : a ∈ base :: l) :
    h.ptr a = base ∧ (∀ b ∈ base :: l, b ≤ a) ∨
    a < h.ptr a ∧ h.ptr a ∈ l ∧ ∀ b ∈ base :: l, b ≤ a ∨ h.ptr a ≤ b := by
  obtain ⟨s, t, hst⟩ := List.append_of_mem ha
  have hsorted := hr.gaps.sorted
  have hcycle := hr.cycle
  rw [hst] at hsorted hcycle ⊢
  obtain ⟨-, ht, hs⟩ := List.pairwise_append.mp hsorted
  rcases t with _ | ⟨b, t⟩
  · refine .inl ⟨?_, fun b hb => ?_⟩
    · rcases s with _ | ⟨c, s⟩
      · obtain ⟨rfl, -⟩ := List.cons.inj hst
        exact (List.cons.inj (cycle_cons.mp hcycle)).1
      · obtain ⟨rfl, -⟩ := List.cons.inj hst
        exact hcycle.next_last
    · rcases List.mem_append.mp hb with hb | hb
      · exact Nat.le_of_lt (hs b hb a List.mem_cons_self)
      · exact Nat.le_of_eq (List.mem_singleton.mp hb)
  · have hnext := hcycle.next_eq
    obtain ⟨hab, ht⟩ := List.pairwise_cons.mp ht
    rw [hnext]
    refine .inr ⟨hab b List.mem_cons_self, ?_, fun c hc => ?_⟩
    · have hmem : b ∈ base :: l := by rw [hst]; simp
      rcases List.mem_cons.mp hmem with he | hb
      · -- `base` comes first.
        have hlt := hab b List.mem_cons_self
        rcases List.mem_cons.mp ha with hab' | ha
        · omega
        · have := (List.pairwise_cons.mp hr.gaps.sorted).1 a ha
          omega
      · exact hb
    · rcases List.mem_append.mp hc with hc | hc
      · exact .inl (Nat.le_of_lt (hs c hc a List.mem_cons_self))
      · rcases List.mem_cons.mp hc with rfl | hc
        · exact .inl (Nat.le_refl c)
        rcases List.mem_cons.mp hc with rfl | hc
        · exact .inr (Nat.le_refl c)
        · exact .inr (Nat.le_of_lt ((List.pairwise_cons.mp ht).1 c hc))

theorem split_at (c : List Nat) (hs : c.Pairwise (· < ·)) (hb : bp ∉ c) (a : Nat) (ha : a ∈ c) (hab : a < bp) :
    ∃ A p B, c = A ++ p :: B ∧ p < bp ∧ ∀ b ∈ B, bp < b := by
  induction c generalizing a with
  | nil => cases ha
  | cons x c ih =>
    obtain ⟨hx, hs⟩ := List.pairwise_cons.mp hs
    by_cases hall : ∀ b ∈ c, bp < b
    · refine ⟨[], x, c, rfl, ?_, hall⟩
      rcases List.mem_cons.mp ha with rfl | ha
      · exact hab
      · exact absurd (hall a ha) (Nat.lt_asymm hab)
    · push Not at hall
      obtain ⟨b, hbc, hle⟩ := hall
      have hne : b ≠ bp := fun he => hb (he ▸ List.mem_cons_of_mem x hbc)
      obtain ⟨A, p, B, rfl, hp, hB⟩ := ih hs (fun hm => hb (List.mem_cons_of_mem x hm)) b hbc (by omega)
      exact ⟨x :: A, p, B, rfl, hp, hB⟩

theorem FreeList.find (hr : FreeList base h l) (hc : base :: l = A ++ p :: B) (hp : p < bp)
    (hB : ∀ b ∈ B, bp < b) (n : Nat) (hn : l.length + 1 ≤ n) : follow h.ptr (h.stops bp) n h.freep = some p := by
  have hmem : p ∈ base :: l := by rw [hc]; simp
  have hbase : ∀ b ∈ base :: l, base ≤ b := by
    intro b hb
    rcases List.mem_cons.mp hb with rfl | hb
    · exact Nat.le_refl b
    · exact Nat.le_of_lt ((List.pairwise_cons.mp hr.gaps.sorted).1 b hb)
  have hside : ∀ b ∈ base :: l, b ≤ p ∨ bp < b := by
    intro b hb
    have hsorted := hr.gaps.sorted
    rw [hc] at hb hsorted
    rcases List.mem_append.mp hb with hb | hb
    · exact .inl (Nat.le_of_lt ((List.pairwise_append.mp hsorted).2.2 b hb p List.mem_cons_self))
    · rcases List.mem_cons.mp hb with rfl | hb
      · exact .inl (Nat.le_refl b)
      · exact .inr (hB b hb)
  have hpb := hbase p hmem
  refine follow_cycle _ hr.cycle hr.freep hmem ?_ (fun a ha hne => ?_) n hn
  · unfold stops
    rcases hr.next hmem with ⟨hptr, -⟩ | ⟨hlt, hnext, -⟩
    · simp only [hptr, Bool.or_eq_true, Bool.and_eq_true, decide_eq_true_eq]
      omega
    · have := hside _ (List.mem_cons_of_mem base hnext)
      simp only [Bool.or_eq_true, Bool.and_eq_true, decide_eq_true_eq]
      omega
  · have hab := hbase a ha
    have hsa := hside a ha
    unfold stops
    simp only [Bool.or_eq_false_iff, Bool.and_eq_false_iff, decide_eq_false_iff_not]
    rcases hr.next ha with ⟨hptr, hlast⟩ | ⟨hlt, -, hgap⟩
    · have := hlast p hmem
      omega
    · have := hgap p hmem
      omega

theorem plus_eq {a n : Nat} (h : a + 8 * n < 2 ^ 32) : plus a n = a + 8 * n := Nat.mod_eq_of_lt h

structure Place (base : Nat) (h : Heap) (A B : List Nat) (p bp k : Nat) : Prop where
  size : h.size bp = k
  pos : 1 ≤ k
  above : base + 8 ≤ bp
  room : bp + 8 * k < 2 ^ 32
  before : p + 8 * h.size p ≤ bp
  lt : p < bp
  after : ∀ b ∈ B, bp + 8 * k ≤ b
  notMem : bp ∉ A ++ p :: B

structure Joined (h h' : Heap) (A B B' : List Nat) (p bp k k' : Nat) : Prop where
  ptr : ∃ v, h'.ptr = update h.ptr bp v ∧ Cycle (update h.ptr p v) (A ++ p :: B')
  size : h'.size = update h.size bp k'
  le : k ≤ k'
  room : bp + 8 * k' < 2 ^ 32
  gap : ∀ b ∈ B', bp + 8 * k' < b
  sub : B'.Sublist B
  covers : ∀ y, (bp ≤ y ∧ y < bp + 8 * k') ∨ Covers h.size B' y ↔ (bp ≤ y ∧ y < bp + 8 * k) ∨ Covers h.size B y
  mem : h'.mem = h.mem

theorem FreeList.joinNext (hr : FreeList base h l) (hc : base :: l = A ++ p :: B) (hb : Place base h A B p bp k) :
    ∃ B' k', Joined h (h.joinNext bp p) A B B' p bp k k' := by
  have hcycle := hr.cycle
  have hgaps := hr.gaps
  have hnd := hr.nodup
  rw [hc] at hcycle hgaps hnd
  obtain ⟨-, hpB, -⟩ := List.pairwise_append.mp hgaps
  obtain ⟨-, hgB⟩ := List.pairwise_cons.mp hpB
  have hself : Cycle (update h.ptr p (h.ptr p)) (A ++ p :: B) := by rwa [update_eq_self]
  unfold Heap.joinNext
  rw [hb.size, plus_eq hb.room]
  split_ifs with hjoin
  · -- The next block is not `base`, so it is the first of `B`.
    have hp : p ∈ base :: l := by rw [hc]; simp
    have hx : ∃ x B₁, B = x :: B₁ := by
      rcases B with _ | ⟨x, B₁⟩
      · have hge := (List.pairwise_cons.mp hr.gaps.sorted).1
        have habove := hb.above
        rcases hr.next hp with ⟨hptr, -⟩ | ⟨hlt, hmem, -⟩
        · omega
        · have hm : h.ptr p ∈ A ++ [p] := hc ▸ List.mem_cons_of_mem base hmem
          rcases List.mem_append.mp hm with hm | hm
          · have := (List.pairwise_append.mp hgaps).2.2 _ hm p List.mem_cons_self
            omega
          · have := List.mem_singleton.mp hm
            omega
      · exact ⟨x, B₁, rfl⟩
    obtain ⟨x, B₁, rfl⟩ := hx
    have hptr : h.ptr p = x := hcycle.next_eq
    have hxl : x ∈ l := by
      have hm : x ∈ base :: l := by rw [hc]; simp
      rcases List.mem_cons.mp hm with rfl | hm
      · have := hb.after x List.mem_cons_self
        have := hb.above
        omega
      · exact hm
    have hroom := hr.room x hxl
    rw [hptr] at hjoin ⊢
    have hsum : k + h.size x < 2 ^ 32 := by omega
    rw [Nat.mod_eq_of_lt hsum]
    obtain ⟨hxB, hgB₁⟩ := List.pairwise_cons.mp hgB
    refine ⟨B₁, k + h.size x, ⟨h.ptr x, rfl, hcycle.remove hnd⟩, rfl, by omega, by omega, fun b hbB => ?_,
      List.sublist_cons_self x B₁, fun y => ?_, rfl⟩
    · have := hxB b hbB
      omega
    · rw [covers_cons]
      constructor
      · rintro (hy | hy)
        · omega
        · exact .inr (.inr hy)
      · rintro (hy | hy | hy)
        · exact .inl (by omega)
        · exact .inl (by omega)
        · exact .inr hy
  · refine ⟨B, k, ⟨h.ptr p, rfl, hself⟩, ?_, Nat.le_refl k, hb.room, fun b hbB => ?_, List.Sublist.refl B,
      fun y => Iff.rfl, rfl⟩
    · rw [← hb.size]
      exact (update_eq_self bp h.size).symm
    · -- Only the first block of `B` could touch `bp`.
      rcases B with _ | ⟨x, B₁⟩
      · cases hbB
      · have hptr : h.ptr p = x := hcycle.next_eq
        have hx := hb.after x List.mem_cons_self
        rw [hptr] at hjoin
        rcases List.mem_cons.mp hbB with rfl | hbB
        · omega
        · have := (List.pairwise_cons.mp hgB).1 b hbB
          omega

theorem cons_of_split (hc : base :: l = A ++ p :: B) (X : List Nat) : ∃ l', base :: l' = A ++ p :: X := by
  rcases A with _ | ⟨a, A⟩
  · obtain ⟨rfl, -⟩ := List.cons.inj hc
    exact ⟨X, rfl⟩
  · obtain ⟨rfl, -⟩ := List.cons.inj hc
    exact ⟨A ++ p :: X, rfl⟩

theorem FreeList.covers_split (hr : FreeList base h l) (hc : base :: l = A ++ B) (y : Nat) :
    Covers h.size l y ↔ Covers h.size A y ∨ Covers h.size B y := by
  rw [← covers_append, ← hc, covers_cons, hr.zero]
  exact (or_iff_right fun hy => by omega).symm

theorem FreeList.tail {X l' : List Nat} (hr : FreeList base h l) (hc : base :: l = A ++ p :: B)
    (hl' : base :: l' = A ++ p :: X)
    (hcycle : Cycle h'.ptr (A ++ p :: X)) (hA : ∀ a ∈ A, h'.size a = h.size a) (hX : Gaps h'.size (p :: X))
    (hzero : p = base → h'.size p = 0)
    (hblock : ∀ x ∈ p :: X, x ≠ base → 1 ≤ h'.size x ∧ x + 8 * h'.size x < 2 ^ 32 ∧ base + 8 ≤ x)
    (hfreep : h'.freep ∈ A ++ p :: X) : FreeList base h' l' := by
  have hgaps := hr.gaps
  rw [hc] at hgaps
  obtain ⟨hgA, -, hAp⟩ := List.pairwise_append.mp hgaps
  have hgaps' : Gaps h'.size (base :: l') := by
    rw [hl']
    refine List.pairwise_append.mpr ⟨hgA.imp_of_mem fun ha _ hab => by rwa [hA _ ha], hX, fun a ha b hb => ?_⟩
    have hap := hAp a ha p List.mem_cons_self
    rw [hA a ha]
    rcases List.mem_cons.mp hb with rfl | hb
    · exact hap
    · have := (List.pairwise_cons.mp hX).1 b hb
      omega
  -- A block of the new list is an old one or behind `p`.
  have hmem : ∀ x ∈ l', x ∈ A ∧ x ∈ l ∨ x ∈ p :: X ∧ x ≠ base := by
    intro x hx
    have hne : x ≠ base := by
      have := (List.pairwise_cons.mp hgaps').1 x hx
      omega
    have hm : x ∈ A ++ p :: X := hl' ▸ List.mem_cons_of_mem base hx
    rcases List.mem_append.mp hm with hm | hm
    · have hm' : x ∈ base :: l := hc ▸ List.mem_append_left _ hm
      exact .inl ⟨hm, (List.mem_cons.mp hm').resolve_left hne⟩
    · exact .inr ⟨hm, hne⟩
  refine ⟨hl' ▸ hcycle, hgaps', ?_, fun x hx => ?_, fun x hx => ?_, fun x hx => ?_, hl' ▸ hfreep⟩
  · rcases A with _ | ⟨a, A⟩
    · obtain ⟨rfl, -⟩ := List.cons.inj hc
      exact hzero rfl
    · obtain ⟨rfl, -⟩ := List.cons.inj hc
      rw [hA base List.mem_cons_self, hr.zero]
  · rcases hmem x hx with ⟨hxA, hxl⟩ | ⟨hxX, hne⟩
    · rw [hA x hxA]
      exact hr.pos x hxl
    · exact (hblock x hxX hne).1
  · rcases hmem x hx with ⟨hxA, hxl⟩ | ⟨hxX, hne⟩
    · rw [hA x hxA]
      exact hr.room x hxl
    · exact (hblock x hxX hne).2.1
  · rcases hmem x hx with ⟨hxA, hxl⟩ | ⟨hxX, hne⟩
    · exact hr.above x hxl
    · exact (hblock x hxX hne).2.2

structure Freed (base : Nat) (h h' : Heap) (l l' : List Nat) (bp k : Nat) : Prop where
  list : FreeList base h' l'
  covers : ∀ y, Covers h'.size l' y ↔ Covers h.size l y ∨ bp ≤ y ∧ y < bp + 8 * k
  size : ∀ x, x ∉ base :: l → x ≠ bp → h'.size x = h.size x
  fits : ∃ x ∈ l', k ≤ h'.size x
  length : l'.length ≤ l.length + 1
  mem : h'.mem = h.mem

theorem Joined.length {h₁ : Heap} {k' : Nat} {l' : List Nat} {X : List Nat} (hj : Joined h h₁ A B B' p bp k k')
    (hc : base :: l = A ++ p :: B) (hl' : base :: l' = A ++ p :: X) (hX : X.length ≤ B'.length + 1) :
    l'.length ≤ l.length + 1 := by
  have hlen := congrArg List.length hl'
  have hlen' := congrArg List.length hc
  have := hj.sub.length_le
  simp only [List.length_cons, List.length_append] at hlen hlen'
  omega

section

variable {h₁ : Heap} {k' v : Nat} (hr : FreeList base h l) (hc : base :: l = A ++ p :: B) (hb : Place base h A B p bp k)
  (hj : Joined h h₁ A B B' p bp k k') (hcycle : Cycle (update h.ptr p v) (A ++ p :: B'))
include hr hc hb hj hcycle

theorem FreeList.freed_join (hmem : h'.mem = h.mem) (hptr : h'.ptr = update (update h.ptr bp v) p v)
    (hsize : h'.size = update (update h.size bp k') p (h.size p + k')) (hfreep : h'.freep = p)
    (htouch : p + 8 * h.size p = bp) : ∃ l', Freed base h h' l l' bp k := by
  obtain ⟨l', hl'⟩ := cons_of_split hc B'
  have hgaps := hr.gaps
  rw [hc] at hgaps
  obtain ⟨hgA, hgp, hAp⟩ := List.pairwise_append.mp hgaps
  obtain ⟨hpB, hgB⟩ := List.pairwise_cons.mp hgp
  have habove := hb.above
  have hk := hj.le
  have hbase : p ≠ base := by
    rintro rfl
    rw [hr.zero] at htouch
    omega
  have hpl : p ∈ l := by
    have hm : p ∈ base :: l := by rw [hc]; simp
    exact (List.mem_cons.mp hm).resolve_left hbase
  have hold : ∀ x, x ≠ p → x ≠ bp → h'.size x = h.size x := by
    intro x hxp hxb
    rw [hsize, update_of_ne hxp, update_of_ne hxb]
  have hA : ∀ x ∈ A, h'.size x = h.size x := by
    intro x hx
    have := hAp x hx p List.mem_cons_self
    exact hold x (by omega) (by omega)
  have hB : ∀ x ∈ B', h'.size x = h.size x := by
    intro x hx
    have := hj.gap x hx
    exact hold x (by omega) (by omega)
  have hp : h'.size p = h.size p + k' := by rw [hsize, update_self]
  have hBl : ∀ x ∈ B', x ∈ l := by
    intro x hx
    have hm : x ∈ base :: l := by
      rw [hc]
      exact List.mem_append_right A (List.mem_cons_of_mem p (hj.sub.subset hx))
    have := hj.gap x hx
    exact (List.mem_cons.mp hm).resolve_left (by omega)
  have hlist : FreeList base h' l' := by
    refine hr.tail hc hl' ?_ hA ?_ (absurd · hbase) ?_ ?_
    · refine hcycle.congr fun x hx => ?_
      rw [hptr]
      rcases eq_or_ne x p with rfl | hxp
      · rw [update_self, update_self]
      · have hxb : x ≠ bp := by
          rintro rfl
          refine hb.notMem ?_
          exact (((List.Sublist.refl A).append (hj.sub.cons_cons p)).subset hx)
        rw [update_of_ne hxp, update_of_ne hxp, update_of_ne hxb]
    · refine List.pairwise_cons.mpr ⟨fun b hbB => ?_, (hgB.sublist hj.sub).imp_of_mem fun hx _ hxy => by rwa [hB _ hx]⟩
      have := hj.gap b hbB
      omega
    · intro x hx _
      rcases List.mem_cons.mp hx with rfl | hx
      · have := hj.room
        have := hr.pos x hpl
        exact ⟨by omega, by omega, hr.above x hpl⟩
      · rw [hB x hx]
        exact ⟨hr.pos x (hBl x hx), hr.room x (hBl x hx), hr.above x (hBl x hx)⟩
    · rw [hfreep]
      simp
  refine ⟨l', hlist, fun y => ?_, fun x hx hxb => ?_, ⟨p, ?_, by omega⟩, hj.length hc hl' (Nat.le_succ _), hmem⟩
  · rw [hlist.covers_split hl', hr.covers_split hc, covers_congr hA, covers_cons, covers_cons, covers_congr hB, hp]
    have hcovers := hj.covers y
    constructor
    · rintro (hy | hy | hy)
      · exact .inl (.inl hy)
      · by_cases hyp : y < bp
        · exact .inl (.inr (.inl (by omega)))
        · exact (hcovers.mp (.inl (by omega))).elim .inr fun hy => .inl (.inr (.inr hy))
      · exact (hcovers.mp (.inr hy)).elim .inr fun hy => .inl (.inr (.inr hy))
    · rintro ((hy | hy | hy) | hy)
      · exact .inl hy
      · exact .inr (.inl (by omega))
      · exact (hcovers.mpr (.inr hy)).elim (fun hy => .inr (.inl (by omega))) fun hy => .inr (.inr hy)
      · exact .inr (.inl (by omega))
  · refine hold x ?_ hxb
    rintro rfl
    exact hx (List.mem_cons_of_mem base hpl)
  · have hm : p ∈ base :: l' := by rw [hl']; simp
    exact (List.mem_cons.mp hm).resolve_left hbase

theorem FreeList.freed_insert (hmem : h'.mem = h.mem) (hptr : h'.ptr = update (update h.ptr bp v) p bp)
    (hsize : h'.size = update h.size bp k') (hfreep : h'.freep = p) (htouch : p + 8 * h.size p ≠ bp) :
    ∃ l', Freed base h h' l l' bp k := by
  obtain ⟨l', hl'⟩ := cons_of_split hc (bp :: B')
  have hgaps := hr.gaps
  rw [hc] at hgaps
  obtain ⟨hgA, hgp, hAp⟩ := List.pairwise_append.mp hgaps
  obtain ⟨hpB, hgB⟩ := List.pairwise_cons.mp hgp
  have hlt := hb.lt
  have habove := hb.above
  have hbefore := hb.before
  have hk := hj.le
  have hold : ∀ x, x ≠ bp → h'.size x = h.size x := by
    intro x hxb
    rw [hsize, update_of_ne hxb]
  have hA : ∀ x ∈ A, h'.size x = h.size x := by
    intro x hx
    have := hAp x hx p List.mem_cons_self
    exact hold x (by omega)
  have hB : ∀ x ∈ B', h'.size x = h.size x := by
    intro x hx
    have := hj.gap x hx
    exact hold x (by omega)
  have hp : h'.size p = h.size p := hold p (Nat.ne_of_lt hlt)
  have hbp : h'.size bp = k' := by rw [hsize, update_self]
  have hl : ∀ x ∈ p :: B', x ≠ base → x ∈ l := by
    intro x hx hne
    have hm : x ∈ base :: l := by
      rw [hc]
      exact List.mem_append_right A ((hj.sub.cons_cons p).subset hx)
    exact (List.mem_cons.mp hm).resolve_left hne
  have hlist : FreeList base h' l' := by
    refine hr.tail hc hl' ?_ hA ?_ (fun he => ?_) ?_ ?_
    · have hnd := hr.nodup
      rw [hc] at hnd
      have hsub := (List.Sublist.refl A).append (hj.sub.cons_cons p)
      refine (hcycle.insert (hnd.sublist hsub) fun hm => hb.notMem (hsub.subset hm)).congr fun x _ => ?_
      rw [hptr, update_self]
      rcases eq_or_ne x p with rfl | hxp
      · rw [update_self, update_self]
      · rw [update_of_ne hxp, update_of_ne hxp]
        rcases eq_or_ne x bp with rfl | hxb
        · rw [update_self, update_self]
        · rw [update_of_ne hxb, update_of_ne hxb, update_of_ne hxp]
    · refine List.pairwise_cons.mpr ⟨fun b hbB => ?_, List.pairwise_cons.mpr ⟨fun b hbB => ?_, ?_⟩⟩
      · rw [hp]
        rcases List.mem_cons.mp hbB with rfl | hbB
        · omega
        · have := hj.gap b hbB
          omega
      · rw [hbp]
        exact hj.gap b hbB
      · exact (hgB.sublist hj.sub).imp_of_mem fun hx _ hxy => by rwa [hB _ hx]
    · rw [hp, he, hr.zero]
    · intro x hx hne
      rcases List.mem_cons.mp hx with rfl | hx
      · have hxl := hl x List.mem_cons_self hne
        rw [hp]
        exact ⟨hr.pos x hxl, hr.room x hxl, hr.above x hxl⟩
      rcases List.mem_cons.mp hx with rfl | hx
      · have := hb.pos
        rw [hbp]
        exact ⟨by omega, hj.room, habove⟩
      · have hxl := hl x (List.mem_cons_of_mem p hx) hne
        rw [hB x hx]
        exact ⟨hr.pos x hxl, hr.room x hxl, hr.above x hxl⟩
    · rw [hfreep]
      simp
  refine ⟨l', hlist, fun y => ?_, fun x _ hxb => hold x hxb, ⟨bp, ?_, by omega⟩, hj.length hc hl' (Nat.le_refl _), hmem⟩
  · rw [hlist.covers_split hl', hr.covers_split hc, covers_congr hA, covers_cons, covers_cons, covers_cons,
      covers_congr hB, hp, hbp]
    have hcovers := hj.covers y
    constructor
    · rintro (hy | hy | hy)
      · exact .inl (.inl hy)
      · exact .inl (.inr (.inl hy))
      · exact (hcovers.mp hy).elim .inr fun hy => .inl (.inr (.inr hy))
    · rintro ((hy | hy | hy) | hy)
      · exact .inl hy
      · exact .inr (.inl hy)
      · exact .inr (.inr (hcovers.mpr (.inr hy)))
      · exact .inr (.inr (hcovers.mpr (.inl hy)))
  · have hm : bp ∈ base :: l' := by rw [hl']; simp
    exact (List.mem_cons.mp hm).resolve_left (by omega)

end

/-- **`free` gives the block back.** The loop ends within one turn of the list, whatever block `freep` is at. -/
theorem FreeList.freeHeader (hr : FreeList base h l) (hsize : h.size bp = k) (hpos : 1 ≤ k) (habove : base + 8 ≤ bp)
    (hroom : bp + 8 * k < 2 ^ 32) (hapart : ∀ a ∈ l, a + 8 * h.size a ≤ bp ∨ bp + 8 * k ≤ a) :
    ∃ h' l', (∀ n, l.length + 1 ≤ n → h.freeHeader n bp = some h') ∧ Freed base h h' l l' bp k := by
  have hnotMem : bp ∉ base :: l := by
    intro hm
    rcases List.mem_cons.mp hm with rfl | hm
    · omega
    · have := hapart bp hm
      have := hr.pos bp hm
      omega
  obtain ⟨A, p, B, hc, hlt, hB⟩ := split_at (base :: l) hr.gaps.sorted hnotMem base List.mem_cons_self (by omega)
  have hbefore : p + 8 * h.size p ≤ bp := by
    have hm : p ∈ base :: l := by rw [hc]; simp
    rcases List.mem_cons.mp hm with rfl | hm
    · rw [hr.zero]
      omega
    · have := hapart p hm
      omega
  have hafter : ∀ b ∈ B, bp + 8 * k ≤ b := by
    intro b hbB
    have hlt := hB b hbB
    have hm : b ∈ base :: l := by rw [hc]; simp [hbB]
    rcases List.mem_cons.mp hm with rfl | hm
    · omega
    · have := hapart b hm
      omega
  have hb : Place base h A B p bp k := ⟨hsize, hpos, habove, hroom, hbefore, hlt, hafter, hc ▸ hnotMem⟩
  obtain ⟨B', k', hj⟩ := hr.joinNext hc hb
  obtain ⟨v, hptr, hcycle⟩ := hj.ptr
  have hp : (h.joinNext bp p).size p = h.size p := by rw [hj.size, update_of_ne (Nat.ne_of_lt hlt)]
  have hbp : (h.joinNext bp p).size bp = k' := by rw [hj.size, update_self]
  have hsum : h.size p + k' < 2 ^ 32 := by
    have := hj.room
    omega
  have hfree : ∀ n, l.length + 1 ≤ n →
    h.freeHeader n bp = some { (h.joinNext bp p).joinPrev bp p with freep := p } := by
    intro n hn
    rw [Heap.freeHeader, hr.find hc hlt hB n hn, Option.map_some]
  suffices hfreed : ∃ l', Freed base h { (h.joinNext bp p).joinPrev bp p with freep := p } l l' bp k by
    obtain ⟨l', hfreed⟩ := hfreed
    exact ⟨_, l', hfree, hfreed⟩
  unfold Heap.joinPrev
  rw [hp, hbp, plus_eq (by omega)]
  split_ifs with htouch
  · refine hr.freed_join hc hb hj hcycle hj.mem ?_ ?_ rfl htouch
    · dsimp only [setPtr, setSize]
      rw [hptr, update_self]
    · dsimp only [setPtr, setSize]
      rw [hj.size, Nat.mod_eq_of_lt hsum]
  · exact hr.freed_insert hc hb hj hcycle hj.mem (by rw [← hptr]; rfl) hj.size rfl htouch

end Xv6.Malloc
