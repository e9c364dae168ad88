import Mathlib
import Xv6.Malloc.Free

/-!
# `malloc` and `free`

The free blocks and the blocks of the program are all the memory from `sbrk`. `malloc` goes around the list
once, and a second time when it has asked for memory.
-/

open Lib Function

namespace Xv6.Malloc

open Heap

variable {base : Nat} {h h' : Heap} {l l' : List Nat} {nu q x b : Nat}

structure Taken (base : Nat) (h h' : Heap) (l l' : List Nat) (b nu : Nat) : Prop where
  list : FreeList base h' l'
  size : h'.size b = nu
  above : base + 8 ≤ b
  room : b + 8 * nu < 2 ^ 32
  covers : ∀ y, Covers h'.size l' y ∨ (b ≤ y ∧ y < b + 8 * nu) ↔ Covers h.size l y
  apart : ∀ a ∈ l', a + 8 * h'.size a ≤ b ∨ b + 8 * nu ≤ a
  old : ∀ x, x ∉ base :: l → x ≠ b → h'.size x = h.size x
  mem : h'.mem = h.mem

theorem FreeList.take_whole (hr : FreeList base h l) (hq : q ∈ base :: l) (hx : h.ptr q = x) (hxl : x ∈ l) :
    ∃ l', Taken base h { h.setPtr q (h.ptr x) with freep := q } l l' x (h.size x) := by
  obtain ⟨s, B, hsB⟩ := List.append_of_mem hxl
  -- The block before `x` on the list is `q`, since only one link leads to `x`.
  obtain ⟨A, q', hA⟩ : ∃ A q', base :: s = A ++ [q'] := by
    rcases List.eq_nil_or_concat' (base :: s) with he | he
    · exact absurd he (List.cons_ne_nil base s)
    · exact he
  have hc : base :: l = A ++ q' :: x :: B := by
    rw [hsB, ← List.cons_append, hA, List.append_assoc]
    rfl
  have hcycle := hr.cycle
  have hgaps := hr.gaps
  have hnd := hr.nodup
  rw [hc] at hcycle hgaps hnd hq
  obtain rfl : q = q' := hcycle.inj hnd hq (by simp) (hx.trans hcycle.next_eq.symm)
  obtain ⟨hgA, hgq, hAq⟩ := List.pairwise_append.mp hgaps
  obtain ⟨hqB, hgx⟩ := List.pairwise_cons.mp hgq
  obtain ⟨hxB, hgB⟩ := List.pairwise_cons.mp hgx
  obtain ⟨l', hl'⟩ := cons_of_split hc B
  have hlist : FreeList base { h.setPtr q (h.ptr x) with freep := q } l' := by
    refine hr.tail hc hl' (hcycle.remove hnd) (fun _ _ => rfl) ?_ (fun he => ?_) (fun y hy hne => ?_) (by simp)
    · exact List.pairwise_cons.mpr ⟨fun b hb => hqB b (List.mem_cons_of_mem x hb), hgB⟩
    · exact (congrArg h.size he).trans hr.zero
    · have hm : y ∈ base :: l := by
        rw [hc]
        simp only [List.mem_append, List.mem_cons] at hy ⊢
        exact .inr (hy.imp id .inr)
      have hyl := (List.mem_cons.mp hm).resolve_left hne
      exact ⟨hr.pos y hyl, hr.room y hyl, hr.above y hyl⟩
  refine ⟨l', hlist, rfl, hr.above x hxl, hr.room x hxl, fun y => ?_, fun a ha => ?_, fun _ _ _ => rfl, rfl⟩
  · rw [hlist.covers_split hl', hr.covers_split hc, covers_cons, covers_cons, covers_cons, or_assoc, or_assoc]
    exact or_congr_right (or_congr_right or_comm)
  · have hm : a ∈ A ++ q :: B := hl' ▸ List.mem_cons_of_mem base ha
    rcases List.mem_append.mp hm with hm | hm
    · exact .inl (Nat.le_of_lt (hAq a hm x (by simp)))
    rcases List.mem_cons.mp hm with rfl | hm
    · exact .inl (Nat.le_of_lt (hqB x List.mem_cons_self))
    · exact .inr (Nat.le_of_lt (hxB a hm))

theorem FreeList.take_end (hr : FreeList base h l) (hq : q ∈ base :: l) (hxl : x ∈ l) (hnu : 1 ≤ nu)
    (hlt : nu < h.size x) :
    Taken base h { (h.setSize x (h.size x - nu)).setSize (x + 8 * (h.size x - nu)) nu with freep := q } l l
      (x + 8 * (h.size x - nu)) nu := by
  obtain ⟨A, B, hc⟩ := List.append_of_mem (List.mem_cons_of_mem base hxl)
  have hgaps := hr.gaps
  rw [hc] at hgaps
  obtain ⟨hgA, hgx, hAx⟩ := List.pairwise_append.mp hgaps
  obtain ⟨hxB, hgB⟩ := List.pairwise_cons.mp hgx
  have hroom := hr.room x hxl
  have habove := hr.above x hxl
  generalize hb : x + 8 * (h.size x - nu) = b
  generalize hh : ({ (h.setSize x (h.size x - nu)).setSize b nu with freep := q } : Heap) = h'
  have hsize : h'.size = update (update h.size x (h.size x - nu)) b nu := by rw [← hh]; rfl
  have hptr : h'.ptr = h.ptr := by rw [← hh]; rfl
  have hold : ∀ y, y ≠ x → y ≠ b → h'.size y = h.size y := by
    intro y hyx hyb
    rw [hsize, update_of_ne hyb, update_of_ne hyx]
  have hsx : h'.size x = h.size x - nu := by rw [hsize, update_of_ne (by omega), update_self]
  have hA : ∀ y ∈ A, h'.size y = h.size y := by
    intro y hy
    have := hAx y hy x List.mem_cons_self
    exact hold y (by omega) (by omega)
  have hB : ∀ y ∈ B, h'.size y = h.size y := by
    intro y hy
    have := hxB y hy
    exact hold y (by omega) (by omega)
  have hlist : FreeList base h' l := by
    refine hr.tail hc hc ?_ hA ?_ (fun he => ?_) (fun y hy hne => ?_) ?_
    · rw [hptr, ← hc]
      exact hr.cycle
    · refine List.pairwise_cons.mpr ⟨fun y hy => ?_, hgB.imp_of_mem fun hy _ hyz => by rwa [hB _ hy]⟩
      have := hxB y hy
      omega
    · omega
    · rcases List.mem_cons.mp hy with rfl | hy
      · exact ⟨by omega, by omega, habove⟩
      · have hm : y ∈ base :: l := by
          rw [hc]
          simp [hy]
        have hyl := (List.mem_cons.mp hm).resolve_left hne
        rw [hB y hy]
        exact ⟨hr.pos y hyl, hr.room y hyl, hr.above y hyl⟩
    · rw [← hh, ← hc]
      exact hq
  refine ⟨hlist, by rw [hsize, update_self], by omega, by omega, fun y => ?_, fun a ha => ?_, fun y hy hyb => ?_,
    by rw [← hh]; rfl⟩
  · rw [hlist.covers_split hc, hr.covers_split hc, covers_congr hA, covers_cons, covers_cons, covers_congr hB, hsx]
    constructor
    · rintro ((hy | hy | hy) | hy)
      · exact .inl hy
      · exact .inr (.inl (by omega))
      · exact .inr (.inr hy)
      · exact .inr (.inl (by omega))
    · rintro (hy | hy | hy)
      · exact .inl (.inl hy)
      · by_cases hyb : y < b
        · exact .inl (.inr (.inl (by omega)))
        · exact .inr (by omega)
      · exact .inl (.inr (.inr hy))
  · have hm : a ∈ A ++ x :: B := hc ▸ List.mem_cons_of_mem base ha
    rcases List.mem_append.mp hm with hm | hm
    · have := hAx a hm x List.mem_cons_self
      rw [hA a hm]
      omega
    rcases List.mem_cons.mp hm with rfl | hm
    · omega
    · have := hxB a hm
      omega
  · refine hold y ?_ hyb
    rintro rfl
    exact hy (List.mem_cons_of_mem base hxl)

theorem FreeList.take (hr : FreeList base h l) (hq : q ∈ base :: l) (hx : h.ptr q = x) (hnu : 1 ≤ nu)
    (hfit : nu ≤ h.size x) :
    ∃ h' l' b, h.take nu q x = (h', b + 8) ∧ Taken base h h' l l' b nu := by
  have hxl : x ∈ l := by
    have hm : x ∈ base :: l := hx ▸ hr.cycle.next_mem hq
    refine (List.mem_cons.mp hm).resolve_left ?_
    rintro rfl
    rw [hr.zero] at hfit
    omega
  have hroom := hr.room x hxl
  unfold Heap.take
  split_ifs with he
  · obtain ⟨l', ht⟩ := hr.take_whole hq hx hxl
    refine ⟨_, l', x, ?_, he ▸ ht⟩
    rw [plus_eq (by omega)]
  · have ht := hr.take_end hq hxl hnu (Nat.lt_of_le_of_ne hfit (Ne.symm he))
    have hmod : (h.size x + 2 ^ 32 - nu) % 2 ^ 32 = h.size x - nu := by omega
    refine ⟨_, l, _, ?_, ht⟩
    dsimp only [setSize]
    rw [hmod, update_self, plus_eq (by omega), plus_eq (by omega)]

section Search

variable {σ : Type} {f : Nat → σ → Option (Option Nat × σ)} {n prevp p : Nat} {t t' : σ}

theorem search_fit (hfit : nu ≤ h.size p) :
    h.search f (n + 1) t nu prevp p = some ((h.take nu prevp p).1, t, (h.take nu prevp p).2) := by
  unfold Heap.search
  exact if_pos hfit

theorem search_next (hfit : ¬ nu ≤ h.size p) (hp : p ≠ h.freep) :
    h.search f (n + 1) t nu prevp p = h.search f n t nu p (h.ptr p) := by
  conv_lhs => unfold Heap.search
  exact (if_neg hfit).trans (if_neg hp)

theorem search_refused (hfit : ¬ nu ≤ h.size p) (hp : p = h.freep) (hask : f nu t = some (none, t')) :
    h.search f (n + 1) t nu prevp p = some (h, t', 0) := by
  rw [search, if_neg hfit, if_pos hp, hask]

theorem search_grown {a : Nat} (hfit : ¬ nu ≤ h.size p) (hp : p = h.freep) (hask : f nu t = some (some a, t')) :
    h.search f (n + 1) t nu prevp p =
      (h.morecore n nu a).bind fun h => h.search f n t' nu h.freep (h.ptr h.freep) := by
  rw [search, if_neg hfit, if_pos hp, hask]

/-- The loop of `malloc` from one block on, over `W` and then `freep`: it takes a block, or it has seen that none is
large enough. -/
theorem search_path (nu : Nat) (W : List Nat) (prevp : Nat) (hpath : (prevp :: W).map h.ptr = W ++ [h.freep])
    (hW : h.freep ∉ W) : (∃ q ∈ prevp :: W, nu ≤ h.size (h.ptr q) ∧
      ∀ n t, h.search f (n + W.length + 1) t nu prevp (h.ptr prevp) =
        some ((h.take nu q (h.ptr q)).1, t, (h.take nu q (h.ptr q)).2)) ∨
    (∀ x ∈ W ++ [h.freep], h.size x < nu) ∧
      ∀ n t t', (f nu t = some (none, t') →
        h.search f (n + W.length + 1) t nu prevp (h.ptr prevp) = some (h, t', 0)) ∧
      ∀ a, f nu t = some (some a, t') → h.search f (n + W.length + 1) t nu prevp (h.ptr prevp) =
        (h.morecore n nu a).bind fun h => h.search f n t' nu h.freep (h.ptr h.freep) := by
  induction W generalizing prevp with
  | nil =>
    have hp : h.ptr prevp = h.freep := by simpa using hpath
    by_cases hfit : nu ≤ h.size (h.ptr prevp)
    · exact .inl ⟨prevp, List.mem_cons_self, hfit, fun n t => search_fit hfit⟩
    · refine .inr ⟨fun x hx => ?_, fun n t t' => ⟨search_refused hfit hp, fun a => search_grown hfit hp⟩⟩
      rw [List.nil_append, List.mem_singleton] at hx
      rw [hx, ← hp]
      omega
  | cons w W ih =>
    simp only [List.map_cons, List.cons_append, List.cons.injEq] at hpath
    obtain ⟨hp, hrest⟩ := hpath
    have hne : w ≠ h.freep := fun he => hW (he ▸ List.mem_cons_self)
    have hfresh : h.freep ∉ W := fun hm => hW (List.mem_cons_of_mem w hm)
    rw [hp]
    by_cases hfit : nu ≤ h.size w
    · refine .inl ⟨prevp, List.mem_cons_self, by rwa [hp], fun n t => ?_⟩
      rw [hp]
      exact search_fit hfit
    have hstep : ∀ n t, h.search f (n + (W.length + 1) + 1) t nu prevp w =
        h.search f (n + W.length + 1) t nu w (h.ptr w) := fun n t => search_next hfit hne
    simp only [List.length_cons, hstep]
    rcases ih w hrest hfresh with ⟨q, hq, hqfit, htake⟩ | ⟨hnone, hask⟩
    · exact .inl ⟨q, List.mem_cons_of_mem prevp hq, hqfit, htake⟩
    · exact .inr ⟨List.forall_mem_cons.mpr ⟨by omega, hnone⟩, hask⟩

theorem FreeList.search (hr : FreeList base h l) (hnu : 1 ≤ nu) :
    (∃ h' l' b, (∀ n t, h.search f (n + l.length + 1) t nu h.freep (h.ptr h.freep) = some (h', t, b + 8)) ∧
      Taken base h h' l l' b nu) ∨
    (∀ x ∈ l, h.size x < nu) ∧
      ∀ n t t', (f nu t = some (none, t') →
        h.search f (n + l.length + 1) t nu h.freep (h.ptr h.freep) = some (h, t', 0)) ∧
      ∀ a, f nu t = some (some a, t') → h.search f (n + l.length + 1) t nu h.freep (h.ptr h.freep) =
        (h.morecore n nu a).bind fun h => h.search f n t' nu h.freep (h.ptr h.freep) := by
  obtain ⟨W, hcycle, hperm⟩ := hr.cycle.start hr.freep
  have hlen : W.length = l.length := by
    have := hperm.length_eq
    simp only [List.length_cons] at this
    omega
  have hW : h.freep ∉ W := (List.nodup_cons.mp (hperm.nodup_iff.mpr hr.nodup)).1
  have hpath := search_path (f := f) nu W h.freep (cycle_cons.mp hcycle) hW
  rw [hlen] at hpath
  rcases hpath with ⟨q, hq, hfit, htake⟩ | ⟨hnone, hask⟩
  · obtain ⟨h', l', b, he, ht⟩ := hr.take (hperm.mem_iff.mp hq) rfl hnu hfit
    refine .inl ⟨h', l', b, fun n t => ?_, ht⟩
    rw [htake n t, he]
  · refine .inr ⟨fun x hx => hnone x ?_, hask⟩
    have hm : x ∈ h.freep :: W := hperm.mem_iff.mpr (List.mem_cons_of_mem base hx)
    rw [List.mem_append, List.mem_singleton]
    exact (List.mem_cons.mp hm).symm

theorem freeHeader_mono {n m bp : Nat} (hnm : n ≤ m) (hf : h.freeHeader n bp = some h') :
    h.freeHeader m bp = some h' := by
  unfold Heap.freeHeader at hf ⊢
  obtain ⟨p, hp, he⟩ := Option.map_eq_some_iff.mp hf
  rw [follow_mono hnm hp, Option.map_some, he]

theorem search_mono {m : Nat} {r : Heap × σ × Nat} (hnm : n ≤ m) (hf : h.search f n t nu prevp p = some r) :
    h.search f m t nu prevp p = some r := by
  induction n generalizing h m prevp p t with
  | zero => cases hf
  | succ n ih =>
    obtain ⟨m, rfl⟩ : ∃ k, m = k + 1 := ⟨m - 1, by omega⟩
    have hnm' : n ≤ m := by omega
    unfold Heap.search at hf ⊢
    split_ifs at hf ⊢ with hfit hend
    · exact hf
    · rcases hask : f nu t with _ | ⟨_ | a, t'⟩
      · rw [hask] at hf
        cases hf
      · rwa [hask] at hf
      · rw [hask] at hf
        obtain ⟨h₁, hcore, hrest⟩ := Option.bind_eq_some_iff.mp hf
        have hcore' : h.morecore m nu a = some h₁ := freeHeader_mono hnm' hcore
        dsimp only
        rw [hcore', Option.bind_some]
        exact ih hnm' hrest
    · exact ih hnm' hf

/-- What every answer of `sbrk` keeps holds after `malloc`. -/
theorem search_inv (P : σ → Prop) (hask : ∀ t r t', P t → f nu t = some (r, t') → P t') {q : Nat} (ht : P t)
    (hf : h.search f n t nu prevp p = some (h', t', q)) : P t' := by
  induction n generalizing h prevp p t with
  | zero => cases hf
  | succ n ih =>
    unfold Heap.search at hf
    split_ifs at hf with hfit hend
    · cases hf
      exact ht
    · rcases he : f nu t with _ | ⟨_ | a, t₁⟩
      · rw [he] at hf
        cases hf
      · rw [he] at hf
        cases hf
        exact hask _ _ _ ht he
      · rw [he] at hf
        obtain ⟨h₁, -, hrest⟩ := Option.bind_eq_some_iff.mp hf
        exact ih (hask _ _ _ ht he) hrest
    · exact ih ht hf

end Search

def Block.Has (b : Block) (y : Nat) : Prop := b.addr ≤ y ∧ y < b.addr + 8 * b.units

def Region.Has (r : Region) (y : Nat) : Prop := r.addr ≤ y ∧ y < r.addr + r.bytes

structure Partition (base : Nat) (h : Heap) (l : List Nat) (live : List Block) : Prop where
  list : FreeList base h l
  size : ∀ b ∈ live, h.size b.addr = b.units
  pos : ∀ b ∈ live, 1 ≤ b.units
  above : ∀ b ∈ live, base + 8 ≤ b.addr
  room : ∀ b ∈ live, b.addr + 8 * b.units < 2 ^ 32
  disjoint : live.Pairwise fun b c => b.addr + 8 * b.units ≤ c.addr ∨ c.addr + 8 * c.units ≤ b.addr
  apart : ∀ b ∈ live, ∀ a ∈ l, a + 8 * h.size a ≤ b.addr ∨ b.addr + 8 * b.units ≤ a
  covers : ∀ y, Covers h.size l y ∨ (∃ b ∈ live, b.Has y) ↔ ∃ r ∈ h.mem, r.Has y

variable {live : List Block}

variable (hp : Partition base h l live)

section

include hp

theorem Partition.take (hnu : 1 ≤ nu) (ht : Taken base h h' l l' b nu) :
    Partition base h' l' (⟨b, nu⟩ :: live) := by
  -- The new block was free.
  have hapart : ∀ c ∈ live, c.addr + 8 * c.units ≤ b ∨ b + 8 * nu ≤ c.addr := by
    intro c hc
    by_contra hcon
    have hpos := hp.pos c hc
    obtain ⟨y, hyb, hyc⟩ : ∃ y, (b ≤ y ∧ y < b + 8 * nu) ∧ c.Has y :=
      ⟨max b c.addr, by omega, by unfold Block.Has; omega⟩
    obtain ⟨a, ha, hya⟩ := (ht.covers y).mp (.inr hyb)
    have := hp.apart c hc a ha
    unfold Block.Has at hyc
    omega
  have hsize : ∀ c ∈ live, h'.size c.addr = c.units := by
    intro c hc
    have hpos := hp.pos c hc
    have habove := hp.above c hc
    rw [ht.old c.addr, hp.size c hc]
    · intro hm
      rcases List.mem_cons.mp hm with he | hm
      · omega
      · have := hp.apart c hc _ hm
        have := hp.list.pos _ hm
        omega
    · have := hapart c hc
      omega
  have hsub : ∀ a ∈ l', ∀ y, a ≤ y → y < a + 8 * h'.size a → Covers h.size l y :=
    fun a ha y hy hy' => (ht.covers y).mp (.inl ⟨a, ha, hy, hy'⟩)
  refine ⟨ht.list, ?_, ?_, ?_, ?_, List.pairwise_cons.mpr ⟨fun c hc => (hapart c hc).symm, hp.disjoint⟩, ?_,
    fun y => ?_⟩
  · exact List.forall_mem_cons.mpr ⟨ht.size, hsize⟩
  · exact List.forall_mem_cons.mpr ⟨hnu, hp.pos⟩
  · exact List.forall_mem_cons.mpr ⟨ht.above, hp.above⟩
  · exact List.forall_mem_cons.mpr ⟨ht.room, hp.room⟩
  · refine List.forall_mem_cons.mpr ⟨ht.apart, fun c hc a ha => ?_⟩
    by_contra hcon
    have hpos := hp.pos c hc
    have hposa := ht.list.pos a ha
    obtain ⟨a', ha', hy⟩ := hsub a ha (max a c.addr) (by omega) (by omega)
    have := hp.apart c hc a' ha'
    omega
  · rw [ht.mem, ← hp.covers y, ← ht.covers y, or_assoc]
    refine or_congr_right ?_
    simp only [List.mem_cons, exists_eq_or_imp]
    exact Iff.rfl

theorem Partition.freed {c : Block} (hc : c ∈ live)
    (hf : Freed base h h' l l' c.addr c.units) : Partition base h' l' (live.erase c) := by
  obtain ⟨s, t, rfl⟩ := List.append_of_mem hc
  have hdisj := hp.disjoint
  obtain ⟨hds, hdt, hst⟩ := List.pairwise_append.mp hdisj
  obtain ⟨hct, hdt⟩ := List.pairwise_cons.mp hdt
  have hpos := hp.pos c hc
  have hapart : ∀ d ∈ s ++ t, c.addr + 8 * c.units ≤ d.addr ∨ d.addr + 8 * d.units ≤ c.addr := by
    intro d hd
    rcases List.mem_append.mp hd with hd | hd
    · exact (hst d hd c List.mem_cons_self).symm
    · exact hct d hd
  have herase : (s ++ c :: t).erase c = s ++ t := by
    refine List.erase_append_right _ (fun hm => ?_) |>.trans (by rw [List.erase_cons_head])
    have := hst c hm c List.mem_cons_self
    omega
  have hmem : ∀ d ∈ s ++ t, d ∈ s ++ c :: t := by
    intro d hd
    simp only [List.mem_append, List.mem_cons] at hd ⊢
    exact hd.imp id .inr
  rw [herase]
  refine ⟨hf.list, fun d hd => ?_, fun d hd => hp.pos d (hmem d hd), fun d hd => hp.above d (hmem d hd),
    fun d hd => hp.room d (hmem d hd), ?_, fun d hd a ha => ?_, fun y => ?_⟩
  · have hdpos := hp.pos d (hmem d hd)
    have hdabove := hp.above d (hmem d hd)
    rw [hf.size d.addr, hp.size d (hmem d hd)]
    · intro hm
      rcases List.mem_cons.mp hm with he | hm
      · omega
      · have := hp.apart d (hmem d hd) _ hm
        have := hp.list.pos _ hm
        omega
    · have := hapart d hd
      omega
  · exact List.pairwise_append.mpr ⟨hds, hdt, fun a ha b hb => hst a ha b (List.mem_cons_of_mem c hb)⟩
  · by_contra hcon
    have hdpos := hp.pos d (hmem d hd)
    have hapos := hf.list.pos a ha
    rcases (hf.covers (max a d.addr)).mp ⟨a, ha, by omega, by omega⟩ with ⟨a', ha', hy⟩ | hy
    · have := hp.apart d (hmem d hd) a' ha'
      omega
    · have := hapart d hd
      omega
  · rw [hf.mem, ← hp.covers y, hf.covers y]
    simp only [List.mem_append, List.mem_cons, or_and_right, exists_or, exists_eq_left]
    show (_ ∨ c.Has y) ∨ _ ↔ _
    rw [or_assoc]
    exact or_congr_right or_left_comm

/-- **`free` of a live block.** -/
theorem Partition.free {c : Block} (hc : c ∈ live) :
    ∃ h' l', (∀ n, l.length + 1 ≤ n → h.free n (plus c.addr 1) = some h') ∧ Partition base h' l' (live.erase c) ∧
      Freed base h h' l l' c.addr c.units := by
  have hpos := hp.pos c hc
  have hroom := hp.room c hc
  obtain ⟨h', l', hfree, hf⟩ := hp.list.freeHeader (hp.size c hc) hpos (hp.above c hc) hroom fun a ha =>
    hp.apart c hc a ha
  refine ⟨h', l', fun n hn => ?_, hp.freed hc hf, hf⟩
  have hheader : (c.addr + 8 * 1 + 2 ^ 32 - 8) % 2 ^ 32 = c.addr := by omega
  rw [Heap.free, plus_eq (by omega), hheader]
  exact hfree n hn

theorem Partition.grow {cu a : Nat} (hcu : 1 ≤ cu) (ha : Fresh base h (8 * cu) (some a)) :
    Partition base ({ h with mem := ⟨a, 8 * cu⟩ :: h.mem }.setSize a cu) l (⟨a, cu⟩ :: live) := by
  obtain ⟨-, habove, hmem, hroom⟩ := ha
  have hbelow : ∀ y, Covers h.size l y ∨ (∃ b ∈ live, b.Has y) → y < a := by
    intro y hy
    obtain ⟨r, hr, hry⟩ := (hp.covers y).mp hy
    have := hmem r hr
    unfold Region.Has at hry
    omega
  have hfree : ∀ x ∈ l, x + 8 * h.size x ≤ a := by
    intro x hx
    have hpos := hp.list.pos x hx
    have := hbelow (x + 8 * h.size x - 1) (.inl ⟨x, hx, by omega, by omega⟩)
    omega
  have hlive : ∀ b ∈ live, b.addr + 8 * b.units ≤ a := by
    intro b hb
    have hpos := hp.pos b hb
    have := hbelow (b.addr + 8 * b.units - 1) (.inr ⟨b, hb, by unfold Block.Has; omega⟩)
    omega
  generalize hh : ({ h with mem := ⟨a, 8 * cu⟩ :: h.mem }.setSize a cu) = h'
  have hold : ∀ x, x ≠ a → h'.size x = h.size x := by
    intro x hx
    rw [← hh]
    exact update_of_ne hx ..
  have hsizel : ∀ x ∈ l, h'.size x = h.size x := by
    intro x hx
    have := hfree x hx
    have := hp.list.pos x hx
    exact hold x (by omega)
  have hlist : FreeList base h' l := by
    have hptr : h'.ptr = h.ptr := by rw [← hh]; rfl
    have hzero : h'.size base = h.size base := hold base (by omega)
    refine ⟨hptr ▸ hp.list.cycle, hp.list.gaps.imp_of_mem fun hx _ hxy => ?_, hzero.trans hp.list.zero, fun x hx => ?_,
      fun x hx => ?_, hp.list.above, by rw [← hh]; exact hp.list.freep⟩
    · rcases List.mem_cons.mp hx with rfl | hx
      · rwa [hzero]
      · rwa [hsizel _ hx]
    · rw [hsizel x hx]
      exact hp.list.pos x hx
    · rw [hsizel x hx]
      exact hp.list.room x hx
  refine ⟨hlist, ?_, ?_, ?_, ?_, List.pairwise_cons.mpr ⟨fun b hb => .inr (hlive b hb), hp.disjoint⟩, ?_, fun y => ?_⟩
  · refine List.forall_mem_cons.mpr ⟨by rw [← hh]; exact update_self .., fun b hb => ?_⟩
    have := hlive b hb
    have := hp.pos b hb
    rw [hold b.addr (by omega), hp.size b hb]
  · exact List.forall_mem_cons.mpr ⟨hcu, hp.pos⟩
  · exact List.forall_mem_cons.mpr ⟨habove, hp.above⟩
  · exact List.forall_mem_cons.mpr ⟨hroom, hp.room⟩
  · refine List.forall_mem_cons.mpr ⟨fun x hx => ?_, fun b hb x hx => ?_⟩
    · rw [hsizel x hx]
      exact .inl (hfree x hx)
    · rw [hsizel x hx]
      exact hp.apart b hb x hx
  · have hcovers := hp.covers y
    rw [covers_congr hsizel, show h'.mem = ⟨a, 8 * cu⟩ :: h.mem by rw [← hh]; rfl]
    simp only [List.mem_cons, exists_eq_or_imp]
    rw [or_left_comm, hcovers]
    exact Iff.rfl

theorem Partition.write {c : Block} {x ptr size : Nat} (hc : c ∈ live) (hx : c.payload x) :
    Partition base ((h.setPtr x ptr).setSize x size) l live := by
  obtain ⟨hlo, hhi⟩ := hx
  have habove := hp.above c hc
  have hl : ∀ a ∈ l, a ≠ x := by
    intro a ha
    have := hp.apart c hc a ha
    have := hp.list.pos a ha
    omega
  have hlive : ∀ b ∈ live, b.addr ≠ x := by
    intro b hb he
    rcases eq_or_ne b c with rfl | hne
    · omega
    · have hsymm : Std.Symm fun b c : Block => b.addr + 8 * b.units ≤ c.addr ∨ c.addr + 8 * c.units ≤ b.addr :=
        ⟨fun _ _ => Or.symm⟩
      have := hp.disjoint.forall hb hc hne
      omega
  have hbase : base ≠ x := by omega
  have hmem : ∀ a ∈ base :: l, a ≠ x := List.forall_mem_cons.mpr ⟨hbase, hl⟩
  generalize hh : (h.setPtr x ptr).setSize x size = h'
  have hptr : ∀ a, a ≠ x → h'.ptr a = h.ptr a := fun a ha => by rw [← hh]; exact update_of_ne ha ..
  have hsize : ∀ a, a ≠ x → h'.size a = h.size a := fun a ha => by rw [← hh]; exact update_of_ne ha ..
  have hlist : FreeList base h' l := by
    refine ⟨hp.list.cycle.congr fun a ha => hptr a (hmem a ha), hp.list.gaps.imp_of_mem fun ha _ hab => ?_,
      (hsize base hbase).trans hp.list.zero, fun a ha => ?_, fun a ha => ?_, hp.list.above, by
        rw [← hh]; exact hp.list.freep⟩
    · rwa [hsize _ (hmem _ ha)]
    · rw [hsize a (hl a ha)]
      exact hp.list.pos a ha
    · rw [hsize a (hl a ha)]
      exact hp.list.room a ha
  refine ⟨hlist, fun b hb => ?_, hp.pos, hp.above, hp.room, hp.disjoint, fun b hb a ha => ?_, fun y => ?_⟩
  · rw [hsize _ (hlive b hb)]
    exact hp.size b hb
  · rw [hsize a (hl a ha)]
    exact hp.apart b hb a ha
  · rw [covers_congr fun a ha => hsize a (hl a ha), hp.covers y, ← hh]
    exact Iff.rfl

end

theorem le_nunits {nbytes : Nat} (hn : nbytes ≤ 2 ^ 31 - 16) :
    nbytes + 8 ≤ 8 * nunits nbytes ∧ nunits nbytes < 2 ^ 28 := by
  unfold nunits
  omega

theorem coreBytes_eq (hnu : nu < 2 ^ 28) : coreBytes nu = 8 * coreUnits nu ∧ nu ≤ coreUnits nu := by
  unfold coreBytes coreUnits
  split_ifs <;> omega

/-- What `malloc` returns: 0, when `sbrk` does, or a new block. -/
def Returned (base nu : Nat) (live : List Block) (sbrk : Option Nat) (r : Heap × Nat) : Prop :=
  r.2 = 0 ∧ sbrk = none ∧ (∃ l, Partition base r.1 l live) ∨ ∃ b l, r.2 = b + 8 ∧ Partition base r.1 l (⟨b, nu⟩ :: live)

/-- `malloc` asks `sbrk` at most once. -/
theorem Partition.search {σ : Type} {f : Nat → σ → Option (Option Nat × σ)} {t t' : σ} {r : Option Nat}
    (hp : Partition base h l live) (hnu : 1 ≤ nu) (hle : nu < 2 ^ 28) (hask : f nu t = some (r, t'))
    (hfresh : Fresh base h (coreBytes nu) r) :
    ∃ h' t₁ q, (∀ n, h.search f (n + 2 * l.length + 3) t nu h.freep (h.ptr h.freep) = some (h', t₁, q)) ∧
      Returned base nu live r (h', q) ∧
      (t₁ = t ∧ h'.mem = h.mem ∨ t₁ = t' ∧ h'.mem = r.toList.map (⟨·, coreBytes nu⟩) ++ h.mem) := by
  have hfuel : ∀ n, n + 2 * l.length + 3 = n + l.length + 2 + l.length + 1 := fun n => by omega
  rcases hp.list.search hnu with ⟨h', l', b, hsome, ht⟩ | ⟨-, hend⟩
  · refine ⟨h', t, b + 8, fun n => ?_, .inr ⟨b, l', rfl, hp.take hnu ht⟩, .inl ⟨rfl, ht.mem⟩⟩
    rw [hfuel, hsome]
  rcases r with _ | a
  · refine ⟨h, t', 0, fun n => ?_, .inl ⟨rfl, rfl, l, hp⟩, .inr ⟨rfl, rfl⟩⟩
    rw [hfuel, (hend _ t t').1 hask]
  obtain ⟨hbytes, hunits⟩ := coreBytes_eq hle
  rw [hbytes] at hfresh
  have hgrow := hp.grow (by omega) hfresh
  obtain ⟨h', l', hfree, hp', hf⟩ := hgrow.free List.mem_cons_self
  rw [List.erase_cons_head] at hp'
  -- The new block is large enough, so the second turn takes one.
  rcases hp'.list.search hnu with ⟨h'', l'', b, hsome, ht⟩ | ⟨hnone, -⟩
  · refine ⟨h'', t', b + 8, fun n => ?_, .inr ⟨b, l'', rfl, hp'.take hnu ht⟩, .inr ⟨rfl, ?_⟩⟩
    · have hlen := hf.length
      have hmore : h.morecore (n + l.length + 2) nu a = some h' := by
        rw [morecore, hbytes]
        exact hfree _ (by omega)
      rw [hfuel, (hend _ t t').2 a hask, hmore, Option.bind_some]
      obtain ⟨m, hm⟩ : ∃ m, n + l.length + 2 = m + l'.length + 1 := ⟨n + l.length + 1 - l'.length, by omega⟩
      rw [hm, hsome]
    · rw [ht.mem, hf.mem, hbytes]
      rfl
  · obtain ⟨x, hx, hfit⟩ := hf.fits
    have := hnone x hx
    simp only at hfit
    omega

/-- Before the first `malloc` there is no list. -/
def Sound (base : Nat) (s : State) : Prop :=
  (s.heap.freep = 0 ∧ s.heap.mem = [] ∧ s.live = []) ∨ ∃ l, Partition base s.heap l s.live

variable {s s' : State}

theorem Partition.freep (hbase : 0 < base) (hp : Partition base h l live) : h.freep ≠ 0 := by
  intro he
  have hm := hp.list.freep
  rw [he] at hm
  rcases List.mem_cons.mp hm with rfl | hm
  · omega
  · have := hp.list.above 0 hm
    omega

theorem Sound.start (hbase : 0 < base) (hs : Sound base s) :
    (∃ l, Partition base (s.heap.start base) l s.live) ∧ (s.heap.start base).mem = s.heap.mem := by
  rcases hs with ⟨hfreep, hmem, hlive⟩ | ⟨l, hp⟩
  · unfold Heap.start
    rw [if_pos hfreep]
    refine ⟨⟨[], ?_, ?_, ?_, ?_, ?_, ?_, ?_, fun y => ?_⟩, rfl⟩
    · refine ⟨?_, List.pairwise_singleton .., update_self .., ?_, ?_, ?_, List.mem_singleton_self _⟩
      · rw [cycle_cons]
        simp [setPtr, setSize]
      all_goals simp
    all_goals simp [hlive, setPtr, setSize, hmem, Covers]
  · unfold Heap.start
    rw [if_neg (hp.freep hbase)]
    exact ⟨⟨l, hp⟩, rfl⟩

theorem fresh_congr {bytes : Nat} {sbrk : Option Nat} (hm : h'.mem = h.mem) (hf : Fresh base h bytes sbrk) :
    Fresh base h' bytes sbrk := by
  rcases sbrk with _ | a
  · trivial
  · obtain ⟨h₁, h₂, h₃, h₄⟩ := hf
    exact ⟨h₁, h₂, hm ▸ h₃, h₄⟩

theorem Sound.malloc {nbytes : Nat} {sbrk : Option Nat} (hbase : 0 < base) (hs : Sound base s)
    (hn : nbytes ≤ 2 ^ 31 - 16) (hfresh : Fresh base s.heap (coreBytes (nunits nbytes)) sbrk) :
    ∃ r n₀, (∀ n, n₀ ≤ n → s.heap.malloc n base nbytes [sbrk] = some r) ∧
    Returned base (nunits nbytes) s.live sbrk r := by
  obtain ⟨⟨l, hp⟩, hmem⟩ := hs.start hbase
  obtain ⟨hle, hmax⟩ := le_nunits hn
  obtain ⟨h, t, q, hr, hret, -⟩ := hp.search (f := answer) (t := [sbrk]) (by omega) hmax rfl (fresh_congr hmem hfresh)
  refine ⟨(h, q), 2 * l.length + 3, fun n hn => ?_, hret⟩
  obtain ⟨m, rfl⟩ : ∃ m, n = m + 2 * l.length + 3 := ⟨n - 2 * l.length - 3, by omega⟩
  rw [Heap.malloc, mallocWith, hr]
  rfl

theorem malloc_mono {n m nbytes : Nat} {sbrk : List (Option Nat)} {r : Heap × Nat} (hnm : n ≤ m)
    (hf : h.malloc n base nbytes sbrk = some r) : h.malloc m base nbytes sbrk = some r := by
  obtain ⟨r, hr, rfl⟩ := Option.map_eq_some_iff.mp hf
  rw [Heap.malloc, mallocWith, search_mono hnm hr]
  rfl

theorem Sound.free (hs : Sound base s) {c : Block} (hc : c ∈ s.live) :
    ∃ h n₀, (∀ n, n₀ ≤ n → s.heap.free n (plus c.addr 1) = some h) ∧ Sound base ⟨h, s.live.erase c⟩ := by
  rcases hs with ⟨-, -, hlive⟩ | ⟨l, hp⟩
  · rw [hlive] at hc
    cases hc
  · obtain ⟨h', l', hfree, hp', -⟩ := hp.free hc
    exact ⟨h', _, hfree, .inr ⟨l', hp'⟩⟩

theorem init_sound (hs : Init s) : Sound base s := .inl ⟨hs.freep, hs.mem, hs.live⟩

theorem step_sound {a : Act} (hbase : 0 < base) (hs : Sound base s) (hstep : step base s a = some s') :
    Sound base s' := by
  unfold step at hstep
  split_ifs at hstep with hallowed
  cases a with
  | malloc n nbytes sbrk =>
    obtain ⟨r, hr, rfl⟩ := Option.map_eq_some_iff.mp hstep
    obtain ⟨r', n₀, hr', hret⟩ := hs.malloc hbase (hallowed.1.trans (by decide)) hallowed.2
    -- More fuel gives the same result.
    have hmono := malloc_mono (Nat.le_max_left n n₀) hr
    rw [hr' _ (Nat.le_max_right n n₀)] at hmono
    cases hmono
    rcases hret with ⟨hzero, -, l, hp⟩ | ⟨b, l, hb, hp⟩
    · exact .inr ⟨l, by rwa [if_pos hzero]⟩
    · refine .inr ⟨l, ?_⟩
      rwa [if_neg (by omega), hb, Nat.add_sub_cancel]
  | free n c =>
    obtain ⟨h, hh, rfl⟩ := Option.map_eq_some_iff.mp hstep
    obtain ⟨h', n₀, hh', hsound⟩ := hs.free hallowed
    have hmono : s.heap.free (max n n₀) (plus c.addr 1) = some h := freeHeader_mono (Nat.le_max_left n n₀) hh
    rw [hh' _ (Nat.le_max_right n n₀)] at hmono
    cases hmono
    exact hsound
  | write x ptr size =>
    cases hstep
    obtain ⟨c, hc, hx⟩ := hallowed
    rcases hs with ⟨-, -, hlive⟩ | ⟨l, hp⟩
    · rw [hlive] at hc
      cases hc
    · exact .inr ⟨l, hp.write hc hx⟩

theorem Returned.fits {nbytes : Nat} {sbrk : Option Nat} {r : Heap × Nat} (hn : nbytes ≤ 2 ^ 31 - 16)
    (hr : Returned base (nunits nbytes) live sbrk r) :
    r.2 = 0 ∧ sbrk = none ∨ r.2 + nbytes < 2 ^ 32 ∧
      ∀ y, r.2 ≤ y → y < r.2 + nbytes → (∃ m ∈ r.1.mem, m.Has y) ∧ ∀ b ∈ live, ¬ b.Has y := by
  rcases hr with ⟨hzero, hsbrk, -⟩ | ⟨b, l, hb, hp⟩
  · exact .inl ⟨hzero, hsbrk⟩
  obtain ⟨hle, -⟩ := le_nunits hn
  have hroom := hp.room _ List.mem_cons_self
  dsimp only at hroom
  refine .inr ⟨by omega, fun y hlo hhi => ⟨(hp.covers y).mp (.inr ⟨_, List.mem_cons_self, ?_⟩), fun c hc hy => ?_⟩⟩
  · exact ⟨by dsimp only; omega, by dsimp only; omega⟩
  · have := (List.pairwise_cons.mp hp.disjoint).1 c hc
    unfold Block.Has at hy
    dsimp only at this
    omega

/-- **The heap of every program is sound.** `malloc` and `free` end, and `malloc` returns 0, when `sbrk` refuses, or
memory that no live block has. -/
theorem heap_sound (hbase : 0 < base) (hs : (system base).Reach s) :
    Sound base s ∧
    (∀ nbytes sbrk, nbytes ≤ 2 ^ 30 → Fresh base s.heap (coreBytes (nunits nbytes)) sbrk →
      ∃ h r n₀, (∀ n, n₀ ≤ n → s.heap.malloc n base nbytes [sbrk] = some (h, r)) ∧
        (r = 0 ∧ sbrk = none ∨ r + nbytes < 2 ^ 32 ∧
          ∀ y, r ≤ y → y < r + nbytes → (∃ m ∈ h.mem, m.Has y) ∧ ∀ b ∈ s.live, ¬ b.Has y)) ∧
    ∀ b ∈ s.live, ∃ h n₀, ∀ n, n₀ ≤ n → s.heap.free n (plus b.addr 1) = some h := by
  have hsound : Sound base s :=
    (system base).reach_inv (Sound base) (fun _ => init_sound) (fun s a s' hi hstep => step_sound hbase hi hstep) s hs
  refine ⟨hsound, fun nbytes sbrk hn hfresh => ?_, fun b hb => ?_⟩
  · have hn : nbytes ≤ 2 ^ 31 - 16 := hn.trans (by decide)
    obtain ⟨⟨h, r⟩, n₀, hr, hret⟩ := hsound.malloc hbase hn hfresh
    exact ⟨h, r, n₀, hr, hret.fits hn⟩
  · obtain ⟨h, n₀, hh, -⟩ := hsound.free hb
    exact ⟨h, n₀, hh⟩

def twoBlocks : List Act := [.malloc 9 100 (some 4096), .malloc 9 200 none, .free 9 ⟨36752, 14⟩]

theorem heap_sound_twoBlocks : ∃ s, (system 104).Reach s ∧ s.live = [⟨36544, 26⟩] ∧
    (∃ l, FreeList 104 s.heap l ∧ Covers s.heap.size l 36752) ∧
    ∃ h r n₀, ∀ n, n₀ ≤ n → s.heap.malloc n 104 (2 ^ 20) [none] = some (h, r) := by
  have hrun : ((system 104).run ⟨⟨fun _ => 0, fun _ => 0, 0, []⟩, []⟩ twoBlocks).map
      (fun s => (s.live, s.heap.freep, s.heap.mem)) = some ([⟨36544, 26⟩], 4096, [⟨4096, 32768⟩]) := by
    decide +kernel
  obtain ⟨s, hreach, hv⟩ := (system 104).reach_of_map ⟨rfl, rfl, rfl⟩ hrun
  simp only [Prod.mk.injEq] at hv
  obtain ⟨hlive, hfreep, hmem⟩ := hv
  obtain ⟨hsound, hmalloc, -⟩ := heap_sound (by decide) hreach
  rcases hsound with ⟨hzero, -⟩ | ⟨l, hp⟩
  · omega
  refine ⟨s, hreach, hlive, ⟨l, hp.list, ?_⟩, ?_⟩
  · have hcovers := (hp.covers 36752).mpr ⟨⟨4096, 32768⟩, by rw [hmem]; simp, by decide, by decide⟩
    refine hcovers.resolve_right ?_
    rw [hlive]
    rintro ⟨b, hb, hy⟩
    obtain rfl := List.mem_singleton.mp hb
    exact absurd hy.2 (by decide)
  · obtain ⟨h, r, n₀, hr, -⟩ := hmalloc (2 ^ 20) none (by decide) trivial
    exact ⟨h, r, n₀, hr⟩

end Xv6.Malloc
