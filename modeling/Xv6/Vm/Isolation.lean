import Mathlib
import Xv6.Vm.Grow
import Xv6.Vm.Pages

/-!
# Isolation

After boot every page has one owner, and the calls keep it so. The exception is an `exec` with an
argument that is longer than the new image: the address of the copy wraps around, and `uva2ka` takes
the word at address 0 of the process for a page table entry.
-/

open Lib Function

namespace Xv6.Vm

variable {nproc : Nat} {s s' : State nproc}

section

variable {m m' : Mem} {A A' R : Multiset Page} {d : Page}

theorem Moves.beside (h : Moves m A m' A') (ha : Apart m (A + (dirPages m.mem d + R))) :
    Moves m (A + (dirPages m.mem d + R)) m' (A' + (dirPages m'.mem d + R)) := by
  have ha' : Apart m (A + dirPages m.mem d) := ha.of_le (by rw [← add_assoc]; exact Multiset.le_add_right _ _)
  rw [(h.frame_space ha').1]
  exact h.frame _

theorem orPanic_ends {α : Type} {x : VmM (Option α)} {Q : α → Mem → Prop}
    (h : Ends x (fun r m' => ∀ a, r = some a → Q a m') m) :
    Ends (orPanic x) Q m := by
  refine h.seq fun r m' h' => ?_
  rcases r with _ | a
  · exact ends_fail _
  · exact (ends_pure a).mpr (h' a rfl)

theorem freerange_ends (l : List Page) (m : Mem) : Ends (freerange l) (fun _ m' => ∀ A, Moves m (l + A) m' A) m := by
  induction l generalizing m with
  | nil =>
    rw [freerange, ends_pure]
    intro A
    rw [Multiset.coe_nil, zero_add]
    exact .refl
  | cons x l ih =>
    refine (kfree_ends x).seq fun _ m₁ h₁ => (ih m₁).mono fun _ m' h' A => ?_
    rw [← Multiset.cons_coe, ← Multiset.singleton_add, add_assoc]
    exact (h₁.1 _).trans (h' A)

theorem kalloc_takes (m : Mem) : Ends kalloc (fun r m' => ∀ x, r = some x → Moves m 0 m' {x}) m := by
  refine (kalloc_ends 0).mono fun r m' h => ?_
  rintro x rfl
  exact h.1

theorem startothers_ends (n : Nat) (m : Mem) : Ends (startothers n) (fun r m' => Moves m 0 m' r) m := by
  induction n generalizing m with
  | zero => exact (ends_pure []).mpr .refl
  | succ n ih =>
    refine (orPanic_ends (kalloc_takes m)).seq fun x m₁ h₁ => (ih m₁).seq fun l m₂ h₂ => ?_
    rw [ends_pure, ← Multiset.cons_coe, ← Multiset.singleton_add]
    exact h₁.trans (h₂.frame_left {x})

theorem userinit_ends (hl : Linked m) (ha : Apart m 0) :
    Ends userinit (fun i m' => Moves m 0 m' ((Slot.live i).pages m'.mem) ∧ i.sz = PGSIZE ∧
      KernelOnly (tables m'.mem i.pgdir) ∧ OnePage (tables m'.mem i.pgdir)) m := by
  refine (orPanic_ends (kalloc_takes m)).seq fun kstack m₁ h₁ => ?_
  have ha₁ : Apart m₁ 0 := (h₁.apart ha).of_le (Multiset.zero_le _)
  have hspace : Ends setupkvm (fun r m' => ∀ d, r = some d → Moves m₁ 0 m' (dirPages m'.mem d) ∧
      KernelOnly (tables m'.mem d) ∧ ∀ k, k.val < 512 → tables m'.mem d k = none) m₁ := by
    refine (setupkvm_ends (hl.moves h₁) ha₁).mono fun r m' h => ?_
    rintro d rfl
    exact h
  refine (orPanic_ends hspace).seq fun d m₂ h₂ => ?_
  have ha₂ := h₂.1.apart ha₁
  have hpage : Ends kalloc (fun r m' => ∀ x, r = some x →
      Moves m₂ (dirPages m₂.mem d) m' ({x} + dirPages m₂.mem d) ∧ m'.mem = m₂.mem) m₂ := by
    refine (kalloc_ends (dirPages m₂.mem d)).mono fun r m' h => ?_
    rintro x rfl
    exact h
  refine (orPanic_ends hpage).seq fun x m₃ h₃ => ?_
  rw [ends_memset0]
  obtain ⟨hfilled, htables⟩ := taken ha₂ h₃.1 h₃.2 fun _ => .zero
  refine (mappages_user (v := 0) (hfilled.apart ha₂) (by decide) true true 0).seq fun b m₄ h₄ => ?_
  rcases b with _ | _
  · exact ends_fail _
  · obtain ⟨h₄, hput⟩ := h₄.1 rfl
    rw [if_pos rfl, ends_pure]
    refine ⟨h₁.trans (((h₂.1.trans hfilled).trans h₄).frame_left {kstack}), rfl, h₂.2.1.of_same fun k hk => ?_,
      x, fun k hk => ?_⟩
    · rw [hput, put_kernel _ (by decide) _ k hk]
      exact congrFun htables k
    · rw [hput]
      unfold put opened
      rw [update_apply, update_apply, htables, h₂.2.2 (dirIx 0) (by decide), h₂.2.2 k hk]

theorem boot_ends (hl : Linked m) (low high : List Page) (ncpu : Nat) (ha : Apart m (low + high)) :
    Ends (boot low high ncpu) (fun r m' => Moves m (low + high) m'
      ((Slot.live r.2.2).pages m'.mem + (dirPages m'.mem r.1 + r.2.1)) ∧
      r.2.2.sz = PGSIZE ∧ KernelOnly (tables m'.mem r.2.2.pgdir) ∧ OnePage (tables m'.mem r.2.2.pgdir)) m := by
  refine (freerange_ends low m).seq fun _ m₁ h₁ => ?_
  have h₁ := h₁ high
  have ha₁ := h₁.apart ha
  have hspace : Ends setupkvm (fun r m' => ∀ d, r = some d → Moves m₁ 0 m' (dirPages m'.mem d)) m₁ := by
    refine (setupkvm_ends (hl.moves h₁) (ha₁.of_le (Multiset.zero_le _))).mono fun r m' h => ?_
    rintro d rfl
    exact h.1
  refine (orPanic_ends hspace).seq fun d m₂ h₂ => ?_
  have h₂' := h₁.trans (zero_add (high : Multiset Page) ▸ h₂.frame high)
  refine (startothers_ends ncpu m₂).seq fun cpuStacks m₃ h₃ => ?_
  have h₃' := h₂'.trans (zero_add (dirPages m₂.mem d + high) ▸ h₃.beside (by rw [zero_add]; exact h₂'.apart ha))
  rw [show (cpuStacks : Multiset Page) + (dirPages m₃.mem d + high) = high +
    (dirPages m₃.mem d + cpuStacks) by ac_rfl] at h₃'
  refine (freerange_ends high m₃).seq fun _ m₄ h₄ => ?_
  have hback : Moves m₃ high m₄ 0 := by simpa only [add_zero] using h₄ 0
  have h₄' := h₃'.trans (hback.beside (h₃'.apart ha))
  rw [zero_add] at h₄'
  have ha₄ := h₄'.apart ha
  refine (userinit_ends (hl.moves h₄') (ha₄.of_le (Multiset.zero_le _))).seq fun i m₅ h₅ => ?_
  rw [ends_pure]
  refine ⟨h₄'.trans ?_, h₅.2⟩
  have := h₅.1.beside (by rw [zero_add]; exact ha₄)
  rwa [zero_add] at this

end

theorem slotsPages_unused (mem : Page → Contents) : slotsPages mem (fun _ : Fin nproc => .unused) = 0 := by
  rw [Multiset.eq_zero_iff_forall_notMem]
  intro x hx
  obtain ⟨q, hq⟩ := mem_total.mp hx
  exact Multiset.notMem_zero x hq

theorem init_inv (h : Init s) : Inv s ∧ ∀ p i, (s.slot p).image = some i → OnePage (tables s.vm.mem i.pgdir) := by
  obtain ⟨m, low, high, ncpu, p, i, hl, hfree, -, hall, hboot, hslot⟩ := h.run
  have hnodup := h.nodup
  have hpages : (s.all : Multiset Page) = low + high := by rw [hall, Multiset.coe_add]
  have ha : Apart m (low + high) := by
    unfold Apart
    rw [hfree, Multiset.coe_nil, zero_add, ← hpages]
    exact hnodup
  obtain ⟨hm, hsz, hkernel, hone⟩ := (boot_ends hl low high ncpu ha).of_ok hboot
  have himage : ∀ q i', (s.slot q).image = some i' → i' = i := by
    intro q i' hq
    rw [hslot, update_apply] at hq
    split_ifs at hq
    · exact (Option.some.inj hq).symm
    · exact absurd hq (by simp [Slot.image])
  refine ⟨⟨hl.moves hm, hnodup, ?_, fun q i' hq => ?_⟩, fun q i' hq => ?_⟩
  · have hslots : slotsPages s.vm.mem s.slot = (Slot.live i).pages s.vm.mem := by
      rw [hslot, slotsPages_set, update_eq_self_iff.mpr rfl, slotsPages_unused, add_zero]
    unfold State.places State.owned State.kernel
    rw [hslots, h.pipes, hpages]
    have := hm.pages
    rw [hfree, Multiset.coe_nil, zero_add] at this
    rw [← this]
    congr 2
    exact add_zero _
  · obtain rfl := himage q i' hq
    refine ⟨?_, hkernel⟩
    dsimp only at hsz
    rw [hsz]
    decide
  · obtain rfl := himage q i' hq
    exact hone

theorem reach_inv (h : (pages nproc).ReachIf ArgsFit s) : Inv s :=
  System.reachIf_inv _ ArgsFit Inv (fun _ h => (init_inv h).1) (fun _ _ _ => step_inv) s h

def State.maps (s : State nproc) (p : Fin nproc) (va : Nat) (x : Page) : Prop :=
  ∃ i, (s.slot p).image = some i ∧ (pte s.vm.mem i.pgdir va).bind userPage = some x

theorem Inv.maps_mem (hi : Inv s) {p : Fin nproc} {va : Nat} {x : Page} (h : s.maps p va x) :
    x ∈ (s.slot p).pages s.vm.mem := by
  obtain ⟨i, himage, hx⟩ := h
  obtain ⟨hdir, hp, hu, rfl⟩ := pte_user hx
  have hlow := (hi.images p i himage).2.low hdir hp hu
  rw [Slot.pages, himage]
  exact Multiset.mem_add.mpr (.inr (slot_mem (user_mem_slot hlow hdir hp)))

theorem mem_entry {e : Entry} (h : e.p = true) : e.page ∈ e.pages := by
  rw [Entry.pages, if_pos h]
  exact Multiset.mem_singleton_self _

theorem Inv.maps_unique (hi : Inv s) {p q : Fin nproc} {va va' : Nat} {x : Page} (h : s.maps p va x)
    (h' : s.maps q va' x) :
    p = q ∧ PDX va = PDX va' ∧ PTX va = PTX va' := by
  have hslots : (slotsPages s.vm.mem s.slot).Nodup :=
    Multiset.nodup_of_le ((Multiset.le_add_right _ _).trans (Multiset.le_add_right _ _)) hi.apart.nodup
  obtain rfl := eq_of_mem_total hslots (hi.maps_mem h) (hi.maps_mem h')
  obtain ⟨i, himage, hx⟩ := h
  obtain ⟨i', himage', hx'⟩ := h'
  obtain rfl : i = i' := Option.some.inj (himage.symm.trans himage')
  have hnodup := ((hi.apart_image himage).of_le (Multiset.le_add_left _ _)).nodup
  have hkernel := (hi.images p i himage).2
  obtain ⟨hdir, hp, hu, rfl⟩ := pte_user hx
  obtain ⟨hdir', hp', hu', heq⟩ := pte_user hx'
  have hlow := hkernel.low hdir hp hu
  have hlow' := hkernel.low hdir' hp' hu'
  have hPDX := slot_eq hnodup (user_mem_slot hlow hdir hp) (heq ▸ user_mem_slot hlow' hdir' hp')
  refine ⟨rfl, hPDX, ?_⟩
  rw [← hPDX] at hp' heq
  have htable := nodup_of_total (Multiset.nodup_add.mp hnodup).2.1 (PDX va)
  rw [slotPages, if_pos hdir, userPages, if_pos hlow] at htable
  refine eq_of_mem_total (Multiset.nodup_add.mp htable).2.1 (mem_entry hp) ?_
  rw [← heq]
  exact mem_entry hp'

theorem Inv.maps_not_free (hi : Inv s) {p : Fin nproc} {va : Nat} {x : Page} (h : s.maps p va x) : x ∉ s.vm.freelist :=
  (hi.apart_slot p).not_free (hi.maps_mem h)

theorem freemem_perm {m m' : Mem} (h : (m'.freelist : Multiset Page) = m.freelist) : freemem m' = freemem m := by
  unfold freemem
  rw [(Multiset.coe_eq_coe.mp h).length_eq]

/-- **Each page has one owner**, as long as no `exec` gets arguments that are longer than its image. -/
theorem pages_have_one_owner (h : (pages nproc).ReachIf ArgsFit s) :
    (∀ x, s.places.count x = if x ∈ s.all then 1 else 0) ∧
    (∀ p q va va' x, s.maps p va x → s.maps q va' x → p = q ∧ PDX va = PDX va' ∧ PTX va = PTX va') ∧
    (∀ p va x, s.maps p va x → x ∉ s.vm.freelist) ∧
    (∀ p fails s', fork s p fails = some (false, s') → freemem s'.vm = freemem s.vm) ∧
    (∀ p prog fails s', prog.Fits → sys_exec s p prog fails = some (false, s') → freemem s'.vm = freemem s.vm) := by
  have hi := reach_inv h
  refine ⟨fun x => ?_, fun _ _ _ _ _ => hi.maps_unique, fun _ _ _ => hi.maps_not_free, fun p fails s' hs => ?_,
    fun p prog fails s' hfit hs => ?_⟩
  · rw [hi.places, Multiset.count_eq_of_nodup (Multiset.coe_nodup.mpr hi.nodup)]
    rfl
  · exact freemem_perm ((fork_inv hi fails hs).2 rfl)
  · exact freemem_perm ((sys_exec_inv hi prog hfit fails hs).2 rfl)

/-! ## Two runs

The machine has all pages from the end of the kernel to `PHYSTOP`. The first process grows to 8200
pages, which are enough for an argument that takes the stack pointer below `DEVSPACE`. The word at
its address 0 is an entry for its own page table, and the argument starts with new entries.
-/

def lowPages : List Page := List.range' 0x116 746

/-- In pieces, for the parts of the free list that are used one after the other. -/
def highPages : List Page :=
  List.range' 0x400 47977 ++ (List.range' 49001 68 ++ (List.range' 49069 8207 ++ List.range' 57276 68))

def linked : Mem := ⟨fun _ _ => .zero, [], [], 0x80108000, 0x116⟩

def afterLow : Mem :=
  { linked with mem := fun y => if y ∈ lowPages then fun _ => .junk
    else linked.mem y, freelist := lowPages.reverse ++ [] }

def afterKvm : Mem := (setupkvm afterLow).2

def afterHigh : Mem := { afterKvm with
  mem := fun y => if y ∈ highPages then fun _ => .junk else afterKvm.mem y
  freelist := (List.range' 57276 68).reverse ++ ((List.range' 49069 8207).reverse ++
    ((List.range' 49001 68).reverse ++ ((List.range' 0x400 47977).reverse ++ afterKvm.freelist))) }

def afterInit : Mem := (userinit afterHigh).2

def booted : State 1 :=
  ⟨afterInit, update (fun _ => .unused) 0 (.live ⟨57343, 57342, PGSIZE⟩), [], 1023, [], lowPages ++ highPages⟩

set_option maxRecDepth 100000 in
theorem afterKvm_eval : (setupkvm afterLow).1 = .ok (some 1023) ∧ afterKvm.kend = 0x116 := by decide +kernel

set_option maxRecDepth 100000 in
theorem afterInit_eval : (userinit afterHigh).1 = .ok ⟨57343, 57342, PGSIZE⟩ ∧ afterInit.fails = [] ∧
    afterInit.freelist.drop 24673 ≠ [] ∧ afterInit.mem 57342 0 = ⟨57276, true, true, true, 0⟩ ∧
    afterInit.mem 57276 0 = ⟨57277, true, true, true, 0⟩ := by decide +kernel

theorem allPages_eq : lowPages ++ highPages = List.range' 0x116 57066 := by
  have h₁ : List.range' 49069 8207 ++ List.range' 57276 68 = List.range' 49069 8275 := List.range'_append_1
  have h₂ : List.range' 49001 68 ++ List.range' 49069 8275 = List.range' 49001 8343 := List.range'_append_1
  have h₃ : List.range' 0x400 47977 ++ List.range' 49001 8343 = List.range' 0x400 56320 := List.range'_append_1
  rw [lowPages, highPages, h₁, h₂, h₃]
  exact List.range'_append_1

theorem afterHigh_returns : (freerange highPages).Returns afterKvm () afterHigh := by
  have hhigh : ∀ x ∈ highPages, afterKvm.kend ≤ x ∧ x < PHYSTOP / PGSIZE := by
    intro x hx
    have hmem : x ∈ lowPages ++ highPages := List.mem_append_right _ hx
    rw [allPages_eq, List.mem_range'_1] at hmem
    rw [afterKvm_eval.2]
    exact ⟨hmem.1, hmem.2.trans_le (by decide)⟩
  have hfree := freerange_returns highPages afterKvm hhigh
  have hlist : highPages.reverse = (List.range' 57276 68).reverse ++ ((List.range' 49069 8207).reverse ++
      ((List.range' 49001 68).reverse ++ (List.range' 0x400 47977).reverse)) := by
    rw [highPages, List.reverse_append, List.reverse_append, List.reverse_append, List.append_assoc, List.append_assoc]
  rw [hlist, List.append_assoc, List.append_assoc, List.append_assoc] at hfree
  exact hfree

theorem boot_returns {m m₁ m₂ m₃ m₄ : Mem} {low high : List Page} {d : Page} {i : Image}
    (h₁ : (freerange low).Returns m () m₁)
    (h₂ : setupkvm.Returns m₁ (some d) m₂) (h₃ : (freerange high).Returns m₂ () m₃) (h₄ : userinit.Returns m₃ i m₄) :
    (boot low high 0).Returns m (d, [], i) m₄ := by
  have hkvm : (orPanic setupkvm).Returns m₁ d m₂ := h₂.seq (Cmd.returns_pure _ _)
  exact h₁.seq (hkvm.seq (.seq (Cmd.returns_pure [] _) (h₃.seq (h₄.seq (Cmd.returns_pure _ _)))))

theorem booted_init : Init booted := by
  have hlow : ∀ x ∈ lowPages, linked.kend ≤ x ∧ x < PHYSTOP / PGSIZE := by
    intro x hx
    rw [lowPages, List.mem_range'_1] at hx
    exact ⟨hx.1, hx.2.trans (by decide)⟩
  have hkvm : setupkvm.Returns afterLow (some 1023) afterKvm := by
    rw [afterKvm]
    exact Cmd.returns_of_fst afterKvm_eval.1
  have hinit : userinit.Returns afterHigh ⟨57343, 57342, PGSIZE⟩ afterInit := by
    rw [afterInit]
    exact Cmd.returns_of_fst afterInit_eval.1
  have hboot := boot_returns (freerange_returns lowPages linked hlow) hkvm afterHigh_returns hinit
  have hnodup : (List.range' 0x116 57066).Nodup := List.nodup_range'
  rw [← allPages_eq] at hnodup
  refine ⟨⟨linked, lowPages, highPages, 0, 0, ⟨57343, 57342, PGSIZE⟩, ⟨by decide, by decide, by decide⟩, ?_, ?_, ?_, ?_,
    ?_⟩, ?_, ?_⟩
  · rw [linked]
  · rw [linked]
  · rw [booted]
  · rw [booted]
    dsimp only
    rw [Cmd.Returns] at hboot
    rw [hboot]
  · rw [booted]
  · rw [booted]
    exact hnodup
  · rw [booted]

theorem booted_slot : booted.slot 0 = .live ⟨57343, 57342, PGSIZE⟩ := by
  rw [booted]
  rfl

theorem booted_vm : booted.vm = afterInit := by rw [booted]

theorem booted_grows : ∃ m', Filled 57342 afterInit 8200 m' ∧
    (allocuvm 57342 PGSIZE (8200 * PGSIZE)).Returns afterInit (8200 * PGSIZE) m' := by
  obtain ⟨hi, hone⟩ := init_inv booted_init
  have himage : (booted.slot 0).image = some ⟨57343, 57342, PGSIZE⟩ := by rw [booted_slot]; rfl
  have ha := (hi.apart_image himage).of_le (Multiset.le_add_left _ _)
  have hone := hone 0 _ himage
  rw [booted_vm] at ha hone
  refine allocuvm_grows (filled_one ha hone) afterInit_eval.2.1 (by decide) (by decide) ?_
  have hdrop := afterInit_eval.2.2.1
  rw [Ne, List.drop_eq_nil_iff, Nat.not_le] at hdrop
  have : 8200 / NPTENTRIES = 8 := by decide
  omega

/-- The memory after the growth, which the next calls do not read but for three words. -/
noncomputable def afterGrow : Mem := booted_grows.choose

theorem afterGrow_filled : Filled 57342 afterInit 8200 afterGrow := booted_grows.choose_spec.1

theorem afterGrow_returns : (allocuvm 57342 PGSIZE (8200 * PGSIZE)).Returns afterInit (8200 * PGSIZE) afterGrow :=
  booted_grows.choose_spec.2

noncomputable def grown : State 1 := { booted with vm := afterGrow }.set 0 (.live ⟨57343, 57342, 8200 * PGSIZE⟩)

theorem grown_returns : (growSize ⟨57343, 57342, PGSIZE⟩ (8199 * 4096)).Returns { booted.vm with fails := [] }
    (8200 * PGSIZE) afterGrow := by
  have hfails : { booted.vm with fails := [] } = afterInit := by
    rw [booted_vm, ← afterInit_eval.2.1]
  have hsz : ((PGSIZE + 8199 * 4096 : Int) % 2 ^ 32).toNat = 8200 * PGSIZE := by decide
  rw [hfails, growSize]
  dsimp only
  rw [if_pos (by decide), hsz]
  exact afterGrow_returns

theorem grown_step : step booted (.growproc 0 (8199 * 4096) []) = some grown := by
  unfold step call growproc
  dsimp only
  rw [booted_slot]
  dsimp only
  rw [onVm_returns grown_returns, Option.map_some, Option.map_some]
  dsimp only
  rw [if_neg (by decide), grown]

theorem pages_step {nproc} : (pages nproc).step = step := rfl

theorem grown_reach : (pages 1).ReachIf ArgsFit grown := by
  have hinit : (pages 1).init booted := booted_init
  have hstep : (pages 1).step booted (.growproc 0 (8199 * 4096) []) = some grown := by
    rw [pages_step]
    exact grown_step
  have hfit : ArgsFit booted (.growproc 0 (8199 * 4096) []) := by
    unfold ArgsFit
    trivial
  exact .step _ _ _ (.init _ hinit) hfit hstep

theorem grown_slot : grown.slot 0 = .live ⟨57343, 57342, 8200 * PGSIZE⟩ := by
  rw [grown, State.set]
  dsimp only
  rw [update_self]

theorem pages_have_one_owner_grown : ∃ s : State 1, s.slot 0 = .live ⟨57343, 57342, 8200 * PGSIZE⟩ ∧
    ∀ x, s.places.count x = if x ∈ s.all then 1 else 0 :=
  ⟨grown, grown_slot, (pages_have_one_owner grown_reach).1⟩

def userEntry (x : Page) : Entry := ⟨x, true, true, true, 0⟩

noncomputable def afterStore : Mem := { afterInit with
  mem := fun y =>
    if y = 57277 then fun _ => userEntry 57276
    else if y = 57342 then fun j => if j = 0 then userEntry 57276 else afterGrow.mem 57342 j
    else if y = 57276 then fun j => if j = 0 then userEntry 57277 else afterGrow.mem 57276 j
    else afterGrow.mem y
  freelist := afterInit.freelist.drop 8207 }

theorem afterGrow_first : afterGrow.mem 57342 0 = userEntry 57276 ∧ afterGrow.mem 57276 0 = userEntry 57277 := by
  obtain ⟨hdir, htab⟩ := afterInit_eval.2.2.2
  have hfirst := afterGrow_filled.first
  have hentry := afterGrow_filled.entry
  rw [hdir] at hfirst hentry
  dsimp only at hentry
  rw [htab] at hentry
  exact ⟨hfirst, hentry⟩

theorem afterStore_eq : afterGrow.write 57277 (fun _ => userEntry 57276) = afterStore := by
  have hrest := afterGrow_filled.rest
  have hfree := congrArg Mem.freelist hrest
  have hfails := congrArg Mem.fails hrest
  have hdata := congrArg Mem.data hrest
  have hkend := congrArg Mem.kend hrest
  obtain ⟨hdir, htab⟩ := afterGrow_first
  have hcount : 8200 - 1 + (8200 - 1) / NPTENTRIES = 8207 := by decide
  rw [hcount] at hfree
  unfold Mem.write afterStore
  dsimp only at hfree hfails hdata hkend
  rw [hfree, hfails, hdata, hkend]
  congr 1
  funext y
  rw [update_apply]
  split_ifs with hy hy hy
  · rfl
  · subst hy
    funext j
    split_ifs with hj
    · rw [hj, hdir]
    · rfl
  · subst hy
    funext j
    split_ifs with hj
    · rw [hj, htab]
    · rfl
  · rfl

noncomputable def stored : State 1 := { grown with vm := afterStore }

theorem grown_vm : grown.vm = afterGrow := by rw [grown, State.set]

theorem stored_step : step grown (.store (.user 0 0) fun _ => userEntry 57276) = some stored := by
  obtain ⟨hdir, htab⟩ := afterGrow_first
  have hPDX : PDX 0 = 0 := by decide
  have hPTX : PTX 0 = 0 := by decide
  have hpage : grown.page (.user 0 0) = some 57277 := by
    unfold State.page pte
    dsimp only
    rw [grown_slot]
    dsimp only
    rw [grown_vm, hPDX, hPTX, hdir, userEntry, if_pos rfl, htab]
    rfl
  unfold step call store
  dsimp only
  rw [hpage, Option.map_some, Option.map_some, grown_vm, afterStore_eq, stored]

/-- The argument is 33 MB long. Its first page maps a free page at all addresses below 4 MB but the first page. -/
def longArg : Program :=
  ⟨some [], [⟨0x2002fff, fun _ _ j => if j = 0 then userEntry 57277 else userEntry 49068⟩], fun _ c => c⟩

set_option maxRecDepth 100000 in
theorem longArg_eval : (execImage ⟨57343, 57342, 8200 * PGSIZE⟩ longArg afterStore).1 = .ok none ∧
    afterStore.fails = [] ∧ (execImage ⟨57343, 57342, 8200 * PGSIZE⟩ longArg afterStore).2.freelist.head? = some 49068 ∧
    (pte (execImage ⟨57343, 57342, 8200 * PGSIZE⟩ longArg afterStore).2.mem 57342 4096).bind userPage = some 49068 := by
  decide +kernel

theorem longArg_step : ∃ m', step stored (.exec 0 longArg []) = some { stored with vm := m' } ∧
    m'.freelist.head? = some 49068 ∧ (pte m'.mem 57342 4096).bind userPage = some 49068 := by
  obtain ⟨hnone, hfails, hfree, hpte⟩ := longArg_eval
  have hslot : stored.slot 0 = .live ⟨57343, 57342, 8200 * PGSIZE⟩ := by
    rw [stored]
    exact grown_slot
  have hvm : { stored.vm with fails := [] } = afterStore := by
    rw [stored, ← hfails]
  have hexec := Cmd.returns_of_fst hnone
  rw [← hvm] at hexec
  have hargs : longArg.args.length < MAXARG ∧ ∀ arg ∈ longArg.args, arg.len < 8200 * PGSIZE := by
    refine ⟨by decide, fun arg harg => ?_⟩
    rw [List.mem_singleton.mp harg]
    decide
  refine ⟨_, ?_, hfree, hpte⟩
  unfold step call sys_exec
  dsimp only
  rw [hslot]
  dsimp only
  rw [if_pos hargs, exec, hslot]
  dsimp only
  rw [onVm_returns hexec, Option.map_some, Option.map_some, hvm]

def attack : List (Act 1) :=
  [.growproc 0 (8199 * 4096) [], .store (.user 0 0) fun _ => userEntry 57276, .exec 0 longArg []]

theorem long_argument_maps_free_page : Init booted ∧ ∃ s, (pages 1).run booted attack = some s ∧ s.maps 0 4096 49068 ∧
    49068 ∈ s.vm.freelist := by
  obtain ⟨m', hstep, hfree, hpte⟩ := longArg_step
  refine ⟨booted_init, { stored with vm := m' }, ?_, ⟨⟨57343, 57342, 8200 * PGSIZE⟩, ?_, hpte⟩, List.mem_of_head? hfree⟩
  · rw [attack, System.run, pages_step, grown_step, Option.bind_some, System.run, pages_step, stored_step,
      Option.bind_some, System.run, pages_step, hstep, Option.bind_some, System.run]
  · rw [stored]
    dsimp only
    rw [grown_slot, Slot.image]

end Xv6.Vm
