import Xv6.Vm.Exec

/-!
# Every page has one owner

The pages that the allocator got at boot are on the free list or belong to one process, one pipe or
the kernel, as long as no `exec` gets arguments that are longer than its image.
-/

open Lib Function

namespace Xv6.Vm

variable {nproc : Nat} {s s' : State nproc} {vm : Mem} {p : Fin nproc}

def Slot.pages (mem : Page → Contents) (v : Slot) : Multiset Page :=
  match v.image with
  | none => 0
  | some i => {i.kstack} + dirPages mem i.pgdir

def slotsPages (mem : Page → Contents) (slot : Fin nproc → Slot) : Multiset Page := total fun q => (slot q).pages mem

def pipesPages (pipes : List Pipe) : Multiset Page := (pipes.map Pipe.page : List Page)

def State.owned (s : State nproc) : Multiset Page := slotsPages s.vm.mem s.slot + pipesPages s.pipes

def State.kernel (s : State nproc) : Multiset Page := dirPages s.vm.mem s.kpgdir + s.cpuStacks

def State.places (s : State nproc) : Multiset Page := s.vm.freelist + (s.owned + s.kernel)

theorem slotsPages_set (mem : Page → Contents) (slot : Fin nproc → Slot) (p : Fin nproc) (v : Slot) :
    slotsPages mem (update slot p v) = v.pages mem + slotsPages mem (update slot p .unused) := by
  have h := total_move p (f := fun q => (update slot p .unused q).pages mem)
    (g := fun q => (update slot p v q).pages mem) fun q hq => by
      rw [update_of_ne hq, update_of_ne hq]
  simp only [update_self] at h
  rw [Slot.pages, Slot.image, add_zero] at h
  rw [slotsPages, h, slotsPages, add_comm]

theorem slotsPages_split (mem : Page → Contents) (slot : Fin nproc → Slot) (p : Fin nproc) :
    slotsPages mem slot = (slot p).pages mem + slotsPages mem (update slot p .unused) := by
  rw [← slotsPages_set, update_eq_self]

theorem dir_le_slots {mem : Page → Contents} {slot : Fin nproc → Slot} {i : Image} (h : (slot p).image = some i) :
    dirPages mem i.pgdir ≤ slotsPages mem slot := by
  refine le_trans ?_ (owner_le_total _ p)
  rw [Slot.pages, h]
  exact Multiset.le_add_left _ _

theorem slots_frame {mem mem' : Page → Contents} {slot : Fin nproc → Slot}
    (h : ∀ x ∈ slotsPages mem slot, mem' x = mem x) :
    slotsPages mem' slot = slotsPages mem slot ∧ ∀ q i, (slot q).image = some i →
    tables mem' i.pgdir = tables mem i.pgdir := by
  have hspace : ∀ q i, (slot q).image = some i →
      dirPages mem' i.pgdir = dirPages mem i.pgdir ∧ tables mem' i.pgdir = tables mem i.pgdir :=
    fun q i hi => space_frame fun x hx => h x (Multiset.mem_of_le (dir_le_slots hi) hx)
  refine ⟨?_, fun q i hi => (hspace q i hi).2⟩
  unfold slotsPages
  congr 1
  funext q
  unfold Slot.pages
  rcases hi : (slot q).image with _ | i
  · rfl
  · dsimp only
    rw [(hspace q i hi).1]

structure Inv (s : State nproc) : Prop where
  linked : Linked s.vm
  nodup : s.all.Nodup
  places : s.places = s.all
  images : ∀ p i, (s.slot p).image = some i → i.sz < KERNBASE ∧ KernelOnly (tables s.vm.mem i.pgdir)

variable (hi : Inv s)

section

include hi

theorem Inv.apart : Apart s.vm (s.owned + s.kernel) := by
  unfold Apart
  have := hi.places
  unfold State.places at this
  rw [this]
  exact hi.nodup

theorem Inv.change {A A' : Multiset Page} {slot : Fin nproc → Slot} {pipes : List Pipe}
    (slot₀ : Fin nproc → Slot) (pipes₀ : List Pipe) (hm : Moves s.vm A vm A')
    (hA : s.owned = A + (slotsPages s.vm.mem slot₀ + pipesPages pipes₀))
    (hA' : slotsPages vm.mem slot + pipesPages pipes = A' + (slotsPages vm.mem slot₀ + pipesPages pipes₀))
    (himages : ∀ p i, (slot p).image = some i → (slot₀ p).image = some i ∧ (s.slot p).image = some i ∨
      i.sz < KERNBASE ∧ KernelOnly (tables vm.mem i.pgdir)) :
    Inv { s with vm := vm, slot := slot, pipes := pipes } := by
  have ha := hi.apart
  rw [hA, add_assoc] at ha
  have hsame := hm.frame_same ha
  have hsame₀ : ∀ x ∈ slotsPages s.vm.mem slot₀, vm.mem x = s.vm.mem x := fun x hx =>
    hsame x (Multiset.mem_add.mpr (.inl (Multiset.mem_add.mpr (.inl hx))))
  have hsamek : ∀ x ∈ dirPages s.vm.mem s.kpgdir, vm.mem x = s.vm.mem x := fun x hx =>
    hsame x (Multiset.mem_add.mpr (.inr (Multiset.mem_add.mpr (.inl hx))))
  obtain ⟨hslots, htables⟩ := slots_frame hsame₀
  obtain ⟨hdir, -⟩ := space_frame hsamek
  refine ⟨hi.linked.moves hm, hi.nodup, ?_, fun p i hp => ?_⟩
  · have hplaces := hi.places
    unfold State.places at hplaces ⊢
    rw [← hplaces, hA, State.owned, State.kernel, State.kernel]
    rw [hA', hslots, hdir]
    calc _ = (vm.freelist + A') + (slotsPages s.vm.mem slot₀ + pipesPages pipes₀ +
          (dirPages s.vm.mem s.kpgdir + s.cpuStacks)) := by ac_rfl
      _ = (s.vm.freelist + A) + (slotsPages s.vm.mem slot₀ + pipesPages pipes₀ +
          (dirPages s.vm.mem s.kpgdir + s.cpuStacks)) := by rw [hm.pages]
      _ = _ := by ac_rfl
  · rcases himages p i hp with ⟨h₀, hold⟩ | h
    · rw [htables p i h₀]
      exact hi.images p i hold
    · exact h

theorem Inv.slot (p : Fin nproc) (v : Slot) (hm : Moves s.vm ((s.slot p).pages s.vm.mem) vm (v.pages vm.mem))
    (himage : ∀ i, v.image = some i → i.sz < KERNBASE ∧ KernelOnly (tables vm.mem i.pgdir)) :
    Inv ({ s with vm := vm }.set p v) := by
  refine hi.change (update s.slot p .unused) s.pipes hm ?_ ?_ fun q i hq => ?_
  · rw [State.owned, slotsPages_split _ _ p, add_assoc]
  · rw [slotsPages_set, add_assoc]
  · rw [update_apply] at hq ⊢
    split_ifs at hq ⊢ with hqp
    · exact .inr (himage i hq)
    · exact .inl ⟨hq, hq⟩

end

section

variable {m m' : Mem} {i : Image}

theorem forkImage_ends (hl : Linked m) (ha : Apart m 0) (hk : i.sz < KERNBASE) :
    Ends (forkImage i) (fun r m' => (r = none → Moves m 0 m' 0) ∧ ∀ i', r = some i' →
      Moves m 0 m' ((Slot.live i').pages m'.mem) ∧ i'.sz < KERNBASE ∧ KernelOnly (tables m'.mem i'.pgdir)) m := by
  unfold forkImage
  refine (kalloc_ends 0).seq fun r m₁ h₁ => ?_
  obtain ⟨h₁, -⟩ := h₁
  rcases r with _ | kstack
  · exact (ends_pure none).mpr ⟨fun _ => h₁, nofun⟩
  · have ha₁ : Apart m₁ 0 := (h₁.apart ha).of_le (Multiset.zero_le _)
    refine (copyuvm_ends (hl.moves h₁) ha₁ i.pgdir i.sz hk.le).seq fun r m₂ h₂ => ?_
    rcases r with _ | pgdir
    · have h₂' := h₁.trans (h₂.frame_left {kstack})
      refine (kfree_ends kstack).seq fun _ m₃ h₃ => ?_
      exact (ends_pure none).mpr ⟨fun _ => h₂'.trans (h₃.1 0), nofun⟩
    · rw [ends_pure]
      refine ⟨nofun, ?_⟩
      rintro i' ⟨⟩
      exact ⟨h₁.trans (h₂.1.frame_left {kstack}), hk, h₂.2.1⟩

theorem execImage_ends (hl : Linked m) (ha : Apart m (dirPages m.mem i.pgdir)) (prog : Program) (hfit : prog.Fits) :
    Ends (execImage i prog) (fun r m' => (r = none → Moves m 0 m' 0) ∧ ∀ i', r = some i' → i'.kstack = i.kstack ∧
      Moves m (dirPages m.mem i.pgdir) m' (dirPages m'.mem i'.pgdir) ∧ i'.sz < KERNBASE ∧
      KernelOnly (tables m'.mem i'.pgdir)) m := by
  unfold execImage
  refine (buildImage_ends hl (ha.of_le (Multiset.zero_le _)) i.pgdir prog hfit).seq fun r m₁ h₁ => ?_
  rcases r with _ | ⟨pgdir, sz⟩
  · exact (ends_pure none).mpr ⟨fun _ => h₁.1 rfl, nofun⟩
  · obtain ⟨h₁, hkernel, hsz⟩ := h₁.2 pgdir sz rfl
    obtain ⟨hold, -⟩ := h₁.frame_space (by rwa [zero_add])
    have h₁' : Moves m (dirPages m.mem i.pgdir) m₁ (dirPages m₁.mem i.pgdir + dirPages m₁.mem pgdir) := by
      rw [hold]
      simpa only [add_zero] using h₁.frame_left (dirPages m.mem i.pgdir)
    have ha₁ := h₁'.apart ha
    refine (freevm_ends (ha₁.of_le (Multiset.le_add_right _ _))).seq fun _ m₂ h₂ => ?_
    obtain ⟨hnew, htables⟩ := h₂.frame_space ha₁
    have h₂' := h₁'.trans (h₂.frame _)
    rw [zero_add, ← hnew] at h₂'
    rw [ends_pure]
    refine ⟨nofun, ?_⟩
    rintro i' ⟨⟩
    exact ⟨rfl, h₂', hsz, by rwa [htables]⟩

theorem growSize_ends (ha : Apart m (dirPages m.mem i.pgdir)) (hk : i.sz < KERNBASE) (n : Int) :
    Ends (growSize i n) (fun r m' => Moves m (dirPages m.mem i.pgdir) m' (dirPages m'.mem i.pgdir) ∧
      (∀ k, 512 ≤ k.val → tables m'.mem i.pgdir k = tables m.mem i.pgdir k) ∧ r < KERNBASE) m := by
  unfold growSize
  split_ifs
  · refine (allocuvm_ends ha _ _).mono fun r m' h => ⟨h.1, h.2.1, ?_⟩
    rcases Nat.eq_zero_or_pos r with rfl | hr
    · decide
    · have := h.2.2 hr.ne'
      omega
  · exact (deallocuvm_ends ha _ _ hk.le).mono fun r m' h => ⟨h.1, h.2.2.2.1, h.2.2.2.2.trans_lt hk⟩
  · exact (ends_pure i.sz).mpr ⟨.refl, fun _ _ => rfl, hk⟩

theorem reap_ends (ha : Apart m ({i.kstack} + dirPages m.mem i.pgdir)) :
    Ends (reap i) (fun _ m' => Moves m ({i.kstack} + dirPages m.mem i.pgdir) m' 0) m := by
  unfold reap
  refine (kfree_held ha).seq fun _ m₁ h₁ => ?_
  exact (freevm_ends (h₁.1.apart ha)).mono fun _ m' h' => h₁.1.trans h'

end

theorem onVm_ends {α : Type} {fails : List Bool} {x : VmM α} {Q : α → Mem → Prop} {a : α}
    (hx : Ends x Q { s.vm with fails := fails }) (h : s.onVm fails x = some (a, s')) : ∃ vm, s' = { s with vm := vm } ∧
    Q a vm := by
  unfold Ends Cmd.wp at hx
  unfold State.onVm at h
  split at h
  · rename_i heq
    rw [heq] at hx
    obtain ⟨rfl, rfl⟩ := Prod.mk.inj (Option.some.inj h)
    exact ⟨_, rfl, hx⟩
  · simp at h

theorem onVm_returns {α : Type} {fails : List Bool} {x : VmM α} {a : α}
    (h : x.Returns { s.vm with fails := fails } a vm) :
    s.onVm fails x = some (a, { s with vm := vm }) := by
  unfold Cmd.Returns at h
  unfold State.onVm
  rw [h]

theorem Moves.of_fails {m vm : Mem} {A A' : Multiset Page} {fails : List Bool}
    (h : Moves { m with fails := fails } A vm A') :
    Moves m A vm A' := ⟨h.pages, h.same, h.data⟩

theorem Apart.fails {m : Mem} {A : Multiset Page} (ha : Apart m A) (fails : List Bool) :
    Apart { m with fails := fails } A := ha

section

include hi

theorem Inv.apart_slot (p : Fin nproc) : Apart s.vm ((s.slot p).pages s.vm.mem) := by
  refine hi.apart.of_le (le_trans ?_ (Multiset.le_add_right _ _))
  exact le_trans (owner_le_total _ p) (Multiset.le_add_right _ _)

theorem Inv.apart_image {i : Image} (himage : (s.slot p).image = some i) :
    Apart s.vm ({i.kstack} + dirPages s.vm.mem i.pgdir) := by
  have := hi.apart_slot p
  rwa [Slot.pages, himage] at this

theorem fork_inv (fails : List Bool) {b : Bool} (h : fork s p fails = some (b, s')) :
    Inv s' ∧ (b = false → (s'.vm.freelist : Multiset Page) = s.vm.freelist) := by
  unfold fork at h
  split at h <;> [split at h; exact absurd h (by simp)]
  · rename_i i hlive _ np hnp
    have hunused : s.slot np = .unused := by simpa using List.find?_some hnp
    obtain ⟨⟨r, s₁⟩, hrun, hres⟩ := Option.map_eq_some_iff.mp h
    have himage := hi.images p i (by rw [hlive]; rfl)
    have hl : Linked { s.vm with fails := fails } := ⟨hi.linked.1, hi.linked.2, hi.linked.3⟩
    obtain ⟨vm, rfl, hnone, hsome⟩ := onVm_ends
      (forkImage_ends hl ((hi.apart.of_le (Multiset.zero_le _)).fails fails) himage.1) hrun
    have hold : (s.slot np).pages s.vm.mem = 0 := by rw [hunused]; rfl
    rcases r with _ | i'
    · obtain ⟨rfl, rfl⟩ := Prod.mk.inj hres
      have hm := (hnone rfl).of_fails
      refine ⟨?_, fun _ => ?_⟩
      · have := hi.slot np .unused (by rw [hold]; exact hm) nofun
        rwa [State.set, ← hunused, update_eq_self] at this
      · simpa using hm.pages
    · obtain ⟨rfl, rfl⟩ := Prod.mk.inj hres
      obtain ⟨hm, hsz, hkernel⟩ := hsome i' rfl
      refine ⟨hi.slot np (.live i') (by rw [hold]; exact hm.of_fails) ?_, nofun⟩
      rintro i'' ⟨⟩
      exact ⟨hsz, hkernel⟩
  · obtain ⟨rfl, rfl⟩ := Prod.mk.inj (Option.some.inj h)
    exact ⟨hi, fun _ => rfl⟩

theorem exec_inv (prog : Program) (hfit : prog.Fits) (fails : List Bool) {b : Bool}
    (h : exec s p prog fails = some (b, s')) :
    Inv s' ∧ (b = false → (s'.vm.freelist : Multiset Page) = s.vm.freelist) := by
  unfold exec at h
  split at h
  · rename_i i hlive
    obtain ⟨⟨r, s₁⟩, hrun, hres⟩ := Option.map_eq_some_iff.mp h
    have himage : (s.slot p).image = some i := by rw [hlive]; rfl
    have ha := (hi.apart_image himage).fails fails
    have hl : Linked { s.vm with fails := fails } := ⟨hi.linked.1, hi.linked.2, hi.linked.3⟩
    obtain ⟨vm, rfl, hnone, hsome⟩ := onVm_ends
      (execImage_ends hl (ha.of_le (Multiset.le_add_left _ _)) prog hfit) hrun
    rcases r with _ | i'
    · obtain ⟨rfl, rfl⟩ := Prod.mk.inj hres
      have hm := (hnone rfl).of_fails
      refine ⟨?_, fun _ => by simpa using hm.pages⟩
      exact hi.change s.slot s.pipes hm (zero_add _).symm (zero_add _).symm fun q i hq => .inl ⟨hq, hq⟩
    · obtain ⟨rfl, rfl⟩ := Prod.mk.inj hres
      obtain ⟨hstack, hm, hsz, hkernel⟩ := hsome i' rfl
      refine ⟨hi.slot p (.live i') ?_ ?_, nofun⟩
      · rw [Slot.pages, himage]
        dsimp only
        have := hm.of_fails.frame_left {i.kstack}
        rwa [← hstack] at this ⊢
      · rintro i'' ⟨⟩
        exact ⟨hsz, hkernel⟩
  · simp at h

theorem sys_exec_inv (prog : Program) (hfit : prog.Fits) (fails : List Bool) {b : Bool}
    (h : sys_exec s p prog fails = some (b, s')) :
    Inv s' ∧ (b = false → (s'.vm.freelist : Multiset Page) = s.vm.freelist) := by
  unfold sys_exec at h
  split at h
  · split_ifs at h
    · exact exec_inv hi prog hfit fails h
    · obtain ⟨rfl, rfl⟩ := Prod.mk.inj (Option.some.inj h)
      exact ⟨hi, fun _ => rfl⟩
  · simp at h

theorem growproc_inv (n : Int) (fails : List Bool) {b : Bool} (h : growproc s p n fails = some (b, s')) :
    Inv s' := by
  unfold growproc at h
  split at h
  · rename_i i hlive
    obtain ⟨⟨r, s₁⟩, hrun, hres⟩ := Option.map_eq_some_iff.mp h
    have himage : (s.slot p).image = some i := by rw [hlive]; rfl
    have ha := (hi.apart_image himage).fails fails
    obtain ⟨hsz, hkernel⟩ := hi.images p i himage
    obtain ⟨vm, rfl, hm, hsame, hr⟩ := onVm_ends
      (growSize_ends (ha.of_le (Multiset.le_add_left _ _)) hsz n) hrun
    have hm' := hm.of_fails.frame_left {i.kstack}
    have hpages : (s.slot p).pages s.vm.mem = {i.kstack} + dirPages s.vm.mem i.pgdir := by rw [Slot.pages, himage]
    rw [← hpages] at hm'
    dsimp only at hres
    split_ifs at hres
    · obtain ⟨-, rfl⟩ := Prod.mk.inj hres
      have := hi.slot p (.live i) hm' ?_
      · rwa [State.set, ← hlive, update_eq_self] at this
      · rintro i' ⟨⟩
        exact ⟨hsz, hkernel.of_same hsame⟩
    · obtain ⟨-, rfl⟩ := Prod.mk.inj hres
      refine hi.slot p (.live { i with sz := r }) hm' ?_
      rintro i' ⟨⟩
      exact ⟨hr, hkernel.of_same hsame⟩
  · simp at h

theorem exit_inv {b : Bool} (h : exit s p = some (b, s')) : Inv s' := by
  unfold exit at h
  split at h
  · rename_i i hlive
    obtain ⟨-, rfl⟩ := Prod.mk.inj (Option.some.inj h)
    have hpages : (s.slot p).pages s.vm.mem = (Slot.zombie i).pages s.vm.mem := by rw [hlive]; rfl
    refine hi.slot p (.zombie i) (by rw [hpages]; exact .refl) ?_
    rintro i' ⟨⟩
    exact hi.images p i (by rw [hlive]; rfl)
  · simp at h

theorem wait_inv {b : Bool} (h : wait s p = some (b, s')) : Inv s' := by
  unfold wait at h
  split at h
  · rename_i i hzombie
    obtain ⟨⟨r, s₁⟩, hrun, hres⟩ := Option.map_eq_some_iff.mp h
    have himage : (s.slot p).image = some i := by rw [hzombie]; rfl
    obtain ⟨vm, rfl, hm⟩ := onVm_ends (reap_ends ((hi.apart_image himage).fails [])) hrun
    obtain ⟨-, rfl⟩ := Prod.mk.inj hres
    exact hi.slot p .unused (by rw [Slot.pages, himage]; exact hm.of_fails) nofun
  · simp at h

theorem Inv.pipe {A A' : Multiset Page} {pipes pipes₀ : List Pipe} (hm : Moves s.vm A vm A')
    (hA : pipesPages s.pipes = A + pipesPages pipes₀) (hA' : pipesPages pipes = A' + pipesPages pipes₀) :
    Inv { s with vm := vm, pipes := pipes } := by
  refine hi.change s.slot pipes₀ hm ?_ ?_ fun q i hq => .inl ⟨hq, hq⟩
  · rw [State.owned, hA]
    ac_rfl
  · rw [hA']
    ac_rfl

theorem pipealloc_inv (files : Bool) (fails : List Bool) {b : Bool} (h : pipealloc s files fails = some (b, s')) :
    Inv s' := by
  unfold pipealloc at h
  split_ifs at h
  · obtain ⟨⟨r, s₁⟩, hrun, hres⟩ := Option.map_eq_some_iff.mp h
    obtain ⟨vm, rfl, hm, -⟩ := onVm_ends (kalloc_ends 0) hrun
    have hm := hm.of_fails
    rcases r with _ | x
    · obtain ⟨-, rfl⟩ := Prod.mk.inj hres
      exact hi.pipe hm (zero_add _).symm (by rw [held, add_zero, zero_add])
    · obtain ⟨-, rfl⟩ := Prod.mk.inj hres
      exact hi.pipe hm (zero_add _).symm (by rw [held, add_zero]; rfl)
  · obtain ⟨-, rfl⟩ := Prod.mk.inj (Option.some.inj h)
    exact hi

end

theorem pipesPages_erase {pipes : List Pipe} {k : Nat} {pipe : Pipe} (hk : pipes[k]? = some pipe) :
    pipesPages pipes = {pipe.page} + pipesPages (pipes.eraseIdx k) := by
  obtain ⟨hlt, hget⟩ := List.getElem?_eq_some_iff.mp hk
  have hperm := (List.getElem_cons_eraseIdx_perm hlt).map Pipe.page
  rw [hget] at hperm
  unfold pipesPages
  rw [← Multiset.coe_eq_coe.mpr hperm]
  rfl

theorem pipesPages_set {pipes : List Pipe} {k : Nat} {pipe pipe' : Pipe} (hk : pipes[k]? = some pipe)
    (hpage : pipe'.page = pipe.page) : pipesPages (pipes.set k pipe') = pipesPages pipes := by
  unfold pipesPages
  congr 1
  refine List.ext_getElem? fun n => ?_
  rw [List.getElem?_map, List.getElem?_map, List.getElem?_set]
  split_ifs with hkn hlt
  · rw [← hkn, hk]
    simp [hpage]
  · rw [← hkn, List.getElem?_eq_none (by omega)]
  · rfl

theorem Pipe.close_page (pipe : Pipe) (writable : Bool) : (pipe.close writable).page = pipe.page := by
  unfold Pipe.close
  split_ifs <;> rfl

theorem pipeclose_inv (hi : Inv s) (k : Nat) (writable : Bool) {b : Bool} (h : pipeclose s k writable = some (b, s')) :
    Inv s' := by
  unfold pipeclose at h
  split at h
  · rename_i pipe hk
    split_ifs at h
    · obtain ⟨-, rfl⟩ := Prod.mk.inj (Option.some.inj h)
      have hsame := pipesPages_set hk (pipe.close_page writable)
      exact hi.pipe .refl (zero_add (pipesPages s.pipes)).symm (by rw [hsame, zero_add])
    · obtain ⟨⟨r, s₁⟩, hrun, hres⟩ := Option.map_eq_some_iff.mp h
      obtain ⟨vm, rfl, hm, -⟩ := onVm_ends (kfree_ends pipe.page) hrun
      obtain ⟨-, rfl⟩ := Prod.mk.inj hres
      exact hi.pipe (hm 0).of_fails (pipesPages_erase hk) (zero_add _).symm
  · simp at h

theorem Inv.write (hi : Inv s) {i : Image} {x : Page} (c : Contents) (himage : (s.slot p).image = some i)
    (hx : x ∈ {i.kstack} + dirPages s.vm.mem i.pgdir)
    (hsame : dirPages (s.vm.write x c).mem i.pgdir = dirPages s.vm.mem i.pgdir ∧
      tables (s.vm.write x c).mem i.pgdir = tables s.vm.mem i.pgdir) : Inv { s with vm := s.vm.write x c } := by
  have hpages : (s.slot p).pages s.vm.mem = {i.kstack} + dirPages s.vm.mem i.pgdir := by rw [Slot.pages, himage]
  have hinv : Inv ({ s with vm := s.vm.write x c }.set p (s.slot p)) := by
    refine hi.slot p (s.slot p) ?_ fun i' hi' => ?_
    · rw [hpages, Slot.pages, himage]
      dsimp only
      rw [hsame.1]
      exact setPage_moves c hx
    · rw [himage] at hi'
      cases hi'
      rw [hsame.2]
      exact hi.images p i himage
  rwa [State.set, update_eq_self] at hinv

theorem KernelOnly.low {mem : Page → Contents} {d : Page} {va : Nat} (h : KernelOnly (tables mem d))
    (hdir : (mem d (PDX va)).p = true) (hp : (mem (mem d (PDX va)).page (PTX va)).p = true)
    (hu : (mem (mem d (PDX va)).page (PTX va)).u = true) : (PDX va).val < 512 := by
  by_contra hge
  have := h (PDX va) (by omega) _ (tables_some hdir) (PTX va) hp
  rw [hu] at this
  simp at this

theorem pte_user {mem : Page → Contents} {d x : Page} {va : Nat} (h : (pte mem d va).bind userPage = some x) :
    (mem d (PDX va)).p = true ∧ (mem (mem d (PDX va)).page (PTX va)).p = true ∧
    (mem (mem d (PDX va)).page (PTX va)).u = true ∧ (mem (mem d (PDX va)).page (PTX va)).page = x := by
  obtain ⟨e, he, hu⟩ := Option.bind_eq_some_iff.mp h
  unfold pte at he
  unfold userPage at hu
  split_ifs at he with hdir
  cases he
  split_ifs at hu with htab
  exact ⟨hdir, htab.1, htab.2, Option.some.inj hu⟩

theorem store_inv (hi : Inv s) (place : Place nproc) (c : Contents) {b : Bool} (h : store s place c = some (b, s')) :
    Inv s' := by
  unfold store at h
  obtain ⟨x, hx, hres⟩ := Option.map_eq_some_iff.mp h
  obtain ⟨-, rfl⟩ := Prod.mk.inj hres
  rcases place with ⟨p, va⟩ | p | k
  · unfold State.page at hx
    dsimp only at hx
    split at hx
    · rename_i i hlive
      have himage : (s.slot p).image = some i := by rw [hlive]; rfl
      obtain ⟨hdir, hp, hu, rfl⟩ := pte_user hx
      have ha := (hi.apart_image himage).of_le (Multiset.le_add_left _ _)
      have hlow := (hi.images p i himage).2.low hdir hp hu
      refine hi.write c himage (Multiset.mem_add.mpr (.inr (slot_mem (user_mem_slot hlow hdir hp)))) ?_
      exact space_setUser ha.nodup hlow hdir hp c
    · simp at hx
  · obtain ⟨i, himage, rfl⟩ := Option.map_eq_some_iff.mp hx
    have ha := hi.apart_image himage
    refine hi.write c himage (Multiset.mem_add.mpr (.inl (Multiset.mem_singleton_self _))) ?_
    refine space_frame fun y hy => update_of_ne ?_ _ _
    rintro rfl
    exact not_mem_of_nodup_add ha.nodup (Multiset.mem_singleton_self _) hy
  · obtain ⟨pipe, hk, rfl⟩ := Option.map_eq_some_iff.mp hx
    exact hi.pipe (setPage_moves c (Multiset.mem_singleton_self _)) (pipesPages_erase hk) (pipesPages_erase hk)

def ArgsFit (_ : State nproc) : Act nproc → Prop
  | .exec _ prog _ => prog.Fits
  | _ => True

theorem step_inv {a : Act nproc} (hi : Inv s) (hc : ArgsFit s a) (hs : step s a = some s') : Inv s' := by
  unfold step at hs
  obtain ⟨⟨b, s'⟩, hcall, rfl⟩ := Option.map_eq_some_iff.mp hs
  rcases a with ⟨p, fails⟩ | ⟨p, prog, fails⟩ | ⟨p, n, fails⟩ | p | q | ⟨files, fails⟩ | ⟨k, writable⟩ | ⟨place, c⟩
  · exact (fork_inv hi fails hcall).1
  · exact (sys_exec_inv hi prog hc fails hcall).1
  · exact growproc_inv hi n fails hcall
  · exact exit_inv hi hcall
  · exact wait_inv hi hcall
  · exact pipealloc_inv hi files fails hcall
  · exact pipeclose_inv hi k writable hcall
  · exact store_inv hi place c hcall

end Xv6.Vm
