import Mathlib
import Xv6.Vm.Tables

/-!
# Address spaces

What `setupkvm`, `allocuvm`, `copyuvm` and the building of a new image in `exec` take and give
back. A function that fails gives back all that it took.
-/

open Lib Function

namespace Xv6.Vm

variable {d m : Page} {s s' : Mem} {v : Nat}

structure Kmap.Ok (k : Kmap) : Prop where
  virt : KERNBASE ≤ k.virt
  size : k.phys_start < k.phys_end
  top : k.virt + (k.phys_end - k.phys_start) ≤ 2 ^ 32

theorem kmap_ok {data : Nat} (hlo : KERNLINK < data) (hhi : data < KERNBASE + PHYSTOP) : ∀ k ∈ kmap data, k.Ok := by
  unfold KERNLINK KERNBASE EXTMEM at hlo
  unfold KERNBASE PHYSTOP at hhi
  intro k hk
  simp only [kmap, List.mem_cons, List.not_mem_nil, or_false] at hk
  rcases hk with rfl | rfl | rfl | rfl
  all_goals
    constructor <;> simp only [KERNLINK, KERNBASE, EXTMEM, PHYSTOP, DEVSPACE] <;> omega

theorem Kmap.Ok.tables {k : Kmap} (hk : k.Ok) : 512 ≤ k.virt / PGSIZE / NPTENTRIES ∧
    k.virt / PGSIZE / NPTENTRIES + ((k.virt + (k.phys_end - k.phys_start) - 1) / PGSIZE / NPTENTRIES -
      k.virt / PGSIZE / NPTENTRIES + 1) ≤ NPTENTRIES := by
  obtain ⟨hvirt, hsize, htop⟩ := hk
  have hhi : (k.virt + (k.phys_end - k.phys_start) - 1) / PGSIZE / NPTENTRIES < NPTENTRIES := by
    rw [Nat.div_div_eq_div_mul, Nat.div_lt_iff_lt_mul (by decide)]
    have : (2 : Nat) ^ 32 = NPTENTRIES * (PGSIZE * NPTENTRIES) := by decide
    omega
  have hle : k.virt / PGSIZE / NPTENTRIES ≤ (k.virt + (k.phys_end - k.phys_start) - 1) / PGSIZE / NPTENTRIES :=
    Nat.div_le_div_right (Nat.div_le_div_right (by omega))
  refine ⟨?_, by omega⟩
  rw [Nat.div_div_eq_div_mul, Nat.le_div_iff_mul_le (by decide)]
  exact (show 512 * (PGSIZE * NPTENTRIES) ≤ KERNBASE by decide).trans hvirt

theorem mapKernel_ends (ks : List Kmap) (hks : ∀ k ∈ ks, k.Ok) (s : Mem) (ha : Apart s (dirPages s.mem d)) :
    Ends (mapKernel d ks) (fun _ s' => Moves s (dirPages s.mem d) s' (dirPages s'.mem d) ∧
      (∀ k, k.val < 512 → tables s'.mem d k = tables s.mem d k) ∧
      (KernelOnly (tables s.mem d) → KernelOnly (tables s'.mem d))) s := by
  induction ks generalizing s with
  | nil =>
    rw [mapKernel, ends_pure]
    exact ⟨.refl, fun _ _ => rfl, fun h => h⟩
  | cons k ks ih =>
    obtain ⟨hlo, hhi⟩ := (hks k List.mem_cons_self).tables
    rw [mapKernel]
    refine (mapTables_kernel _ _ _ _ _ _ hlo hhi s ha).seq fun r s₁ h₁ => ?_
    rcases r with _ | _
    · exact (ends_pure false).mpr h₁
    · rw [if_pos rfl]
      refine (ih (fun k hk => hks k (List.mem_cons_of_mem _ hk)) s₁ (h₁.1.apart ha)).mono fun _ s' h' => ?_
      exact ⟨h₁.1.trans h'.1, fun k hk => (h'.2.1 k hk).trans (h₁.2.1 k hk), fun h => h'.2.2 (h₁.2.2 h)⟩

theorem empty_dir {mem : Page → Contents} (hz : mem d = zeros) :
    dirPages mem d = {d} ∧ tables mem d = fun _ => none := by
  have htables : tables mem d = fun _ => none := funext fun k => tables_none (by rw [hz]; rfl)
  refine ⟨?_, htables⟩
  have hrest : rest (mem d) 0 = 0 := by
    rw [Multiset.eq_zero_iff_forall_notMem]
    intro x hx
    obtain ⟨i, hi⟩ := mem_total.mp hx
    rw [if_neg (Nat.not_lt_zero _), hz, Entry.pages, if_neg (by simp [zeros, Entry.zero])] at hi
    exact Multiset.notMem_zero x hi
  rw [dirPages_of_cleared (fun k _ c hc => by rw [htables] at hc; exact absurd hc (by simp)), hrest, add_zero]

theorem Linked.moves {A A' : Multiset Page} (hl : Linked s) (h : Moves s A s' A') : Linked s' := by
  obtain ⟨h1, h2, h3⟩ := hl
  constructor <;> rwa [h.data]

def Makes (P : Tables → Prop) (s : Mem) (r : Option Page) (s' : Mem) : Prop :=
  match r with
  | none => Moves s 0 s' 0
  | some d => Moves s 0 s' (dirPages s'.mem d) ∧ KernelOnly (tables s'.mem d) ∧ P (tables s'.mem d)

theorem freevm_back (ha : Apart s 0) (h : Moves s 0 s' (dirPages s'.mem d)) :
    Ends (freevm d) (fun _ s'' => Moves s 0 s'' 0) s' :=
  (freevm_ends (h.apart ha)).mono fun _ _ h' => h.trans h'

theorem setupkvm_ends (hl : Linked s) (ha : Apart s 0) :
    Ends setupkvm (Makes (fun tb => ∀ k, k.val < 512 → tb k = none) s) s := by
  unfold setupkvm
  refine (kalloc_ends 0).seq fun r s₁ h₁ => ?_
  rcases r with _ | d
  · exact (ends_pure none).mpr h₁.1
  · rw [ends_memset0, ends_get]
    have hzero : update s₁.mem d (fun _ => .zero) d = zeros := update_self ..
    obtain ⟨hpages, htables⟩ := empty_dir hzero
    have h₂ := h₁.1.trans (setPage_moves (fun _ => .zero) (Multiset.mem_add.mpr (.inl (Multiset.mem_singleton_self d))))
    rw [held, add_zero, ← hpages] at h₂
    have hl₁ := hl.moves h₁.1
    refine (mapKernel_ends _ (kmap_ok hl₁.data_lo hl₁.data_hi) _ (h₂.apart ha)).seq fun r s₃ h₃ => ?_
    have hmade := h₂.trans h₃.1
    rcases r with _ | _
    · rw [if_neg (by simp)]
      exact (freevm_back ha hmade).seq fun _ s' h' => (ends_pure none).mpr h'
    · rw [if_pos rfl, ends_pure]
      refine ⟨hmade, h₃.2.2 ?_, fun k hk => ?_⟩
      · intro k _ c hc
        rw [htables] at hc
        simp at hc
      · rw [h₃.2.1 k hk, htables]

def Present (tb : Tables) (v : Nat) : Prop := ∃ c, tb (dirIx v) = some c ∧ (c (tabIx v)).p = true

def Covered (tb : Tables) (sz : Nat) : Prop := ∀ w, w * PGSIZE < sz → Present tb w

theorem put_kernel (tb : Tables) (hv : v < userEnd) (e : Entry) (k : Fin NPTENTRIES) (hk : 512 ≤ k.val) :
    put tb v e k = tb k := by
  unfold put
  refine update_of_ne ?_ _ _
  rintro rfl
  exact absurd (dirIx_lt hv) (by omega)

theorem present_put (tb : Tables) (v : Nat) (e : Entry) (he : e.p = true) {w : Nat} (h : Present tb w ∨ w = v) :
    Present (put tb v e) w := by
  unfold Present put
  rw [update_apply]
  split_ifs with hdir
  · refine ⟨_, rfl, ?_⟩
    rw [update_apply]
    split_ifs with htab
    · exact he
    · rcases h with ⟨c, hc, hp⟩ | rfl
      · rw [opened, ← hdir, hc, Option.getD_some]
        exact hp
      · exact absurd rfl htab
  · rcases h with h | rfl
    · exact h
    · exact absurd rfl hdir

theorem taken {s₁ : Mem} (ha : Apart s (dirPages s.mem d))
    (h : Moves s (dirPages s.mem d) s₁ (held (some m) + dirPages s.mem d)) (hmem : s₁.mem = s.mem) (c : Contents) :
    Moves s (dirPages s.mem d) { s₁ with mem := update s₁.mem m c } ({m} + dirPages (update s₁.mem m c) d) ∧
    tables (update s₁.mem m c) d = tables s.mem d := by
  have hframe : ∀ y ∈ dirPages s.mem d, update s₁.mem m c y = s.mem y := by
    intro y hy
    rw [update_of_ne, hmem]
    rintro rfl
    exact not_mem_of_nodup_add (h.apart ha).nodup (Multiset.mem_singleton_self y) hy
  obtain ⟨hpages, htables⟩ := space_frame hframe
  refine ⟨?_, htables⟩
  rw [hpages]
  exact h.trans (setPage_moves c (Multiset.mem_add.mpr (.inl (Multiset.mem_singleton_self m))))

theorem allocFrom_ends (oldsz newsz : Nat) (hk : newsz ≤ KERNBASE) (n v : Nat) (s : Mem)
    (ha : Apart s (dirPages s.mem d)) (hfuel : newsz ≤ (v + n) * PGSIZE) :
    Ends (allocFrom d oldsz newsz n (v * PGSIZE)) (fun r s' => Moves s (dirPages s.mem d) s' (dirPages s'.mem d) ∧
      (∀ k, 512 ≤ k.val → tables s'.mem d k = tables s.mem d k) ∧
      (r = true → (∀ w, Present (tables s.mem d) w → Present (tables s'.mem d) w) ∧
        ∀ w, v ≤ w → w * PGSIZE < newsz → Present (tables s'.mem d) w)) s := by
  induction n generalizing v s with
  | zero =>
    rw [Nat.add_zero] at hfuel
    rw [allocFrom, if_neg (Nat.not_lt.mpr hfuel), ends_pure]
    refine ⟨.refl, fun _ _ => rfl, fun _ => ⟨fun _ h => h, fun w hv hw => ?_⟩⟩
    have := Nat.mul_le_mul_right PGSIZE hv
    omega
  | succ n ih =>
    rw [allocFrom]
    split_ifs with hlt
    · have hv : v < userEnd := page_lt hk hlt
      refine (kalloc_ends (dirPages s.mem d)).seq fun r s₁ h₁ => ?_
      obtain ⟨h₁, hmem₁⟩ := h₁
      rcases r with _ | m
      · rw [held, zero_add, ← hmem₁] at h₁
        refine (deallocuvm_ends (h₁.apart (by rwa [hmem₁])) newsz oldsz hk).seq fun _ s' h' => ?_
        rw [ends_pure]
        rw [hmem₁] at h₁ h'
        exact ⟨h₁.trans h'.1, fun k hk => h'.2.2.2.1 k hk, (by simp)⟩
      · rw [ends_memset0]
        obtain ⟨h₂, htables₂⟩ := taken ha h₁ hmem₁ fun _ => .zero
        refine (mappages_user (h₂.apart ha) hv true true 0).seq fun r s₃ h₃ => ?_
        rw [htables₂] at h₃
        rcases r with _ | _
        · -- The table is missing: what was mapped so far is given back, then the page.
          obtain ⟨h₃, htables₃⟩ := h₃.2 rfl
          rw [if_neg (by simp)]
          have h₃' := h₂.trans (h₃.frame_left {m})
          have ha₃ := h₃'.apart ha
          refine (deallocuvm_ends (ha₃.of_le (Multiset.le_add_left _ _)) newsz oldsz hk).seq fun _ s₄ h₄ => ?_
          have h₄' := h₃'.trans (h₄.1.frame_left {m})
          refine (kfree_held (h₄'.apart ha)).seq fun _ s' h' => ?_
          rw [ends_pure]
          refine ⟨h₄'.trans h'.1, fun k hk' => ?_, (by simp)⟩
          rw [h'.2, h₄.2.2.2.1 k hk', htables₃]
        · obtain ⟨h₃, htables₃⟩ := h₃.1 rfl
          have h₃' := h₂.trans h₃
          rw [if_pos rfl, ← Nat.succ_mul]
          refine (ih (v + 1) s₃ (h₃'.apart ha) (by rwa [Nat.add_right_comm])).mono fun r s' h' => ?_
          refine ⟨h₃'.trans h'.1, fun k hk' => ?_, fun hr => ⟨fun w hw => ?_, fun w hvw hw => ?_⟩⟩
          · rw [h'.2.1 k hk', htables₃, put_kernel _ hv _ k hk']
          · refine (h'.2.2 hr).1 w ?_
            rw [htables₃]
            exact present_put _ _ _ rfl (.inl hw)
          · rcases Nat.eq_or_lt_of_le hvw with rfl | hlt'
            · refine (h'.2.2 hr).1 v ?_
              rw [htables₃]
              exact present_put _ _ _ rfl (.inr rfl)
            · exact (h'.2.2 hr).2 w hlt' hw
    · rw [ends_pure]
      refine ⟨.refl, fun _ _ => rfl, fun _ => ⟨fun _ h => h, fun w hv hw => ?_⟩⟩
      have := Nat.mul_le_mul_right PGSIZE hv
      omega

theorem allocuvm_ends (ha : Apart s (dirPages s.mem d)) (oldsz newsz : Nat) :
    Ends (allocuvm d oldsz newsz) (fun r s' => Moves s (dirPages s.mem d) s' (dirPages s'.mem d) ∧
      (∀ k, 512 ≤ k.val → tables s'.mem d k = tables s.mem d k) ∧
      (r ≠ 0 → r = max oldsz newsz ∧ newsz < KERNBASE ∧ (Covered (tables s.mem d) oldsz → Covered (tables s'.mem d) r)))
        s := by
  unfold allocuvm
  split_ifs with hk hlt
  · rw [ends_pure]
    exact ⟨.refl, fun _ _ => rfl, fun h => absurd rfl h⟩
  · rw [ends_pure]
    exact ⟨.refl, fun _ _ => rfl, fun _ => ⟨by omega, by omega, fun h => h⟩⟩
  · rw [PGROUNDUP_eq]
    refine (allocFrom_ends oldsz newsz (by omega) _ _ s ha ?_).seq fun r s₁ h₁ => ?_
    · have h : KERNBASE ≤ 2 ^ 20 * PGSIZE := by decide
      exact ((Nat.le_of_not_le hk).trans h).trans (Nat.mul_le_mul_right _ (Nat.le_add_left _ _))
    · rcases r with _ | _
      · rw [if_neg (by simp), ends_pure]
        exact ⟨h₁.1, h₁.2.1, fun h => absurd rfl h⟩
      · rw [if_pos rfl, ends_pure]
        refine ⟨h₁.1, h₁.2.1, fun _ => ⟨by omega, by omega, fun hcov w hw => ?_⟩⟩
        rcases Nat.lt_or_ge (w * PGSIZE) oldsz with hold | hnew
        · exact (h₁.2.2 rfl).1 w (hcov w hold)
        · refine (h₁.2.2 rfl).2 w ?_ hw
          have : (oldsz + PGSIZE - 1) / PGSIZE < w + 1 := by
            rw [Nat.div_lt_iff_lt_mul (by decide), Nat.succ_mul]
            have : 0 < PGSIZE := by decide
            omega
          omega

theorem copyFrom_ends (pgdir : Page) (sz : Nat) (hk : sz ≤ KERNBASE) (n v : Nat) (s : Mem)
    (ha : Apart s (dirPages s.mem d)) :
    Ends (copyFrom d pgdir sz n (v * PGSIZE)) (fun _ s' => Moves s (dirPages s.mem d) s' (dirPages s'.mem d) ∧
      ∀ k, 512 ≤ k.val → tables s'.mem d k = tables s.mem d k) s := by
  induction n generalizing v s with
  | zero =>
    rw [copyFrom]
    split_ifs
    · exact ends_fail _
    · exact (ends_pure true).mpr ⟨.refl, fun _ _ => rfl⟩
  | succ n ih =>
    rw [copyFrom]
    split_ifs with hlt
    · have hv : v < userEnd := page_lt hk hlt
      rw [ends_walk]
      split_ifs
      · dsimp only
        rw [ends_get]
        split_ifs
        · refine (kalloc_ends (dirPages s.mem d)).seq fun r s₁ h₁ => ?_
          obtain ⟨h₁, hmem₁⟩ := h₁
          rcases r with _ | m
          · rw [ends_pure, hmem₁]
            rw [held, zero_add] at h₁
            exact ⟨h₁, fun _ _ => rfl⟩
          · rw [ends_setPage]
            obtain ⟨h₂, htables₂⟩ := taken ha h₁ hmem₁
              (s.mem (s.mem (s.mem pgdir (PDX (v * PGSIZE))).page (PTX (v * PGSIZE))).page)
            refine (mappages_user (h₂.apart ha) hv _ _ _).seq fun r s₃ h₃ => ?_
            rw [htables₂] at h₃
            rcases r with _ | _
            · obtain ⟨h₃, htables₃⟩ := h₃.2 rfl
              rw [if_neg (by simp)]
              have h₃' := h₂.trans (h₃.frame_left {m})
              refine (kfree_held (h₃'.apart ha)).seq fun _ s' h' => ?_
              rw [ends_pure]
              exact ⟨h₃'.trans h'.1, fun k hk' => by rw [h'.2, htables₃]⟩
            · obtain ⟨h₃, htables₃⟩ := h₃.1 rfl
              have h₃' := h₂.trans h₃
              rw [if_pos rfl, ← Nat.succ_mul]
              refine (ih (v + 1) s₃ (h₃'.apart ha)).mono fun r s' h' => ⟨h₃'.trans h'.1, fun k hk' => ?_⟩
              rw [h'.2 k hk', htables₃, put_kernel _ hv _ k hk']
        · exact ends_fail _
      · exact ends_fail _
    · rw [ends_pure]
      exact ⟨.refl, fun _ _ => rfl⟩

theorem KernelOnly.of_same {tb tb' : Tables} (h : KernelOnly tb) (hsame : ∀ k, 512 ≤ k.val → tb' k = tb k) :
    KernelOnly tb' :=
  fun k hk c hc => h k hk c (by rwa [← hsame k hk])

theorem copyuvm_ends (hl : Linked s) (ha : Apart s 0) (pgdir : Page) (sz : Nat) (hk : sz ≤ KERNBASE) :
    Ends (copyuvm pgdir sz) (Makes (fun _ => True) s) s := by
  unfold copyuvm
  refine (setupkvm_ends hl ha).seq fun r s₁ h₁ => ?_
  rcases r with _ | d
  · exact (ends_pure none).mpr h₁
  · obtain ⟨h₁, hkernel, -⟩ := h₁
    have hzero : (0 : Nat) = 0 * PGSIZE := (Nat.zero_mul _).symm
    rw [hzero]
    refine (copyFrom_ends pgdir sz hk _ 0 s₁ (h₁.apart ha)).seq fun r s₂ h₂ => ?_
    have hmade := h₁.trans h₂.1
    rcases r with _ | _
    · rw [if_neg (by simp)]
      exact (freevm_back ha hmade).seq fun _ s' h' => (ends_pure none).mpr h'
    · rw [if_pos rfl, ends_pure]
      exact ⟨hmade, hkernel.of_same h₂.2, trivial⟩

end Xv6.Vm
