import Mathlib
import Xv6.Vm.Range

/-!
# The copy of an address space

What `copyuvm` makes of the parent's pages: the child has an entry with the same flags for each, and a page of its own
that holds the same.
-/

open Lib Function

namespace Xv6.Vm

variable {d pgdir x : Page} {m m' : Mem} {v w sz : Nat} {e : Entry}

/-! ## Enough memory -/

/-- There are `n` free pages, and `kalloc` fails only when there is none. -/
def Has (n : Nat) (m : Mem) : Prop := m.fails = [] ∧ n ≤ m.freelist.length

section

variable {n k : Nat}

theorem Has.mono (h : Has k m) (hn : n ≤ k) : Has n m := ⟨h.1, hn.trans h.2⟩

theorem Has.write (h : Has n m) (x : Page) (c : Contents) : Has n { m with mem := update m.mem x c } := h

theorem kalloc_has (h : Has (n + 1) m) :
    Ends kalloc (fun r m' => (∃ x, r = some x) ∧ Has n m' ∧ m'.data = m.data) m := by
  obtain ⟨hfails, hlen⟩ := h
  rcases hl : m.freelist with _ | ⟨x, l⟩
  · simp [hl] at hlen
  · have hrun : kalloc m = _ := kalloc_returns hfails hl
    unfold Ends Cmd.wp
    rw [hrun]
    rw [hl] at hlen
    exact ⟨⟨x, rfl⟩, ⟨hfails, Nat.le_of_succ_le_succ hlen⟩, rfl⟩

theorem walkpgdir_has (h : Has (n + 1) m) (va : Nat) :
    Ends (walkpgdir d va true) (fun r m' => (∃ x, r = some x) ∧ Has n m') m := by
  unfold walkpgdir
  rw [ends_get, if_pos rfl]
  split_ifs with hp
  · exact (ends_pure _).mpr ⟨⟨_, rfl⟩, h.mono (Nat.le_succ n)⟩
  · refine (kalloc_has h).seq ?_
    rintro _ m' ⟨⟨t, rfl⟩, h', -⟩
    exact (ends_memset0 t).mpr ((ends_setEntry d _ _).mpr ((ends_pure _).mpr ⟨⟨_, rfl⟩, h'⟩))

theorem mapTables_has (first last : Nat) (pa : Page) (w u : Bool) (f : BitVec 9) (i k : Nat) (h : Has (n + k) m) :
    Ends (mapTables d first last pa w u f i k) (fun r m' => r = true ∧ Has n m') m := by
  induction k generalizing i m with
  | zero => exact (ends_pure true).mpr ⟨rfl, h⟩
  | succ k ih =>
    rw [mapTables, ends_get]
    refine (walkpgdir_has h _).seq ?_
    rintro _ m' ⟨⟨⟨t, j⟩, rfl⟩, h'⟩
    rw [ends_get]
    split_ifs
    · exact ends_fail _
    · rw [ends_setPage]
      exact ih (i + 1) (h'.write _ _)

/-- How many tables `mappages` goes through. -/
def Kmap.turns (k : Kmap) : Nat :=
  (k.virt + (k.phys_end - k.phys_start) - 1) / PGSIZE / NPTENTRIES - k.virt / PGSIZE / NPTENTRIES + 1

theorem mapKernel_has (ks : List Kmap) (h : Has (n + (ks.map Kmap.turns).sum) m) :
    Ends (mapKernel d ks) (fun r m' => r = true ∧ Has n m') m := by
  induction ks generalizing m with
  | nil => exact (ends_pure true).mpr ⟨rfl, h⟩
  | cons k ks ih =>
    rw [List.map_cons, List.sum_cons, Nat.add_comm k.turns, ← Nat.add_assoc] at h
    refine (mapTables_has _ _ _ _ _ _ _ _ h).seq ?_
    rintro _ m' ⟨rfl, h'⟩
    rw [if_pos rfl]
    exact ih h'

theorem kmap_turns {data : Nat} (hlo : KERNLINK < data) (hhi : data < KERNBASE + PHYSTOP) :
    ((kmap data).map Kmap.turns).sum ≤ 66 := by
  have hfirst : Kmap.turns ⟨KERNBASE, 0, EXTMEM, true⟩ = 1 := by decide
  have hlast : Kmap.turns ⟨DEVSPACE, DEVSPACE, 2 ^ 32, true⟩ = 8 := by decide
  have hmid : Kmap.turns ⟨KERNLINK, KERNLINK - KERNBASE, data - KERNBASE, false⟩ +
      Kmap.turns ⟨data, data - KERNBASE, PHYSTOP, true⟩ ≤ 57 := by
    unfold KERNLINK KERNBASE EXTMEM at hlo
    unfold KERNBASE PHYSTOP at hhi
    simp only [Kmap.turns, KERNLINK, KERNBASE, EXTMEM, PHYSTOP, PGSIZE, NPTENTRIES, Nat.div_div_eq_div_mul]
    omega
  rw [kmap, List.map_cons, List.map_cons, List.map_cons, List.map_singleton, List.sum_cons, List.sum_cons, List.sum_cons,
    List.sum_singleton, hfirst, hlast, ← Nat.add_assoc (Kmap.turns _)]
  exact Nat.add_le_add_left (Nat.add_le_add_right hmid 8) 1

theorem setupkvm_has (hl : Linked m) (h : Has (n + 67) m) :
    Ends setupkvm (fun r m' => (∃ d, r = some d) ∧ Has n m') m := by
  unfold setupkvm
  refine (kalloc_has (n := n + 66) h).seq ?_
  rintro _ m₁ ⟨⟨d, rfl⟩, h₁, hdata⟩
  rw [ends_memset0, ends_get]
  have hturns := kmap_turns (hdata ▸ hl.data_lo) (hdata ▸ hl.data_hi)
  refine (mapKernel_has _ ((h₁.mono (Nat.add_le_add_left hturns n)).write d _)).seq ?_
  rintro _ m₂ ⟨rfl, h₂⟩
  exact (ends_pure _).mpr ⟨⟨d, rfl⟩, h₂⟩

theorem copyFrom_has (n v : Nat) (h : Has (2 * (pagesOf sz - v)) m) :
    Ends (copyFrom d pgdir sz n (v * PGSIZE)) (fun r _ => r = true) m := by
  induction n generalizing v m with
  | zero =>
    rw [copyFrom]
    split_ifs
    · exact ends_fail _
    · exact (ends_pure true).mpr rfl
  | succ n ih =>
    rw [copyFrom]
    split_ifs with hlt
    · have hv : v < pagesOf sz := Nat.not_le.mp fun hle => Nat.not_le.mpr hlt (pagesOf_le.mp hle)
      rw [ends_walk]
      split_ifs
      · dsimp only
        rw [ends_get]
        split_ifs
        · refine (kalloc_has (n := 2 * (pagesOf sz - (v + 1)) + 1) (h.mono (by omega))).seq ?_
          rintro _ m₁ ⟨⟨x, rfl⟩, h₁, -⟩
          rw [ends_setPage, mappages_page]
          refine (mapTables_has _ _ _ _ _ _ _ 1 (h₁.write x _)).seq ?_
          rintro _ m₂ ⟨rfl, h₂⟩
          rw [if_pos rfl, ← Nat.succ_mul]
          exact ih (v + 1) h₂
        · exact ends_fail _
      · exact ends_fail _
    · exact (ends_pure true).mpr rfl

theorem copyuvm_has (hl : Linked m) (h : Has (2 * pagesOf sz + 67) m) :
    Ends (copyuvm pgdir sz) (fun r _ => ∃ d, r = some d) m := by
  unfold copyuvm
  refine (setupkvm_has hl h).seq ?_
  rintro _ m₁ ⟨⟨d, rfl⟩, h₁⟩
  rw [← Nat.zero_mul PGSIZE]
  refine (copyFrom_has (2 ^ 20) 0 h₁).seq ?_
  rintro _ m₂ rfl
  exact (ends_pure _).mpr ⟨d, rfl⟩

end

structure Child (pgdir d : Page) (sz : Nat) (m m' : Mem) : Prop where
  copies : ∀ w, w * PGSIZE < sz → Copies pgdir d m m' w
  no_more : ∀ w, w < userEnd → sz ≤ w * PGSIZE → mapped (tables m'.mem d) w = none
  once : ∀ w w' e e', w < userEnd → w' < userEnd → mapped (tables m'.mem d) w = some e →
    mapped (tables m'.mem d) w' = some e' →
    e.page = e'.page → w = w'
  taken : ∀ x ∈ dirPages m'.mem d, x ∈ m.freelist ∧ x ∉ m'.freelist
  kernel : ∃ m₁, setupkvm m = (.ok (some d), m₁) ∧ ∀ k, 512 ≤ k.val → tables m'.mem d k = tables m₁.mem d k

/-- **`copyuvm` copies the address space**, or it fails and the free pages are those from before. Nothing but pages that
were free is written. It does not fail with a page for the directory, 66 for the kernel's tables and two for each page
of the process. -/
theorem copyuvm_copies (hl : Linked m) (hk : sz < KERNBASE) (hp : Pool m (dirPages m.mem pgdir))
    (hexact : ExactPages (tables m.mem pgdir) sz) :
    ∃ r m', copyuvm pgdir sz m = (.ok r, m') ∧ (∀ x, x ∉ m.freelist → m'.mem x = m.mem x) ∧
      (r = none → (m'.freelist : Multiset Page) = m.freelist) ∧ (Has (2 * pagesOf sz + 67) m → ∃ d, r = some d) ∧
      ∀ d, r = some d → Child pgdir d sz m m' := by
  have hcov := hexact.covered hk.le
  obtain ⟨r, m', hrun, ⟨hkend, hback⟩, hmakes⟩ :=
    ((copyuvm_does hl hk.le hp hcov).and (copyuvm_ends hl (hp.apart.of_le (Multiset.zero_le _)) pgdir sz hk.le)).run
  have hmoves : ∃ A, Moves m 0 m' A := by
    rcases r with _ | d
    · exact ⟨0, hmakes⟩
    · exact ⟨_, hmakes.1⟩
  obtain ⟨A, hmoves⟩ := hmoves
  refine ⟨r, m', hrun, fun x hx => hmoves.same x (by rwa [add_zero]), fun hr => ?_,
    fun hhas => (copyuvm_has hl hhas).of_ok hrun, ?_⟩
  · have := (hback hr).pages
    rwa [add_zero, add_zero] at this
  rintro d rfl
  obtain ⟨hmoves, -, -⟩ := hmakes
  -- The run is that of `setupkvm` and then of the loop.
  obtain ⟨r₁, m₁, hsetup, hkend₁, h₁⟩ := (setupkvm_does hl (hp.of_le (Multiset.zero_le _))).run
  unfold copyuvm at hrun
  rw [Cmd.bind_apply, hsetup] at hrun
  rcases r₁ with _ | d₁
  · cases hrun
  obtain ⟨hm₁, -, hlow⟩ := h₁
  have h₁ : Shifts m 0 m₁ (dirPages m₁.mem d₁) := ⟨hm₁, hkend₁⟩
  obtain ⟨hp₁, hother⟩ := h₁.beside (by rwa [zero_add])
  have hzero : (0 : Nat) = 0 * PGSIZE := (Nat.zero_mul _).symm
  have hempty : ∀ w, w < userEnd → mapped (tables m₁.mem d₁) w = none := by
    intro w hw
    rw [mapped, hlow _ (dirIx_lt hw)]
    rfl
  have hfuel : sz ≤ (0 + 2 ^ 20) * PGSIZE := hk.le.trans (by decide)
  have hcov₁ : Covered (tables m₁.mem pgdir) sz := by rwa [hother]
  have hloop := (copyFrom_does hk.le (2 ^ 20) 0 m₁ hp₁ hfuel hcov₁ fun w _ hw => hempty w hw).and
    (copyFrom_ends pgdir sz hk.le (2 ^ 20) 0 m₁ (hp₁.of_le (Multiset.le_add_right _ _)).apart)
  obtain ⟨b, m₂, hcopy, ⟨h₂, hok⟩, -, hkernel⟩ := hloop.run
  rw [← hzero] at hcopy
  dsimp only at hrun
  rw [Cmd.bind_apply, hcopy] at hrun
  rcases b with _ | _
  · dsimp only at hrun
    rw [if_neg (by simp), Cmd.bind_apply] at hrun
    split at hrun <;> cases hrun
  · cases hrun
    obtain ⟨hold, hnew, -⟩ := hok rfl
    have hp₂ : Pool m' (dirPages m'.mem d) := (hp₁.of_le (Multiset.le_add_right _ _)).shifts h₂
    have hpages : (m'.freelist : Multiset Page) + dirPages m'.mem d = m.freelist := by rw [hmoves.pages, add_zero]
    refine ⟨fun w hw => ?_, fun w hw hle => ?_, fun w w' e e' hw hw' he he' => mapped_unique hp₂.apart.nodup
      hw hw' he he', fun x hx => ⟨?_, hp₂.apart.not_free hx⟩, m₁, hsetup, hkernel⟩
    · obtain ⟨e, x, he, hx, hfree, hcontents⟩ := hnew w (Nat.zero_le _) hw
      rw [hother] at he
      have hmem : e.page ∈ dirPages m.mem pgdir := mem_dirPages_iff.mpr (.inr (.inr ⟨w, page_lt hk.le hw, e, he, rfl⟩))
      refine ⟨e, x, he, hx, ?_, hcontents.trans (hm₁.same _ ?_)⟩
      · have := hm₁.pages
        rw [add_zero] at this
        rw [← Multiset.mem_coe, ← this]
        exact Multiset.mem_add.mpr (.inl hfree)
      · rw [add_zero]
        exact hp.apart.not_free hmem
    · rw [hold w hw (by omega)]
      exact hempty w hw
    · rw [← Multiset.mem_coe, ← hpages]
      exact Multiset.mem_add.mpr (.inr hx)

theorem Exactly.of_growSize {nproc : Nat} {s : State nproc} {p : Fin nproc} {i : Image} {n : Int} {fails : List Bool}
    {r : Nat} (h : Exactly s p i) (hn : 0 < n) (hhi : n < 2 ^ 31) (hr : r ≠ 0)
    (hrun : growSize i n { s.vm with fails := fails } = (.ok r, m')) :
    Exactly ({ s with vm := m' }.set p (.live { i with sz := r })) p { i with sz := r } := by
  obtain ⟨r', m'', hrun', hg⟩ := h.grown (by omega) hhi fails
  rw [hrun] at hrun'
  cases hrun'
  rcases hg.pages with ⟨h0, -⟩ | ⟨-, -, hlt, hexact⟩ | ⟨h0, -⟩
  · exact absurd h0 hr
  · exact h.after (set_slot _ _ _) hg.shifts hlt hexact
  · omega

theorem Filled.has {m₀ : Mem} {n : Nat} (h : Filled d m₀ v m) (hfails : m₀.fails = [])
    (hlen : n + (v - 1 + (v - 1) / NPTENTRIES) ≤ m₀.freelist.length) : Has n m := by
  rw [h.rest]
  refine ⟨hfails, ?_⟩
  rw [List.length_drop]
  omega

theorem grown_exactly : Exactly grown 0 ⟨57343, 57342, 8200 * PGSIZE⟩ := by
  rw [grown]
  exact booted_exactly.of_growSize (by decide) (by decide) (by decide) grown_returns

theorem grown_has : Has (2 * pagesOf (8200 * PGSIZE) + 67) grown.vm := by
  have hdrop := afterInit_eval.2.2.1
  rw [Ne, List.drop_eq_nil_iff, Nat.not_le] at hdrop
  rw [grown_vm]
  exact afterGrow_filled.has afterInit_eval.2.1 hdrop

theorem copyuvm_copies_grown : ∃ d m', copyuvm 57342 (8200 * PGSIZE) grown.vm = (.ok (some d), m') ∧
    (∀ x, x ∉ grown.vm.freelist → m'.mem x = grown.vm.mem x) ∧ Child 57342 d (8200 * PGSIZE) grown.vm m' := by
  obtain ⟨r, m', hrun, hsame, -, hsome, hchild⟩ :=
    copyuvm_copies grown_exactly.linked grown_exactly.size grown_exactly.pool grown_exactly.pages
  obtain ⟨d, rfl⟩ := hsome grown_has
  exact ⟨d, m', hrun, hsame, hchild d rfl⟩

end Xv6.Vm
