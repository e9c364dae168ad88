import Mathlib
import Xv6.Vm.Isolation
import Xv6.Vm.Within

/-!
# Growing and shrinking a process

`growproc` adds or removes pages, or fails with the process as it was. The exception is a process that gives
back all of its memory or more: 0 is a size and an error, and a size below 0 is one above `KERNBASE`.
-/

open Lib

namespace Xv6.Vm

variable {nproc : Nat} {s s' : State nproc} {p : Fin nproc} {d pgdir : Page} {m m' : Mem} {i : Image}
    {v w sz : Nat} {n : Int}

def ExactPages (tb : Tables) (sz : Nat) : Prop := ∀ w, w < userEnd → ((mapped tb w).isSome = true ↔ w * PGSIZE < sz)

theorem ExactPages.of_same {tb tb' : Tables} (h : ExactPages tb sz)
    (hsame : ∀ w, w < userEnd → mapped tb' w = mapped tb w) :
    ExactPages tb' sz := by
  intro w hw
  rw [hsame w hw]
  exact h w hw

theorem ExactPages.covered {tb : Tables} (h : ExactPages tb sz) (hk : sz ≤ KERNBASE) : Covered tb sz := by
  intro w hw
  rw [← mapped_isSome]
  exact (h w (page_lt hk hw)).mpr hw

theorem allocuvm_exact (hp : Pool m (dirPages m.mem d)) (hu : ExactPages (tables m.mem d) sz) {newsz : Nat}
    (hle : sz ≤ newsz) :
    Does (allocuvm d sz newsz) (fun r m' => Shifts m (dirPages m.mem d) m' (dirPages m'.mem d) ∧
      (r = 0 ∧ (∀ w, w < userEnd → mapped (tables m'.mem d) w = mapped (tables m.mem d) w) ∨
        newsz < KERNBASE ∧ r = newsz ∧ ExactPages (tables m'.mem d) newsz)) m := by
  have hfree : ∀ w, sz ≤ w * PGSIZE → w * PGSIZE < newsz → newsz < KERNBASE → mapped (tables m.mem d) w = none := by
    intro w hlo hhi hk
    rw [← Option.isNone_iff_eq_none, ← Option.isSome_eq_false_iff, Bool.eq_false_iff]
    intro hsome
    have := (hu w (page_lt hk.le hhi)).mp hsome
    omega
  by_cases hk : newsz < KERNBASE
  · refine (allocuvm_does hp sz newsz fun w hlo hhi => hfree w hlo hhi hk).mono fun r m' ⟨h, _, hor⟩ => ⟨h, ?_⟩
    rcases hor with ⟨hsame, hr⟩ | ⟨_, hr, hmaps⟩
    · exact .inl ⟨hr, hsame⟩
    · refine .inr ⟨hk, by rw [hr, Nat.max_eq_right hle], fun w hw => ?_⟩
      by_cases hin : pagesOf sz ≤ w ∧ w * PGSIZE < newsz
      · obtain ⟨x, hx⟩ := hmaps.new w hin.1 hin.2
        rw [hx]
        exact iff_of_true rfl hin.2
      · rw [hmaps.old w hw hin, hu w hw]
        rw [pagesOf_le] at hin
        omega
  · unfold allocuvm
    rw [if_pos (Nat.not_lt.mp hk), does_pure]
    exact ⟨.refl, .inl ⟨rfl, fun _ _ => rfl⟩⟩

theorem deallocuvm_exact (hp : Pool m (dirPages m.mem d)) (hk : sz < KERNBASE) (hu : ExactPages (tables m.mem d) sz)
    {newsz : Nat}
    (hle : newsz ≤ sz) : Does (deallocuvm d sz newsz) (fun r m' => Shifts m (dirPages m.mem d) m' (dirPages m'.mem d) ∧
      r = newsz ∧ ExactPages (tables m'.mem d) newsz) m := by
  refine (deallocuvm_does hp sz newsz hk.le).mono fun r m' ⟨hr, h⟩ => ⟨h.shifts, by omega, fun w hw => ?_⟩
  rw [h.user w hw]
  split_ifs with hin <;> rw [pagesOf_le] at hin
  · exact iff_of_false (by simp) (by omega)
  · rw [hu w hw]
    omega

structure Grown (d : Page) (sz : Nat) (n : Int) (m : Mem) (r : Nat) (m' : Mem) : Prop where
  shifts : Shifts m (dirPages m.mem d) m' (dirPages m'.mem d)
  pages : r = 0 ∧ 0 < n ∧ (∀ w, w < userEnd → mapped (tables m'.mem d) w = mapped (tables m.mem d) w) ∨
    0 ≤ sz + n ∧ (r : Int) = sz + n ∧ r < KERNBASE ∧ ExactPages (tables m'.mem d) r ∨
    sz + n < 0 ∧ r = sz ∧ tables m'.mem d = tables m.mem d

theorem growSize_does (hp : Pool m (dirPages m.mem i.pgdir)) (hk : i.sz < KERNBASE)
    (hu : ExactPages (tables m.mem i.pgdir) i.sz)
    (hlo : -2 ^ 31 ≤ n) (hhi : n < 2 ^ 31) : Does (growSize i n) (Grown i.pgdir i.sz n m) m := by
  have hk' : i.sz < 2 ^ 31 := hk
  unfold growSize
  split_ifs with hpos hneg
  · have hnew : (((i.sz : Int) + n) % 2 ^ 32).toNat = (i.sz + n).toNat := by omega
    rw [hnew]
    refine (allocuvm_exact hp hu (by omega)).mono fun r m' ⟨h, hor⟩ => ⟨h, ?_⟩
    rcases hor with ⟨hr, hsame⟩ | ⟨hlt, hr, hexact⟩
    · exact .inl ⟨hr, hpos, hsame⟩
    · exact .inr (.inl ⟨by omega, by omega, by omega, by rwa [hr]⟩)
  · by_cases hwrap : (i.sz : Int) + n < 0
    · -- The new size is not below the old one.
      unfold deallocuvm
      rw [if_pos (by omega), does_pure]
      exact ⟨.refl, .inr (.inr ⟨hwrap, rfl, rfl⟩)⟩
    · have hnew : (((i.sz : Int) + n) % 2 ^ 32).toNat = (i.sz + n).toNat := by omega
      rw [hnew]
      refine (deallocuvm_exact hp hk hu (by omega)).mono fun r m' ⟨h, hr, hexact⟩ => ⟨h, ?_⟩
      exact .inr (.inl ⟨by omega, by omega, by omega, by rwa [hr]⟩)
  · obtain rfl : n = 0 := by omega
    exact (does_pure _).mpr ⟨.refl, .inr (.inl ⟨by omega, by omega, hk, hu⟩)⟩

theorem copyuvm_does (hl : Linked m) (hk : sz ≤ KERNBASE) (hp : Pool m (dirPages m.mem pgdir))
    (hcov : Covered (tables m.mem pgdir) sz) :
    Does (copyuvm pgdir sz) (fun r m' => m'.kend = m.kend ∧ (r = none → Moves m 0 m' 0)) m := by
  have hret : Does (copyuvm pgdir sz) (fun _ m' => m'.kend = m.kend) m := by
    unfold copyuvm
    refine (setupkvm_does hl (hp.of_le (Multiset.zero_le _))).seq ?_
    rintro r m₁ ⟨hkend, h₁⟩
    rcases r with _ | d
    · exact (does_pure none).mpr hkend
    · obtain ⟨hm₁, -, hnone⟩ := h₁
      have h₁ : Shifts m 0 m₁ (dirPages m₁.mem d) := ⟨hm₁, hkend⟩
      obtain ⟨hp₁, hother⟩ := h₁.beside (by rwa [zero_add])
      have hzero : (0 : Nat) = 0 * PGSIZE := (Nat.zero_mul _).symm
      rw [hzero]
      have hfuel : sz ≤ (0 + 2 ^ 20) * PGSIZE := hk.trans (by decide)
      refine (copyFrom_does hk _ 0 m₁ hp₁ hfuel (by rwa [hother]) fun w _ hw => ?_).seq fun r m₂ ⟨h₂, _⟩ => ?_
      · rw [mapped, hnone _ (dirIx_lt hw)]
        rfl
      · rcases r with _ | _
        · rw [if_neg (by simp)]
          have hp₂ := (hp₁.of_le (Multiset.le_add_right _ _)).shifts h₂
          exact (freevm_does hp₂).seq fun _ m' h' => (does_pure none).mpr (h'.kend.trans (h₂.kend.trans hkend))
        · rw [if_pos rfl, does_pure]
          exact h₂.kend.trans hkend
  refine (hret.and (copyuvm_ends hl (hp.apart.of_le (Multiset.zero_le _)) pgdir sz hk)).mono ?_
  rintro r m' ⟨hkend, hmakes⟩
  refine ⟨hkend, ?_⟩
  rintro rfl
  exact hmakes

theorem forkImage_does (hl : Linked m) (hk : i.sz < KERNBASE) (hp : Pool m (dirPages m.mem i.pgdir))
    (hcov : Covered (tables m.mem i.pgdir) i.sz) : Does (forkImage i) (fun _ _ => True) m := by
  unfold forkImage
  refine (kalloc_does (dirPages m.mem i.pgdir)).seq fun r m₁ ⟨h₁, hmem₁⟩ => ?_
  rcases r with _ | kstack
  · exact (does_pure none).mpr trivial
  · have hp₁ := hp.shifts h₁
    rw [← hmem₁] at hp₁ hcov
    refine (copyuvm_does (hl.moves h₁.moves) hk.le (hp₁.of_le (Multiset.le_add_left _ _)) hcov).seq
      fun r m₂ ⟨hkend, hback⟩ => ?_
    rcases r with _ | pgdir
    · have hm := hback rfl
      obtain ⟨hlo, hhi⟩ := hp₁.mem (Multiset.mem_add.mpr (.inl (Multiset.mem_singleton_self kstack)))
      rw [← hkend] at hlo
      exact (kfree_does kstack hlo hhi).seq fun _ _ _ => (does_pure none).mpr trivial
    · exact (does_pure _).mpr trivial

structure Exactly (s : State nproc) (p : Fin nproc) (i : Image) : Prop where
  live : s.slot p = .live i
  linked : Linked s.vm
  pool : Pool s.vm (dirPages s.vm.mem i.pgdir)
  size : i.sz < KERNBASE
  pages : ExactPages (tables s.vm.mem i.pgdir) i.sz

/-- `growproc` returns, with the new size and its pages or with nothing changed, and the process can fork. -/
def AllOrNothing (s : State nproc) (p : Fin nproc) (i : Image) (n : Int) (fails : List Bool) : Prop :=
  ∃ b s' i', growproc s p n fails = some (b, s') ∧ Exactly s' p i' ∧ i'.pgdir = i.pgdir ∧
    (b = true → (i'.sz : Int) = i.sz + n) ∧
    (b = false → i' = i ∧ ∀ w, w < userEnd → mapped (tables s'.vm.mem i.pgdir) w = mapped (tables s.vm.mem i.pgdir) w) ∧
    ∀ fails, ∃ r, fork s' p fails = some r

theorem Pool.fails {A : Multiset Page} (hp : Pool m A) (fails : List Bool) : Pool { m with fails := fails } A :=
  ⟨hp.apart, hp.kend, hp.range⟩

theorem Linked.fails (hl : Linked m) (fails : List Bool) : Linked { m with fails := fails } :=
  ⟨hl.data_aligned, hl.data_lo, hl.data_hi⟩

theorem Exactly.fork (h : Exactly s p i) (fails : List Bool) : ∃ r, fork s p fails = some r := by
  have hcov : Covered (tables s.vm.mem i.pgdir) i.sz := h.pages.covered h.size.le
  obtain ⟨r, m', hrun, -⟩ := (forkImage_does (h.linked.fails fails) h.size (h.pool.fails fails) hcov).run
  unfold Vm.fork State.onVm
  rw [h.live]
  dsimp only
  split
  · rw [hrun]
    exact ⟨_, rfl⟩
  · exact ⟨_, rfl⟩

theorem growproc_eq (hlive : s.slot p = .live i) {fails : List Bool} {r : Nat}
    (hrun : growSize i n { s.vm with fails := fails } = (.ok r, m')) :
    growproc s p n fails = some (if r = 0 ∧ n ≠ 0 then (false, { s with vm := m' })
      else (true, { s with vm := m' }.set p (.live { i with sz := r }))) := by
  unfold growproc State.onVm
  rw [hlive]
  dsimp only
  rw [hrun]
  rfl

theorem Exactly.grown (h : Exactly s p i) (hlo : -2 ^ 31 ≤ n) (hhi : n < 2 ^ 31) (fails : List Bool) :
    ∃ r m', growSize i n { s.vm with fails := fails } = (.ok r, m') ∧
    Grown i.pgdir i.sz n { s.vm with fails := fails } r m' :=
  (growSize_does (h.pool.fails fails) h.size h.pages hlo hhi).run

theorem Exactly.after (h : Exactly s p i) {fails : List Bool} {r : Nat} {s' : State nproc}
    (hslot : s'.slot p = .live { i with sz := r })
    (hg : Shifts { s.vm with fails := fails } (dirPages s.vm.mem i.pgdir) s'.vm (dirPages s'.vm.mem i.pgdir))
    (hr : r < KERNBASE) (hexact : ExactPages (tables s'.vm.mem i.pgdir) r) : Exactly s' p { i with sz := r } :=
  ⟨hslot, (h.linked.fails fails).moves hg.moves, (h.pool.fails fails).shifts hg, hr, hexact⟩

theorem set_slot (s : State nproc) (p : Fin nproc) (v : Slot) : (s.set p v).slot p = v := Function.update_self ..

/-- **`growproc` is all or nothing** for every number but those that take all of the process's memory or more. -/
theorem growproc_all_or_nothing (h : Exactly s p i) (n : Int) (hlo : -2 ^ 31 ≤ n) (hhi : n < 2 ^ 31)
    (fails : List Bool) :
    AllOrNothing s p i n fails ↔ i.sz = 0 ∨ 0 < i.sz + n := by
  obtain ⟨r, m', hrun, hg⟩ := h.grown hlo hhi fails
  have heq := growproc_eq h.live hrun
  constructor
  · rintro ⟨b, s', i', hgrow, hexact, -, htrue, hfalse, -⟩
    rw [heq] at hgrow
    by_contra hnot
    rw [not_or] at hnot
    have hfirst : 0 < userEnd := by decide
    rcases hg.pages with ⟨-, hpos, -⟩ | ⟨hnn, hr, -, hpages⟩ | ⟨hneg, hr, -⟩
    · omega
    · -- The size is 0, which is taken for an error.
      have hr0 : r = 0 := by omega
      rw [if_pos ⟨hr0, by omega⟩] at hgrow
      obtain ⟨rfl, rfl⟩ := Prod.mk.inj (Option.some.inj hgrow)
      have hsame := (hfalse rfl).2 0 hfirst
      have hold := (h.pages 0 hfirst).mpr (by omega)
      have hnew := hpages 0 hfirst
      rw [← hsame, hnew] at hold
      omega
    · rw [if_neg (by omega)] at hgrow
      obtain ⟨rfl, rfl⟩ := Prod.mk.inj (Option.some.inj hgrow)
      have hlive := hexact.live
      rw [set_slot] at hlive
      cases hlive
      have := htrue rfl
      omega
  · intro hcond
    have hgsame : (∀ w, w < userEnd → mapped (tables m'.mem i.pgdir) w = mapped (tables s.vm.mem i.pgdir) w) →
      r = 0 → n ≠ 0 →
        AllOrNothing s p i n fails := by
      intro hsame hr hn
      rw [if_pos ⟨hr, hn⟩] at heq
      have hafter : Exactly { s with vm := m' } p i :=
        h.after (r := i.sz) h.live hg.shifts h.size (h.pages.of_same hsame)
      exact ⟨false, _, i, heq, hafter, rfl, nofun, fun _ => ⟨rfl, hsame⟩, hafter.fork⟩
    rcases hg.pages with ⟨hr, hpos, hsame⟩ | ⟨hnn, hr, hlt, hpages⟩ | ⟨hneg, hr, htables⟩
    · exact hgsame hsame hr (by omega)
    · by_cases hzero : r = 0 ∧ n ≠ 0
      · omega
      · rw [if_neg hzero] at heq
        have hafter : Exactly ({ s with vm := m' }.set p (.live { i with sz := r })) p { i with sz := r } :=
          h.after (set_slot ..) hg.shifts hlt hpages
        exact ⟨true, _, _, heq, hafter, rfl, fun _ => hr, nofun, hafter.fork⟩
    · -- A process without memory that gives memory back.
      exact hgsame (fun _ _ => by rw [htables]) (by omega) (by omega)

theorem OnePage.exact {tb : Tables} (h : OnePage tb) : ExactPages tb PGSIZE := by
  obtain ⟨x, hx⟩ := h
  intro w hw
  have hmapped : mapped tb w = mapped (put (fun _ => none) 0 ⟨x, true, true, true, 0⟩) w := by
    unfold mapped
    rw [hx _ (dirIx_lt hw)]
  rw [hmapped, mapped_put _ _ rfl (by decide) hw]
  have hpage : w * PGSIZE < PGSIZE ↔ w = 0 := by
    rw [show PGSIZE = 4096 from rfl]
    omega
  rw [hpage]
  split_ifs with h0
  · exact iff_of_true rfl h0
  · exact iff_of_false (by simp [mapped]) h0

set_option maxRecDepth 100000 in
theorem afterInit_kend : afterInit.kend = 0x116 := by decide +kernel

theorem dir_le_places (h : (s.slot p).image = some i) :
    (s.vm.freelist : Multiset Page) + dirPages s.vm.mem i.pgdir ≤ s.places := by
  unfold State.places State.owned
  refine add_le_add le_rfl (le_trans (dir_le_slots h) (le_trans ?_ (Multiset.le_add_right _ _)))
  exact Multiset.le_add_right _ _

theorem booted_exactly : Exactly booted 0 ⟨57343, 57342, PGSIZE⟩ := by
  obtain ⟨hi, hone⟩ := init_inv booted_init
  have himage : (booted.slot 0).image = some ⟨57343, 57342, PGSIZE⟩ := by rw [booted_slot]; rfl
  have hkend : booted.vm.kend = 0x116 := by rw [booted_vm, afterInit_kend]
  refine ⟨booted_slot, hi.linked, ⟨?_, by rw [hkend]; decide, fun x hx => ?_⟩, by decide, (hone 0 _ himage).exact⟩
  · exact (hi.apart_image himage).of_le (Multiset.le_add_left _ _)
  · have hmem := Multiset.mem_of_le (dir_le_places himage) hx
    rw [hi.places] at hmem
    have hall : x ∈ lowPages ++ highPages := hmem
    rw [allPages_eq, List.mem_range'_1] at hall
    rw [hkend]
    exact ⟨hall.1, hall.2⟩

/-- The first process gives back its only page: the page is gone and `sbrk` fails. It gives back two pages: `sbrk`
succeeds and nothing happens. -/
theorem growproc_loses_pages : Init booted ∧ booted.slot 0 = .live ⟨57343, 57342, PGSIZE⟩ ∧
    (∃ s', growproc booted 0 (-4096) [] = some (false, s') ∧ s'.slot 0 = .live ⟨57343, 57342, PGSIZE⟩ ∧
      (mapped (tables booted.vm.mem 57342) 0).isSome = true ∧ mapped (tables s'.vm.mem 57342) 0 = none) ∧
    ∃ s', growproc booted 0 (-8192) [] = some (true, s') ∧ s'.slot 0 = .live ⟨57343, 57342, PGSIZE⟩ := by
  refine ⟨booted_init, booted_slot, ?_, ?_⟩
  · obtain ⟨r, m', hrun, hg⟩ := booted_exactly.grown (n := -4096) (by decide) (by decide) []
    have heq := growproc_eq booted_slot hrun
    have hsz : ((⟨57343, 57342, PGSIZE⟩ : Image).sz : Int) = 4096 := rfl
    have hfirst : 0 < userEnd := by decide
    rcases hg.pages with ⟨-, hpos, -⟩ | ⟨-, hr, -, hpages⟩ | ⟨hneg, -, -⟩
    · omega
    · have hr0 : r = 0 := by omega
      rw [if_pos ⟨hr0, by decide⟩] at heq
      refine ⟨_, heq, booted_slot, (booted_exactly.pages 0 hfirst).mpr (by decide), ?_⟩
      rw [← Option.not_isSome_iff_eq_none, hpages 0 hfirst]
      omega
    · omega
  · obtain ⟨r, m', hrun, hg⟩ := booted_exactly.grown (n := -8192) (by decide) (by decide) []
    have heq := growproc_eq booted_slot hrun
    have hsz : ((⟨57343, 57342, PGSIZE⟩ : Image).sz : Int) = 4096 := rfl
    rcases hg.pages with ⟨-, hpos, -⟩ | ⟨hnn, -⟩ | ⟨-, hr, -⟩
    · omega
    · omega
    · rw [if_neg (by omega)] at heq
      exact ⟨_, heq, by rw [set_slot, hr]⟩

theorem growproc_all_or_nothing_grows : AllOrNothing booted 0 ⟨57343, 57342, PGSIZE⟩ 10000 [] :=
  (growproc_all_or_nothing booted_exactly 10000 (by decide) (by decide) []).mpr (.inr (by decide))

end Xv6.Vm
