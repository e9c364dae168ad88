import Mathlib
import Xv6.Vm.Total

/-!
# Pages of their own

What the functions of `vm.c` write to: free pages, the directory and its tables. A user page keeps what it holds, and a
page that is newly mapped was free.
-/

open Lib Function

namespace Xv6.Vm

variable {d pgdir m x y : Page} {s s' s'' : Mem} {v w w' sz : Nat} {mem : Page → Contents} {e e' : Entry}
  {T : Page → Prop}

theorem mapped_eq_some : mapped (tables mem d) w = some e ↔
    (mem d (dirIx w)).p = true ∧ e.p = true ∧ mem (mem d (dirIx w)).page (tabIx w) = e := by
  unfold mapped tables
  split_ifs with hp
  · rw [Option.bind_some, Option.ite_none_right_eq_some, Option.some.injEq, and_iff_right hp]
    constructor
    · rintro ⟨hj, rfl⟩
      exact ⟨hj, rfl⟩
    · rintro ⟨hj, rfl⟩
      exact ⟨hj, rfl⟩
  · simp [hp]

theorem mem_dirPages_iff : x ∈ dirPages mem d ↔ x = d ∨ (∃ i, (mem d i).p = true ∧ (mem d i).page = x) ∨
    ∃ w, w < userEnd ∧ ∃ e, mapped (tables mem d) w = some e ∧ e.page = x := by
  constructor
  · intro hx
    rcases mem_dirPages.mp hx with rfl | ⟨i, hi⟩
    · exact .inl rfl
    · rw [slotPages] at hi
      split_ifs at hi with hp
      · rcases Multiset.mem_add.mp hi with htable | huser
        · exact .inr (.inl ⟨i, hp, (Multiset.mem_singleton.mp htable).symm⟩)
        · rw [userPages] at huser
          split_ifs at huser with hlow
          · obtain ⟨j, hj, hpage⟩ := mem_tablePages.mp huser
            refine .inr (.inr ⟨NPTENTRIES * i.val + j.val, entry_lt_userEnd hlow j, mem (mem d i).page j, ?_, hpage⟩)
            rw [mapped_eq_some, dirIx_entry, tabIx_entry]
            exact ⟨hp, hj, rfl⟩
          · exact absurd huser (Multiset.notMem_zero _)
      · exact absurd hi (Multiset.notMem_zero _)
  · rintro (rfl | ⟨i, hp, rfl⟩ | ⟨w, hw, e, he, rfl⟩)
    · exact dir_mem
    · exact table_mem hp
    · obtain ⟨hdir, hp, rfl⟩ := mapped_eq_some.mp he
      exact slot_mem (user_mem_slot (dirIx_lt hw) hdir hp)

def Open (s : Mem) (d x : Page) : Prop := x ∈ s.freelist ∨ x = d ∨ ∃ i, (s.mem d i).p = true ∧ (s.mem d i).page = x

theorem mapped_not_open (ha : Apart s (dirPages s.mem d)) (hw : w < userEnd) (he : mapped (tables s.mem d) w = some e) :
    ¬ Open s d e.page := by
  obtain ⟨hdir, hp, rfl⟩ := mapped_eq_some.mp he
  have hlow := dirIx_lt hw
  rintro (hfree | hd | ⟨i, hi, hpage⟩)
  · exact ha.not_free (slot_mem (user_mem_slot hlow hdir hp)) hfree
  · exact slot_ne_dir ha.nodup (user_mem_slot hlow hdir hp) hd
  · exact user_ne_table ha.nodup hlow hdir hp hi hpage

structure Within (T : Page → Prop) (d : Page) (s s' : Mem) : Prop where
  inside : ∀ x, Open s' d x → T x
  same : ∀ x, ¬ T x → s'.mem x = s.mem x

theorem Within.refl (hT : ∀ x, Open s d x → T x) : Within T d s s := ⟨hT, fun _ _ => rfl⟩

theorem Within.trans (h : Within T d s s') (h' : Within T d s' s'') : Within T d s s'' :=
  ⟨h'.inside, fun x hx => (h'.same x hx).trans (h.same x hx)⟩

theorem Within.mono {T' : Page → Prop} (h : Within T d s s') (hT : ∀ x, T x → T' x) : Within T' d s s' :=
  ⟨fun x hx => hT x (h.inside x hx), fun x hx => h.same x fun hx' => hx (hT x hx')⟩

theorem Within.write (h : Within T d s s') (hx : T x) (hne : x ≠ d) (c : Contents) :
    Within T d s { s' with mem := update s'.mem x c } := by
  refine ⟨fun y hy => h.inside y ?_, fun y hy => ?_⟩
  · unfold Open at hy
    dsimp only at hy
    rwa [update_of_ne hne.symm] at hy
  · dsimp only
    rw [update_of_ne, h.same y hy]
    rintro rfl
    exact hy hx

structure Adds (d : Page) (s s' : Mem) : Prop where
  free : s'.freelist ⊆ s.freelist
  dir : ∀ k, (s.mem d k).p = true → s'.mem d k = s.mem d k

theorem Adds.refl : Adds d s s := ⟨fun _ h => h, fun _ _ => rfl⟩

theorem Adds.trans (h : Adds d s s') (h' : Adds d s' s'') : Adds d s s'' := by
  refine ⟨fun _ hx => h.free (h'.free hx), fun k hp => ?_⟩
  rw [h'.dir k (by rwa [h.dir k hp]), h.dir k hp]

theorem Adds.write (h : Adds d s s') (hne : x ≠ d) (c : Contents) : Adds d s { s' with mem := update s'.mem x c } := by
  refine ⟨h.free, fun k hp => ?_⟩
  dsimp only
  rw [update_of_ne hne.symm, h.dir k hp]

section

variable (hT : ∀ x, Open s d x → T x)
include hT

theorem kalloc_within : Ends kalloc (fun r s' => Within T d s s' ∧ Adds d s s' ∧ ∀ x, r = some x →
    x ∈ s.freelist) s := by
  refine (kalloc_ends 0).mono fun r s' ⟨h, hmem⟩ => ?_
  have hpages := h.pages
  rw [add_zero, add_zero] at hpages
  have hsub : s'.freelist ⊆ s.freelist := by
    intro x hx
    rw [← Multiset.mem_coe, ← hpages]
    exact Multiset.mem_add.mpr (.inl hx)
  refine ⟨⟨fun x hx => hT x ?_, fun x _ => by rw [hmem]⟩, ⟨hsub, fun _ _ => by rw [hmem]⟩, ?_⟩
  · unfold Open at hx ⊢
    rw [hmem] at hx
    exact hx.imp_left fun hfree => hsub hfree
  · rintro x rfl
    rw [← Multiset.mem_coe, ← hpages]
    exact Multiset.mem_add.mpr (.inr (Multiset.mem_singleton_self x))

theorem kfree_within (hx : T x) (hxd : x ≠ d) : Ends (kfree x) (fun _ s' => Within T d s s') s := by
  refine (kfree_ends x).mono fun _ s' ⟨h, hmem⟩ => ⟨fun y hy => ?_, fun y hy => hmem y ?_⟩
  · have hpages := (h 0).pages
    rw [add_zero, add_zero] at hpages
    rcases hy with hfree | rfl | ⟨i, hi, hpage⟩
    · rw [← Multiset.mem_coe, hpages] at hfree
      rcases Multiset.mem_add.mp hfree with hfree | hself
      · exact hT y (.inl hfree)
      · rwa [Multiset.mem_singleton.mp hself]
    · exact hT y (.inr (.inl rfl))
    · rw [hmem d hxd.symm] at hi hpage
      exact hT y (.inr (.inr ⟨i, hi, hpage⟩))
  · rintro rfl
    exact hy hx

variable (ha : Apart s (dirPages s.mem d))
include ha

theorem walkpgdir_within (va : Nat) : Ends (walkpgdir d va true) (fun _ s' => Within T d s s' ∧ Adds d s s') s := by
  unfold walkpgdir
  rw [ends_get, if_pos rfl]
  split_ifs with hp
  · exact (ends_pure _).mpr ⟨.refl hT, .refl⟩
  · refine (kalloc_within hT).seq fun r s₁ ⟨h₁, hadds, hr⟩ => ?_
    rcases r with _ | t
    · exact (ends_pure none).mpr ⟨h₁, hadds⟩
    · have htfree := hr t rfl
      have htd : t ≠ d := by
        rintro rfl
        exact ha.not_free dir_mem htfree
      rw [ends_memset0, ends_setEntry, ends_pure]
      have h₂ := h₁.write (hT t (.inl htfree)) htd fun _ => .zero
      have hadds₂ := hadds.write htd fun _ => .zero
      refine ⟨⟨fun y hy => ?_, fun y hy => ?_⟩, hadds₂.free, fun k hk => ?_⟩
      · rcases hy with hfree | rfl | ⟨i, hi, hpage⟩
        · exact h₂.inside y (.inl hfree)
        · exact hT y (.inr (.inl rfl))
        · dsimp only at hi hpage
          rw [update_self, update_apply] at hi hpage
          split_ifs at hi hpage with hix
          · obtain rfl : t = y := hpage
            exact hT t (.inl htfree)
          · exact h₂.inside y (.inr (.inr ⟨i, hi, hpage⟩))
      · dsimp only
        rw [update_of_ne, ← h₂.same y hy]
        rintro rfl
        exact hy (hT y (.inr (.inl rfl)))
      · dsimp only
        rw [update_self, update_of_ne]
        · exact hadds₂.dir k hk
        · rintro rfl
          exact hp hk

theorem mappages_within (v : Nat) (m : Page) (w u : Bool) (f : BitVec 9) :
    Ends (mappages d (v * PGSIZE) PGSIZE m w u f) (fun _ s' => Within T d s s' ∧ Adds d s s') s := by
  rw [mappages_page, mapTables, ends_get]
  refine ((walkpgdir_ends ha _).and (walkpgdir_within hT ha _)).seq ?_
  rintro r s₁ ⟨⟨h₁, _, hsome⟩, hin, hadds⟩
  rcases r with _ | ⟨t, j⟩
  · exact (ends_pure false).mpr ⟨hin, hadds⟩
  · obtain ⟨hp, rfl, -⟩ := hsome t j rfl
    rw [ends_get]
    split_ifs
    · exact ends_fail _
    · rw [ends_setPage, mapTables, ends_pure]
      have hne := table_ne_dir (h₁.apart ha).nodup hp
      exact ⟨hin.write (hin.inside _ (.inr (.inr ⟨_, hp, rfl⟩))) hne _, hadds.write hne _⟩

theorem freeEntry_within {i : Fin NPTENTRIES} (hi : i.val < 512) (hp : (s.mem d i).p = true) (j : Fin NPTENTRIES)
    (huser : (s.mem (s.mem d i).page j).p = true → T (s.mem (s.mem d i).page j).page) :
    Ends (freeEntry (s.mem d i).page j) (fun _ s' => Within T d s s') s := by
  unfold freeEntry
  rw [ends_get]
  split_ifs with hj hzero
  · exact ends_fail _
  · refine (kfree_within hT (huser hj) (slot_ne_dir ha.nodup (user_mem_slot hi hp hj))).seq fun _ s₁ h₁ => ?_
    rw [ends_setEntry_last]
    exact h₁.write (hT _ (.inr (.inr ⟨i, hp, rfl⟩))) (table_ne_dir ha.nodup hp) _
  · exact (ends_pure ()).mpr (.refl hT)

end

theorem deallocFrom_within (oldsz : Nat) (hk : oldsz ≤ KERNBASE) (n v : Nat) (s : Mem) (hT : ∀ x, Open s d x → T x)
    (ha : Apart s (dirPages s.mem d)) (huser : ∀ w, v ≤ w → w * PGSIZE < oldsz →
      ∀ e, mapped (tables s.mem d) w = some e → T e.page) :
    Ends (deallocFrom d oldsz n (v * PGSIZE)) (fun _ s' => Within T d s s') s := by
  induction n generalizing v s with
  | zero =>
    rw [deallocFrom]
    split_ifs
    · exact ends_fail _
    · exact (ends_pure ()).mpr (.refl hT)
  | succ n ih =>
    rw [deallocFrom]
    split_ifs with hlt
    · have hv : v < userEnd := page_lt hk hlt
      rw [ends_walk, PDX_page, PTX_page]
      split_ifs with hdir
      · have hfree := freeEntry_within hT ha (dirIx_lt hv) hdir (tabIx v) fun hj =>
          huser v le_rfl hlt _ (mapped_eq_some.mpr ⟨hdir, hj, rfl⟩)
        refine ((freeEntry_ends ha (dirIx_lt hv) hdir (tabIx v)).and hfree).seq ?_
        rintro _ s₁ ⟨⟨hm, _, c, htb, hc, hsame⟩, h₁⟩
        rw [← Nat.succ_mul]
        refine (ih (v + 1) s₁ h₁.inside (hm.apart ha) fun w hvw hw e he => ?_).mono fun _ s' h' => h₁.trans h'
        have hset := mapped_set (c := c) (c (tabIx v)) hv (page_lt hk hw)
          (fun k hk => by rw [hsame k hk, opened_some (tables_some hdir)]) rfl
        rw [← htb, if_neg (by omega)] at hset
        exact huser w (by omega) hw e (hset.symm.trans he)
      · rw [next_table]
        refine ih _ s hT ha fun w hvw hw e he => huser w (le_trans ?_ hvw) hw e he
        exact (lt_next_table v).le
    · exact (ends_pure ()).mpr (.refl hT)

theorem deallocuvm_within (oldsz newsz : Nat) (hk : oldsz ≤ KERNBASE) (hT : ∀ x, Open s d x → T x)
    (ha : Apart s (dirPages s.mem d))
    (huser : ∀ w, pagesOf newsz ≤ w → w * PGSIZE < oldsz → ∀ e, mapped (tables s.mem d) w = some e → T e.page) :
    Ends (deallocuvm d oldsz newsz) (fun _ s' => Within T d s s') s := by
  unfold deallocuvm
  split_ifs
  · exact (ends_pure _).mpr (.refl hT)
  · rw [PGROUNDUP_eq]
    exact (deallocFrom_within oldsz hk _ _ s hT ha huser).seq fun _ s' h' => (ends_pure _).mpr h'

def Fresh (d : Page) (lo hi : Nat) (s s' : Mem) : Prop :=
  ∀ w, lo ≤ w → w * PGSIZE < hi → ∀ e, mapped (tables s'.mem d) w = some e → e.page ∈ s.freelist ∧ s'.mem e.page = zeros

theorem held_not_open (ha : Apart s ({m} + dirPages s.mem d)) : ¬ Open s d m := by
  have hm : m ∉ dirPages s.mem d := not_mem_of_nodup_add ha.nodup (Multiset.mem_singleton_self m)
  rintro (hfree | rfl | ⟨i, hi, hpage⟩)
  · exact ha.not_free (Multiset.mem_add.mpr (.inl (Multiset.mem_singleton_self m))) hfree
  · exact hm dir_mem
  · exact hm (hpage ▸ table_mem hi)

/-! ## A new page -/

/-- Page `x` was free and has been taken, and it is not mapped yet. -/
structure Taken (d x : Page) (s s' : Mem) : Prop where
  shifts : Shifts s (dirPages s.mem d) s' ({x} + dirPages s'.mem d)
  same : tables s'.mem d = tables s.mem d
  free : x ∈ s.freelist
  within : Within (Open s d) d s s'
  adds : Adds d s s'

/-- Page `v` has been given the entry `e`, for a page that was free. -/
structure Placed (d : Page) (v : Nat) (e : Entry) (s s' : Mem) : Prop where
  shifts : Shifts s (dirPages s.mem d) s' (dirPages s'.mem d)
  user : ∀ w, w < userEnd → mapped (tables s'.mem d) w = if w = v then some e else mapped (tables s.mem d) w
  kernel : ∀ k, 512 ≤ k.val → tables s'.mem d k = tables s.mem d k
  free : e.page ∈ s.freelist
  within : Within (Open s d) d s s'
  adds : Adds d s s'

theorem kfree_back (hp : Pool s ({x} + dirPages s.mem d)) :
    Does (kfree x) (fun _ s' => Shifts s ({x} + dirPages s.mem d) s' (dirPages s'.mem d) ∧
      tables s'.mem d = tables s.mem d ∧ ∀ y, y ≠ x → s'.mem y = s.mem y) s := by
  obtain ⟨hlo, hhi⟩ := hp.mem (Multiset.mem_add.mpr (.inl (Multiset.mem_singleton_self x)))
  refine ((kfree_does x hlo hhi).and (kfree_held hp.apart)).mono ?_
  rintro _ s' ⟨⟨hk, hmem⟩, hm, htables⟩
  exact ⟨⟨hm, (hk 0).kend⟩, htables, hmem⟩

section

variable (hp : Pool s (dirPages s.mem d))
include hp

theorem Pool.free_ne_dir (hx : x ∈ s.freelist) : x ≠ d := by
  rintro rfl
  exact hp.apart.not_free dir_mem hx

theorem kalloc_taken : Does kalloc (fun r s' =>
    (r = none → Shifts s (dirPages s.mem d) s' (dirPages s'.mem d) ∧ s'.mem = s.mem ∧ Within (Open s d) d s s') ∧
    ∀ x, r = some x → ∀ c, Taken d x s { s' with mem := update s'.mem x c }) s := by
  refine ((kalloc_does (dirPages s.mem d)).and (kalloc_within (T := Open s d) fun _ h => h)).mono ?_
  rintro r s₁ ⟨⟨h₁, hmem₁⟩, hin, hadds, hr⟩
  constructor
  · rintro rfl
    rw [held, zero_add] at h₁
    exact ⟨by rwa [hmem₁], hmem₁, hin⟩
  · rintro x rfl c
    have hfree := hr x rfl
    have hne := hp.free_ne_dir hfree
    obtain ⟨hm, htables⟩ := taken hp.apart h₁.moves hmem₁ c
    exact ⟨⟨hm, h₁.kend⟩, htables, hfree, hin.write (.inl hfree) hne c, hadds.write hne c⟩

theorem Taken.map (h : Taken d x s s') (hv : v < userEnd) (hnone : mapped (tables s.mem d) v = none) (w u : Bool)
    (f : BitVec 9) :
    Does (mappages d (v * PGSIZE) PGSIZE x w u f) (fun r s'' => (r = false → Taken d x s s'') ∧
      (r = true → Placed d v ⟨x, true, w, u, f⟩ s s'' ∧ s''.mem x = s'.mem x)) s' := by
  have hp' := hp.shifts h.shifts
  have hwithin := mappages_within (T := Open s' d) (fun _ h => h) (hp'.apart.of_le (Multiset.le_add_left _ _)) v x w u f
  refine ((mappages_does hp' hv (by rwa [h.same]) w u f).and hwithin).mono ?_
  rintro r s'' ⟨⟨hok, hfail⟩, hin', hadds'⟩
  have hin := h.within.trans (hin'.mono h.within.inside)
  have hadds := h.adds.trans hadds'
  constructor
  · intro hr
    obtain ⟨h', htables⟩ := hfail hr
    exact ⟨h.shifts.trans (h'.frame_left {x}), htables.trans h.same, h.free, hin, hadds⟩
  · intro hr
    obtain ⟨h', htables⟩ := hok hr
    rw [h.same] at htables
    refine ⟨⟨h.shifts.trans h', fun w hw => ?_, fun k hk => ?_, h.free, hin, hadds⟩,
      hin'.same x (held_not_open hp'.apart)⟩
    · rw [htables]
      exact mapped_put _ _ rfl hv hw
    · rw [htables, put_kernel _ hv _ k hk]

end

/-! ## The loop of `allocuvm` -/

structure Maps (d : Page) (lo hi : Nat) (s s' : Mem) : Prop where
  old : ∀ w, w < userEnd → ¬ (lo ≤ w ∧ w * PGSIZE < hi) → mapped (tables s'.mem d) w = mapped (tables s.mem d) w
  new : ∀ w, lo ≤ w → w * PGSIZE < hi → ∃ x, mapped (tables s'.mem d) w = some ⟨x, true, true, true, 0⟩

structure Allocates (T : Page → Prop) (d : Page) (oldsz newsz v : Nat) (s : Mem) (r : Bool) (s' : Mem) : Prop where
  shifts : Shifts s (dirPages s.mem d) s' (dirPages s'.mem d)
  kernel : ∀ k, 512 ≤ k.val → tables s'.mem d k = tables s.mem d k
  dir : ∀ k, (s.mem d k).p = true → s'.mem d k = s.mem d k
  ok : r = true → Maps d v newsz s s' ∧ Within (Open s d) d s s' ∧ Fresh d v newsz s s'
  back : r = false → (∀ w, w < userEnd → mapped (tables s'.mem d) w =
    if pagesOf oldsz ≤ w ∧ w * PGSIZE < newsz then none else mapped (tables s.mem d) w) ∧ Within T d s s'

theorem not_lt_of_end (h : sz ≤ v * PGSIZE) (hle : v ≤ w) : ¬ w * PGSIZE < sz :=
  Nat.not_lt.mpr (h.trans (Nat.mul_le_mul_right PGSIZE hle))

theorem Allocates.done {oldsz newsz : Nat} (h : newsz ≤ v * PGSIZE) : Allocates T d oldsz newsz v s true s := by
  refine ⟨.refl, fun _ _ => rfl, fun _ _ => rfl, fun _ => ⟨⟨fun _ _ _ => rfl, ?_⟩, .refl fun _ h => h, ?_⟩, (by simp)⟩
  · exact fun w hlo hhi => absurd hhi (not_lt_of_end h hlo)
  · exact fun w hlo hhi => absurd hhi (not_lt_of_end h hlo)

/-- What has been mapped is unmapped after a failure. -/
theorem deallocuvm_back {s₁ : Mem} {oldsz newsz : Nat} (hk : newsz ≤ KERNBASE) (hp : Pool s₁ (dirPages s₁.mem d))
    (hsame : tables s₁.mem d = tables s.mem d) (hin : Within T d s s₁)
    (hall : ∀ w, pagesOf oldsz ≤ w → w * PGSIZE < newsz → ∀ e, mapped (tables s.mem d) w = some e → T e.page) :
    Does (deallocuvm d newsz oldsz) (fun _ s' => Unmaps d (pagesOf oldsz) newsz s₁ s' ∧ Within T d s s') s₁ := by
  have hwithin := deallocuvm_within newsz oldsz hk hin.inside hp.apart (by rwa [hsame])
  exact ((deallocuvm_does hp newsz oldsz hk).and hwithin).mono fun _ _ ⟨⟨_, hun⟩, h⟩ => ⟨hun, hin.trans h⟩

theorem allocFrom_does (oldsz newsz : Nat) (hk : newsz ≤ KERNBASE) (n v : Nat) (hv : pagesOf oldsz ≤ v) (s : Mem)
    (hp : Pool s (dirPages s.mem d)) (hfuel : newsz ≤ (v + n) * PGSIZE)
    (hfree : ∀ w, v ≤ w → w * PGSIZE < newsz → mapped (tables s.mem d) w = none) (hT : ∀ x, Open s d x → T x)
    (huser : ∀ w, pagesOf oldsz ≤ w → w < v → ∀ e, mapped (tables s.mem d) w = some e → T e.page) :
    Does (allocFrom d oldsz newsz n (v * PGSIZE)) (Allocates T d oldsz newsz v s) s := by
  induction n generalizing v s with
  | zero =>
    rw [Nat.add_zero] at hfuel
    rw [allocFrom, if_neg (Nat.not_lt.mpr hfuel), does_pure]
    exact .done hfuel
  | succ n ih =>
    rw [allocFrom]
    split_ifs with hlt
    · have hend : v < userEnd := page_lt hk hlt
      have hall : ∀ w, pagesOf oldsz ≤ w → w * PGSIZE < newsz → ∀ e, mapped (tables s.mem d) w = some e →
          T e.page := by
        intro w hlo hhi e he
        rcases Nat.lt_or_ge w v with hlt | hge
        · exact huser w hlo hlt e he
        · rw [hfree w hge hhi] at he
          simp at he
      refine (kalloc_taken hp).seq ?_
      rintro r s₁ ⟨hnone, hsome⟩
      rcases r with _ | m
      · -- There is no page: what was mapped so far is given back.
        obtain ⟨h₁, hmem₁, hin₁⟩ := hnone rfl
        refine (deallocuvm_back hk (hp.shifts h₁) (by rw [hmem₁]) (hin₁.mono hT) hall).seq ?_
        rintro _ s' ⟨hun, hin⟩
        rw [does_pure]
        refine ⟨h₁.trans hun.shifts, fun k hk => ?_, fun k _ => by rw [hun.dir, hmem₁], (by simp), fun _ => ⟨?_, hin⟩⟩
        · rw [hun.kernel k hk, hmem₁]
        · intro w hw
          rw [hun.user w hw, hmem₁]
      · rw [does_memset0]
        have h₂ := hsome m rfl fun _ => .zero
        refine (h₂.map hp hend (hfree v le_rfl hlt) true true 0).seq ?_
        rintro r s₃ ⟨hfail, hok⟩
        rcases r with _ | _
        · have h₃ := hfail rfl
          have hp₃ := hp.shifts h₃.shifts
          rw [if_neg (by simp)]
          refine (deallocuvm_back hk (hp₃.of_le (Multiset.le_add_left _ _)) h₃.same (h₃.within.mono hT) hall).seq ?_
          rintro _ s₄ ⟨hun, hin⟩
          have h₄ := h₃.shifts.trans (hun.shifts.frame_left {m})
          have hne := hp.free_ne_dir h₃.free
          refine ((kfree_back (hp.shifts h₄)).and (kfree_within hin.inside (hT m (.inl h₃.free)) hne)).seq ?_
          rintro _ s' ⟨⟨h', htables', hmem'⟩, hin'⟩
          rw [does_pure]
          refine ⟨h₄.trans h', fun k hk => ?_, fun k hk => ?_, (by simp), fun _ => ⟨fun w hw => ?_, hin.trans hin'⟩⟩
          · rw [htables', hun.kernel k hk, h₃.same]
          · rw [hmem' d hne.symm, hun.dir, h₃.adds.dir k hk]
          · rw [htables', hun.user w hw, h₃.same]
        · obtain ⟨h₃, hzero⟩ := hok rfl
          have hp₃ := hp.shifts h₃.shifts
          have hself : mapped (tables s₃.mem d) v = some ⟨m, true, true, true, 0⟩ := by rw [h₃.user v hend, if_pos rfl]
          rw [if_pos rfl, ← Nat.succ_mul]
          refine (ih (v + 1) (by omega) s₃ hp₃ (by rwa [Nat.add_right_comm]) (fun w hvw hw => ?_)
            (h₃.within.mono hT).inside fun w hlo hwv e he => ?_).mono fun r s' h' => ?_
          · rw [h₃.user w (page_lt hk hw), if_neg (by omega)]
            exact hfree w (by omega) hw
          · rw [h₃.user w (by omega)] at he
            split_ifs at he
            · cases he
              exact hT m (.inl h₃.free)
            · exact huser w hlo (by omega) e he
          refine ⟨h₃.shifts.trans h'.shifts, fun k hk => (h'.kernel k hk).trans (h₃.kernel k hk), fun k hk => ?_,
            fun hr => ?_, fun hr => ⟨fun w hw => ?_, (h₃.within.mono hT).trans (h'.back hr).2⟩⟩
          · rw [h'.dir k (by rwa [h₃.adds.dir k hk]), h₃.adds.dir k hk]
          · obtain ⟨hmaps, hin, hfresh⟩ := h'.ok hr
            refine ⟨⟨fun w hw hout => ?_, fun w hlo hhi => ?_⟩, h₃.within.trans (hin.mono h₃.within.inside),
              fun w hlo hhi e he => ?_⟩
            · have hne : w ≠ v := by
                rintro rfl
                exact hout ⟨le_rfl, hlt⟩
              rw [hmaps.old w hw (by omega), h₃.user w hw, if_neg hne]
            · rcases Nat.eq_or_lt_of_le hlo with rfl | hlo
              · refine ⟨m, ?_⟩
                rw [hmaps.old v hend (by omega), hself]
              · exact hmaps.new w hlo hhi
            · rcases Nat.eq_or_lt_of_le hlo with rfl | hlo
              · -- The page is no longer free, so what follows leaves it alone.
                rw [hmaps.old v hend (by omega), hself] at he
                cases he
                refine ⟨h₃.free, ?_⟩
                rw [hin.same m (mapped_not_open hp₃.apart hend hself), hzero]
                exact update_self ..
              · obtain ⟨hfree', hzero'⟩ := hfresh w hlo hhi e he
                exact ⟨h₃.adds.free hfree', hzero'⟩
          · rw [(h'.back hr).1 w hw, h₃.user w hw]
            rcases eq_or_ne w v with rfl | hne
            · rw [if_pos ⟨hv, hlt⟩, if_pos ⟨hv, hlt⟩]
            · rw [if_neg hne]
    · rw [does_pure]
      exact .done (Nat.not_lt.mp hlt)

theorem allocuvm_does (hp : Pool s (dirPages s.mem d)) (oldsz newsz : Nat)
    (hfree : ∀ w, oldsz ≤ w * PGSIZE → w * PGSIZE < newsz → mapped (tables s.mem d) w = none) :
    Does (allocuvm d oldsz newsz) (fun r s' => Shifts s (dirPages s.mem d) s' (dirPages s'.mem d) ∧
      (∀ k, 512 ≤ k.val → tables s'.mem d k = tables s.mem d k) ∧
      ((∀ w, w < userEnd → mapped (tables s'.mem d) w = mapped (tables s.mem d) w) ∧ r = 0 ∨
        newsz < KERNBASE ∧ r = max oldsz newsz ∧ Maps d (pagesOf oldsz) newsz s s')) s := by
  unfold allocuvm
  split_ifs with hk hlt
  · rw [does_pure]
    exact ⟨.refl, fun _ _ => rfl, .inl ⟨fun _ _ => rfl, rfl⟩⟩
  · rw [does_pure]
    refine ⟨.refl, fun _ _ => rfl,
      .inr ⟨by omega, (Nat.max_eq_left hlt.le).symm, fun _ _ _ => rfl, fun w hlo hhi => ?_⟩⟩
    rw [pagesOf_le] at hlo
    omega
  · rw [PGROUNDUP_eq]
    refine (allocFrom_does (T := fun _ => True) oldsz newsz (by omega) _ _ le_rfl s hp ?_ (fun w hlo hhi => ?_)
      (fun _ _ => trivial) fun _ _ _ _ _ => trivial).seq fun r s' h' => ?_
    · have h : KERNBASE ≤ 2 ^ 20 * PGSIZE := by decide
      exact ((Nat.le_of_not_le hk).trans h).trans (Nat.mul_le_mul_right _ (Nat.le_add_left _ _))
    · exact hfree w (pagesOf_le.mp hlo) hhi
    rcases r with _ | _
    · rw [if_neg (by simp), does_pure]
      refine ⟨h'.shifts, h'.kernel, .inl ⟨fun w hw => ?_, rfl⟩⟩
      rw [(h'.back rfl).1 w hw]
      split_ifs with hin
      · rw [hfree w (pagesOf_le.mp hin.1) hin.2]
      · rfl
    · rw [if_pos rfl, does_pure]
      exact ⟨h'.shifts, h'.kernel, .inr ⟨by omega, (Nat.max_eq_right (by omega)).symm, (h'.ok rfl).1⟩⟩

/-! ## The loop of `copyuvm` -/

theorem Shifts.frame {A A' : Multiset Page} (h : Shifts s A s' A') (R : Multiset Page) : Shifts s (A + R) s' (A' + R) :=
  ⟨h.moves.frame R, h.kend⟩

theorem Shifts.beside {A A' : Multiset Page} (hp : Pool s (A + dirPages s.mem pgdir)) (h : Shifts s A s' A') :
    Pool s' (A' + dirPages s'.mem pgdir) ∧ tables s'.mem pgdir = tables s.mem pgdir := by
  obtain ⟨hpages, htables⟩ := h.moves.frame_space hp.apart
  rw [hpages]
  exact ⟨hp.shifts (h.frame _), htables⟩

/-- Page `w` of the child has the parent's flags, and a page that was free holds what the parent's page holds. -/
def Copies (pgdir d : Page) (m m' : Mem) (w : Nat) : Prop :=
  ∃ e x, mapped (tables m.mem pgdir) w = some e ∧ mapped (tables m'.mem d) w = some { e with page := x } ∧
    x ∈ m.freelist ∧ m'.mem x = m.mem e.page

theorem copyFrom_does (hk : sz ≤ KERNBASE) (n v : Nat) (m : Mem) (hp : Pool m (dirPages m.mem d + dirPages m.mem pgdir))
    (hfuel : sz ≤ (v + n) * PGSIZE) (hcov : Covered (tables m.mem pgdir) sz)
    (hfree : ∀ w, v ≤ w → w < userEnd → mapped (tables m.mem d) w = none) :
    Does (copyFrom d pgdir sz n (v * PGSIZE)) (fun r m' => Shifts m (dirPages m.mem d) m' (dirPages m'.mem d) ∧
      (r = true →
        (∀ w, w < userEnd → ¬ (v ≤ w ∧ w * PGSIZE < sz) → mapped (tables m'.mem d) w = mapped (tables m.mem d) w) ∧
        (∀ w, v ≤ w → w * PGSIZE < sz → Copies pgdir d m m' w) ∧ Within (Open m d) d m m')) m := by
  induction n generalizing v m with
  | zero =>
    rw [Nat.add_zero] at hfuel
    rw [copyFrom, if_neg (Nat.not_lt.mpr hfuel), does_pure]
    exact ⟨.refl, fun _ => ⟨fun _ _ _ => rfl, fun w hlo hhi => absurd hhi (not_lt_of_end hfuel hlo), .refl fun _ h => h⟩⟩
  | succ n ih =>
    rw [copyFrom]
    split_ifs with hlt
    · have hv : v < userEnd := page_lt hk hlt
      obtain ⟨hdir, htab⟩ := present_iff.mp (hcov v hlt)
      have hp₀ : Pool m (dirPages m.mem d) := hp.of_le (Multiset.le_add_right _ _)
      obtain ⟨e, he⟩ : ∃ e, mapped (tables m.mem pgdir) v = some e := ⟨_, mapped_eq_some.mpr ⟨hdir, htab, rfl⟩⟩
      obtain ⟨-, hep, hentry⟩ := mapped_eq_some.mp he
      rw [does_walk, PDX_page, PTX_page, if_pos hdir]
      dsimp only
      rw [does_get, hentry, if_pos hep]
      refine (kalloc_taken hp₀).seq ?_
      rintro r m₁ ⟨hnone, hsome⟩
      rcases r with _ | x
      · exact (does_pure false).mpr ⟨(hnone rfl).1, by simp⟩
      · dsimp only
        rw [does_setPage]
        have h₂ := hsome x rfl (m.mem e.page)
        refine (h₂.map hp₀ hv (hfree v le_rfl hv) e.w e.u e.flags).seq ?_
        rintro r m₃ ⟨hfail, hok⟩
        rcases r with _ | _
        · have h₃ := hfail rfl
          rw [if_neg (by simp)]
          refine (kfree_back (hp₀.shifts h₃.shifts)).seq fun _ m' h' => ?_
          exact (does_pure false).mpr ⟨h₃.shifts.trans h'.1, by simp⟩
        · obtain ⟨h₃, hcontents₃⟩ := hok rfl
          obtain ⟨hp₃, hother⟩ := h₃.shifts.beside hp
          have hsame := h₃.shifts.moves.frame_same hp.apart
          have hself : mapped (tables m₃.mem d) v = some { e with page := x } := by
            rw [h₃.user v hv, if_pos rfl, ← hep]
          rw [if_pos rfl, ← Nat.succ_mul]
          refine (ih (v + 1) m₃ hp₃ (by rwa [Nat.add_right_comm]) (by rwa [hother]) fun w hvw hw => ?_).mono ?_
          · rw [h₃.user w hw, if_neg (by omega)]
            exact hfree w (by omega) hw
          rintro r m' ⟨h', hr'⟩
          refine ⟨h₃.shifts.trans h', fun hr => ?_⟩
          obtain ⟨hold, hnew, hin⟩ := hr' hr
          refine ⟨fun w hw hout => ?_, fun w hlo hhi => ?_, h₃.within.trans (hin.mono h₃.within.inside)⟩
          · have hne : w ≠ v := by
              rintro rfl
              exact hout ⟨le_rfl, hlt⟩
            rw [hold w hw (by omega), h₃.user w hw, if_neg hne]
          · rcases Nat.eq_or_lt_of_le hlo with rfl | hlo
            · refine ⟨e, x, he, ?_, h₃.free, ?_⟩
              · rw [hold v hv (by omega), hself]
              · have hpd₃ : Pool m₃ (dirPages m₃.mem d) := hp₃.of_le (Multiset.le_add_right _ _)
                rw [hin.same x (mapped_not_open hpd₃.apart hv hself), hcontents₃]
                exact update_self ..
            · obtain ⟨e', x', he', hx', hfree', hcontents⟩ := hnew w hlo hhi
              rw [hother] at he'
              refine ⟨e', x', he', hx', h₃.adds.free hfree', hcontents.trans (hsame _ ?_)⟩
              exact mem_dirPages_iff.mpr (.inr (.inr ⟨w, page_lt hk hhi, e', he', rfl⟩))
    · rw [does_pure]
      refine ⟨.refl, fun _ => ⟨fun _ _ _ => rfl, fun w hlo hhi => ?_, .refl fun _ h => h⟩⟩
      exact absurd hhi (not_lt_of_end (Nat.not_lt.mp hlt) hlo)

end Xv6.Vm
