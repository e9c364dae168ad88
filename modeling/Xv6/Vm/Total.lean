import Mathlib
import Xv6.Vm.Exec

/-!
# Commands that do not panic

As long as the pages of an address space and of the free list are pages of the allocator, and none of them is there
twice, the functions of `vm.c` return. `mapped` is what a user address is mapped to, and the functions are exact about
it.
-/

open Lib Function

namespace Xv6.Vm

variable {d m t x : Page} {s s' s'' : Mem} {v w : Nat} {A A' : Multiset Page}

def Does {α : Type} (x : VmM α) (Q : α → Mem → Prop) (s : Mem) : Prop := Cmd.wp x Q (fun _ _ => False) s

section

variable {α β : Type} {x : VmM α} {f : α → VmM β} {P P' : α → Mem → Prop} {Q : β → Mem → Prop}

theorem Does.seq (hx : Does x P s) (hf : ∀ a s', P a s' → Does (f a) Q s') : Does (x >>= f) Q s := Cmd.wp_seq hx hf

theorem Does.mono (hx : Does x P s) (h : ∀ a s', P a s' → P' a s') : Does x P' s :=
  Cmd.wp_mono _ _ _ _ _ _ hx h fun _ _ h => h

theorem Does.and (hx : Does x P s) (he : Ends x P' s) : Does x (fun a s' => P a s' ∧ P' a s') s := by
  unfold Does Cmd.wp at hx ⊢
  unfold Ends Cmd.wp at he
  split at hx <;> rename_i heq
  · rw [heq] at he
    exact ⟨hx, he⟩
  · exact hx

theorem Does.ends (hx : Does x P s) : Ends x P s := by
  unfold Does at hx
  unfold Ends
  exact Cmd.wp_mono _ _ _ _ _ _ hx (fun _ _ h => h) fun _ _ h => h.elim

theorem Does.run (hx : Does x P s) : ∃ a s', x s = (.ok a, s') ∧ P a s' := Cmd.wp_total x P s hx

theorem Does.of_run {a : α} (hx : x s = (.ok a, s')) (h : P a s') : Does x P s := by
  unfold Does Cmd.wp
  rw [hx]
  exact h

theorem does_pure (a : α) : Does (pure a) P s ↔ P a s := Iff.rfl

theorem does_get {f : Mem → VmM β} : Does (Cmd.get >>= f) Q s ↔ Does (f s) Q s := Iff.rfl

theorem does_setPage {f : Unit → VmM β} (x : Page) (c : Contents) :
    Does (setPage x c >>= f) Q s ↔ Does (f ()) Q { s with mem := update s.mem x c } := Iff.rfl

theorem does_setPage_last {Q : Unit → Mem → Prop} (x : Page) (c : Contents) :
    Does (setPage x c) Q s ↔ Q () { s with mem := update s.mem x c } := Iff.rfl

theorem does_memset0 {f : Unit → VmM β} (x : Page) :
    Does (memset0 x >>= f) Q s ↔ Does (f ()) Q { s with mem := update s.mem x fun _ => .zero } := Iff.rfl

theorem does_setEntry {f : Unit → VmM β} (x : Page) (j : Fin NPTENTRIES) (e : Entry) :
    Does (setEntry x j e >>= f) Q s ↔
      Does (f ()) Q { s with mem := update s.mem x (update (s.mem x) j e) } := Iff.rfl

theorem does_setEntry_last {Q : Unit → Mem → Prop} (x : Page) (j : Fin NPTENTRIES) (e : Entry) :
    Does (setEntry x j e) Q s ↔ Q () { s with mem := update s.mem x (update (s.mem x) j e) } := Iff.rfl

theorem does_walk {f : Option (Page × Fin NPTENTRIES) → VmM β} (va : Nat) :
    Does (walkpgdir d va false >>= f) Q s ↔
      Does (f (if (s.mem d (PDX va)).p then some ((s.mem d (PDX va)).page, PTX va) else none)) Q s := by
  unfold Does Cmd.wp
  rw [Cmd.bind_apply, walkpgdir_get]

theorem does_forTo (n : Nat) (body : Nat → VmM Unit) (I : Nat → Mem → Prop) (h0 : I 0 s)
    (hstep : ∀ i < n, ∀ s, I i s → Does (body i) (fun _ => I (i + 1)) s) : Does (Cmd.forTo n body) (fun _ => I n) s :=
  Cmd.wp_forTo n body I _ s h0 hstep

end

structure Pool (s : Mem) (A : Multiset Page) : Prop where
  apart : Apart s A
  kend : 0 < s.kend
  range : ∀ x ∈ (s.freelist : Multiset Page) + A, s.kend ≤ x ∧ x < PHYSTOP / PGSIZE

structure Shifts (s : Mem) (A : Multiset Page) (s' : Mem) (A' : Multiset Page) : Prop where
  moves : Moves s A s' A'
  kend : s'.kend = s.kend

theorem Shifts.refl : Shifts s A s A := ⟨.refl, rfl⟩

theorem Shifts.trans {A'' : Multiset Page} (h : Shifts s A s' A') (h' : Shifts s' A' s'' A'') : Shifts s A s'' A'' :=
  ⟨h.moves.trans h'.moves, h'.kend.trans h.kend⟩

theorem Shifts.frame_left (h : Shifts s A s' A') (R : Multiset Page) : Shifts s (R + A) s' (R + A') :=
  ⟨h.moves.frame_left R, h.kend⟩

theorem Pool.shifts (hp : Pool s A) (h : Shifts s A s' A') : Pool s' A' := by
  refine ⟨h.moves.apart hp.apart, h.kend ▸ hp.kend, fun x hx => ?_⟩
  rw [h.moves.pages] at hx
  rw [h.kend]
  exact hp.range x hx

theorem Pool.of_le (hp : Pool s A) (h : A' ≤ A) : Pool s A' :=
  ⟨hp.apart.of_le h, hp.kend, fun x hx => hp.range x (Multiset.mem_of_le (add_le_add_right h _) hx)⟩

theorem Pool.mem (hp : Pool s A) (hx : x ∈ A) : s.kend ≤ x ∧ x < PHYSTOP / PGSIZE :=
  hp.range x (Multiset.mem_add.mpr (.inr hx))

theorem kalloc_does (A : Multiset Page) : Does kalloc (fun r s' => Shifts s A s' (held r + A) ∧ s'.mem = s.mem) s := by
  have hret : Does kalloc (fun _ s' => s'.kend = s.kend) s := by
    unfold Does Cmd.wp kalloc
    split <;> rename_i heq <;> split at heq <;> cases heq <;> rfl
  exact (hret.and (kalloc_ends A)).mono fun r s' ⟨hk, hm, hmem⟩ => ⟨⟨hm, hk⟩, hmem⟩

theorem kfree_does (x : Page) (hlo : s.kend ≤ x) (hhi : x < PHYSTOP / PGSIZE) :
    Does (kfree x) (fun _ s' => (∀ A, Shifts s ({x} + A) s' A) ∧ ∀ y, y ≠ x → s'.mem y = s.mem y) s := by
  have hret : Does (kfree x) (fun _ s' => s'.kend = s.kend) s := by
    unfold kfree
    rw [does_get, if_neg (by rw [not_or]; exact ⟨Nat.not_lt.mpr hlo, Nat.not_le.mpr hhi⟩), does_setPage]
    rfl
  exact (hret.and (kfree_ends x)).mono fun r s' ⟨hk, hm, hmem⟩ => ⟨fun A => ⟨hm A, hk⟩, hmem⟩

attribute [irreducible] Does

def mapped (tb : Tables) (v : Nat) : Option Entry :=
  (tb (dirIx v)).bind fun c => if (c (tabIx v)).p then some (c (tabIx v)) else none

theorem mapped_isSome {tb : Tables} : (mapped tb v).isSome = true ↔ Present tb v := by
  unfold mapped Present
  rcases tb (dirIx v) with _ | c
  · simp
  · by_cases hp : (c (tabIx v)).p = true <;> simp [hp]

theorem mapped_none {tb : Tables} : mapped tb v = none ↔ ¬ Present tb v := by
  rw [← mapped_isSome, Bool.not_eq_true, Option.isSome_eq_false_iff, Option.isNone_iff_eq_none]

theorem mapped_congr {tb tb' : Tables} (h : opened tb' (dirIx v) (tabIx v) = opened tb (dirIx v) (tabIx v)) :
    mapped tb' v = mapped tb v := by
  have hopen : ∀ tb : Tables, mapped tb v =
      if (opened tb (dirIx v) (tabIx v)).p then some (opened tb (dirIx v) (tabIx v)) else none := by
    intro tb
    unfold mapped opened
    rcases tb (dirIx v) with _ | c
    · rfl
    · rfl
  rw [hopen, hopen, h]

theorem opened_some {tb : Tables} {k : Fin NPTENTRIES} {c : Contents} (h : tb k = some c) : opened tb k = c := by
  rw [opened, h, Option.getD_some]

def spaceEnd : Nat := NPTENTRIES * NPTENTRIES

theorem dirIx_div (hv : v < spaceEnd) : (dirIx v).val = v / NPTENTRIES := by
  unfold dirIx
  rw [Fin.val_ofNat]
  exact Nat.mod_eq_of_lt (Nat.div_lt_of_lt_mul hv)

theorem user_lt_space (hv : v < userEnd) : v < spaceEnd := hv.trans (by decide)

theorem mapped_update {tb : Tables} {c : Contents} (e : Entry) (hv : v < spaceEnd) (hw : w < spaceEnd)
    (hsame : ∀ k, k ≠ tabIx v → c k = opened tb (dirIx v) k) (hself : c (tabIx v) = e) :
    mapped (update tb (dirIx v) (some c)) w = if w = v then (if e.p then some e else none) else mapped tb w := by
  split_ifs with hwv hp
  · rw [hwv, mapped, update_self, Option.bind_some, hself, if_pos hp]
  · rw [hwv, mapped, update_self, Option.bind_some, hself, if_neg hp]
  · refine mapped_congr ?_
    rcases eq_or_ne (dirIx w) (dirIx v) with hdir | hdir
    · have htab : tabIx w ≠ tabIx v := by
        intro htab
        refine hwv ?_
        have h1 := congrArg Fin.val hdir
        have h2 := congrArg Fin.val htab
        rw [dirIx_div hv, dirIx_div hw] at h1
        unfold tabIx at h2
        rw [Fin.val_ofNat, Fin.val_ofNat] at h2
        rw [← Nat.div_add_mod w NPTENTRIES, ← Nat.div_add_mod v NPTENTRIES, h1, h2]
      rw [hdir, opened, update_self, Option.getD_some]
      exact hsame _ htab
    · rw [opened, update_of_ne hdir, opened]

theorem mapped_set {tb : Tables} {c : Contents} (e : Entry) (hv : v < userEnd) (hw : w < userEnd)
    (hsame : ∀ k, k ≠ tabIx v → c k = opened tb (dirIx v) k)
    (hself : c (tabIx v) = e) : mapped (update tb (dirIx v) (some c)) w =
      if w = v then (if e.p then some e else none) else mapped tb w :=
  mapped_update e (user_lt_space hv) (user_lt_space hw) hsame hself

theorem freeEntry_does (hp : Pool s (dirPages s.mem d)) {i : Fin NPTENTRIES} (hi : i.val < 512)
    (hdir : (s.mem d i).p = true) (j : Fin NPTENTRIES) :
    Does (freeEntry (s.mem d i).page j) (fun _ s' => s'.kend = s.kend) s := by
  unfold freeEntry
  rw [does_get]
  split_ifs with hj hzero
  · have hlo := (hp.mem (slot_mem (user_mem_slot hi hdir hj))).1
    rw [hzero] at hlo
    exact absurd hp.kend (Nat.not_lt.mpr hlo)
  · obtain ⟨hlo, hhi⟩ := hp.mem (slot_mem (user_mem_slot hi hdir hj))
    refine (kfree_does _ hlo hhi).seq fun _ s₁ h₁ => ?_
    rw [does_setEntry_last]
    exact (h₁.1 0).kend
  · exact (does_pure ()).mpr rfl

structure Unmaps (d : Page) (lo hi : Nat) (s s' : Mem) : Prop where
  shifts : Shifts s (dirPages s.mem d) s' (dirPages s'.mem d)
  dir : s'.mem d = s.mem d
  kernel : ∀ k, 512 ≤ k.val → tables s'.mem d k = tables s.mem d k
  user : ∀ w, w < userEnd → mapped (tables s'.mem d) w = if lo ≤ w ∧ w * PGSIZE < hi then none
    else mapped (tables s.mem d) w

theorem Unmaps.refl {lo hi : Nat} (h : hi ≤ lo * PGSIZE) : Unmaps d lo hi s s := by
  refine ⟨.refl, rfl, fun _ _ => rfl, fun w _ => ?_⟩
  rw [if_neg]
  rintro ⟨hlo, hhi⟩
  have := Nat.mul_le_mul_right PGSIZE hlo
  omega

theorem deallocFrom_does (oldsz : Nat) (hk : oldsz ≤ KERNBASE) (n v : Nat) (s : Mem) (hp : Pool s (dirPages s.mem d))
    (hfuel : oldsz ≤ (v + n) * PGSIZE) : Does (deallocFrom d oldsz n (v * PGSIZE))
      (fun _ s' => Unmaps d v oldsz s s') s := by
  induction n generalizing v s with
  | zero =>
    rw [Nat.add_zero] at hfuel
    rw [deallocFrom, if_neg (Nat.not_lt.mpr hfuel), does_pure]
    exact .refl hfuel
  | succ n ih =>
    rw [deallocFrom]
    split_ifs with hlt
    · have hv : v < userEnd := page_lt hk hlt
      rw [does_walk, PDX_page, PTX_page]
      split_ifs with hdir
      · have hfree := (freeEntry_does hp (dirIx_lt hv) hdir (tabIx v)).and
          (freeEntry_ends hp.apart (dirIx_lt hv) hdir (tabIx v))
        refine hfree.seq ?_
        rintro _ s₁ ⟨hkend, hm, hd, c, htb, hc, hsame⟩
        have h₁ : Shifts s (dirPages s.mem d) s₁ (dirPages s₁.mem d) := ⟨hm, hkend⟩
        rw [← Nat.succ_mul]
        refine (ih (v + 1) s₁ (hp.shifts h₁) (by rwa [Nat.add_right_comm])).mono fun _ s' h' => ?_
        have hset : ∀ w, w < userEnd → mapped (tables s₁.mem d) w = if w = v then none
          else mapped (tables s.mem d) w := by
          intro w hw
          have := mapped_set (c := c) (c (tabIx v)) hv hw
            (fun k hk => by rw [hsame k hk, opened_some (tables_some hdir)]) rfl
          simp only [← htb, hc, Bool.false_eq_true, if_false] at this
          exact this
        refine ⟨h₁.trans h'.shifts, h'.dir.trans hd, fun k hk => ?_, fun w hw => ?_⟩
        · rw [h'.kernel k hk, htb, update_of_ne]
          rintro rfl
          exact absurd (dirIx_lt hv) (by omega)
        · rw [h'.user w hw, hset w hw]
          rcases Nat.lt_trichotomy w v with hwv | rfl | hwv
          · rw [if_neg (by omega), if_neg (by omega), if_neg (by omega)]
          · rw [if_pos rfl, ite_self, if_pos ⟨le_rfl, hlt⟩]
          · rw [if_neg (show ¬ w = v by omega)]
            exact if_congr (by omega) rfl rfl
      · -- The walk goes on with the next table.
        have hgt := lt_next_table v
        rw [next_table]
        refine (ih _ s hp (hfuel.trans (Nat.mul_le_mul_right _ (by omega)))).mono fun _ s' h' => ?_
        refine ⟨h'.shifts, h'.dir, h'.kernel, fun w hw => ?_⟩
        rw [h'.user w hw]
        by_cases hin : v ≤ w ∧ w < (v / NPTENTRIES + 1) * NPTENTRIES
        · -- Page `w` is in the table that does not exist.
          have hdiv : w / NPTENTRIES = v / NPTENTRIES := by
            refine Nat.le_antisymm (Nat.lt_succ_iff.mp ((Nat.div_lt_iff_lt_mul (by decide)).mpr hin.2)) ?_
            exact Nat.div_le_div_right hin.1
          have hnone : mapped (tables s.mem d) w = none := by
            rw [mapped, dirIx, hdiv, ← dirIx, tables_none (by simpa using hdir)]
            rfl
          rw [hnone, ite_self, ite_self]
        · exact if_congr (by omega) rfl rfl
    · exact (does_pure ()).mpr (.refl (Nat.le_of_not_lt hlt))

def pagesOf (sz : Nat) : Nat := (sz + PGSIZE - 1) / PGSIZE

theorem pagesOf_le {sz : Nat} : pagesOf sz ≤ w ↔ sz ≤ w * PGSIZE := by
  unfold pagesOf
  have hpos : 0 < PGSIZE := by decide
  rw [← Nat.lt_succ_iff, Nat.div_lt_iff_lt_mul hpos, Nat.succ_mul]
  omega

theorem deallocuvm_does (hp : Pool s (dirPages s.mem d)) (oldsz newsz : Nat) (hk : oldsz ≤ KERNBASE) :
    Does (deallocuvm d oldsz newsz) (fun r s' => r = min oldsz newsz ∧ Unmaps d (pagesOf newsz) oldsz s s') s := by
  unfold deallocuvm
  split_ifs with hle
  · rw [does_pure]
    exact ⟨(Nat.min_eq_left hle).symm, .refl (hle.trans (pagesOf_le.mp le_rfl))⟩
  · rw [PGROUNDUP_eq]
    refine (deallocFrom_does oldsz hk _ _ s hp ?_).seq fun _ s' h' => ?_
    · have h : KERNBASE ≤ 2 ^ 20 * PGSIZE := by decide
      exact (hk.trans h).trans (Nat.mul_le_mul_right _ (Nat.le_add_left _ _))
    · rw [does_pure]
      exact ⟨(Nat.min_eq_right (by omega)).symm, h'⟩

theorem freeTable_does {c : Contents} {n : Nat} (hn : n < NPTENTRIES) (hp : Pool s ({d} + rest c n))
    (hd : s.mem d = c) :
    Does (freeTable d n) (fun _ s' => s'.kend = s.kend) s := by
  unfold freeTable
  rw [does_get, hd]
  split_ifs with hdir
  · have hmem : (c (Fin.ofNat NPTENTRIES n)).page ∈ {d} + rest c n := by
      rw [rest_succ c hn, Entry.pages, if_pos hdir]
      exact Multiset.mem_add.mpr (.inr (Multiset.mem_add.mpr (.inl (Multiset.mem_singleton_self _))))
    obtain ⟨hlo, hhi⟩ := hp.mem hmem
    exact (kfree_does _ hlo hhi).mono fun _ s' h => (h.1 0).kend
  · exact (does_pure ()).mpr rfl

theorem freeTables_does {c : Contents} (hp : Pool s ({d} + rest c 0)) (hd : s.mem d = c) :
    Does (freeTables d) (fun _ s' => Shifts s ({d} + rest c 0) s' {d}) s := by
  have hloop : Does (freeTables d) (fun _ s' => Shifts s ({d} + rest c 0) s' ({d} + rest c NPTENTRIES) ∧
    s'.mem d = c) s := by
    refine does_forTo NPTENTRIES (freeTable d)
      (fun n s' => Shifts s ({d} + rest c 0) s' ({d} + rest c n) ∧ s'.mem d = c) ⟨.refl, hd⟩ ?_
    intro n hn s' h'
    have hp' := hp.shifts h'.1
    refine ((freeTable_does hn hp' h'.2).and (freeTable_ends hn hp'.apart h'.2)).mono fun _ s'' ⟨hk, hm, hd'⟩ => ?_
    exact ⟨h'.1.trans ⟨hm, hk⟩, hd'⟩
  refine hloop.mono fun _ s' h => ?_
  have := h.1
  rwa [rest_end, add_zero] at this

theorem freevm_does (hp : Pool s (dirPages s.mem d)) :
    Does (freevm d) (fun _ s' => Shifts s (dirPages s.mem d) s' 0) s := by
  unfold freevm
  refine (deallocuvm_does hp KERNBASE 0 le_rfl).seq fun _ s₁ ⟨_, h₁⟩ => ?_
  have hpages : dirPages s₁.mem d = {d} + rest (s₁.mem d) 0 := by
    refine dirPages_of_cleared fun k hk c hc j => ?_
    have hlt := entry_lt_userEnd hk j
    have hbelow : (NPTENTRIES * k.val + j.val) * PGSIZE < KERNBASE :=
      Nat.mul_lt_mul_of_pos_right hlt (by decide : 0 < PGSIZE)
    have hnone := h₁.user _ hlt
    rw [if_pos ⟨Nat.zero_le _, hbelow⟩, mapped_none] at hnone
    rw [Bool.eq_false_iff]
    exact fun hj => hnone ⟨c, by rwa [dirIx_entry], by rwa [tabIx_entry]⟩
  have h₁' := h₁.shifts
  rw [hpages] at h₁'
  refine (freeTables_does (hp.shifts h₁') rfl).seq fun _ s₂ h₂ => ?_
  have h₂' := h₁'.trans h₂
  obtain ⟨hlo, hhi⟩ := (hp.shifts h₂').mem (Multiset.mem_singleton_self d)
  exact (kfree_does d hlo hhi).mono fun _ s' ⟨h, _⟩ => h₂'.trans (by simpa using h 0)

theorem walkpgdir_does (va : Nat) : Does (walkpgdir d va true) (fun _ s' => s'.kend = s.kend) s := by
  unfold walkpgdir
  rw [does_get, if_pos rfl]
  split_ifs
  · exact (does_pure _).mpr rfl
  · refine (kalloc_does 0).seq fun r s₁ h₁ => ?_
    rcases r with _ | t
    · exact (does_pure _).mpr h₁.1.kend
    · rw [does_memset0, does_setEntry, does_pure]
      exact h₁.1.kend

theorem mapTables_does (ha : Apart s (dirPages s.mem d)) (first last : Nat) (pa : Page) (w u : Bool)
    (f : BitVec 9) (i n : Nat) {Q : Bool → Mem → Prop} {k : Fin NPTENTRIES} (hk : Fin.ofNat NPTENTRIES i = k)
    (hfree : ∀ j, inRange first last i j = true → (opened (tables s.mem d) k j).p = false)
    (hfail : ∀ s', Shifts s (dirPages s.mem d) s' (dirPages s'.mem d) → s'.mem = s.mem → Q false s')
    (hok : ∀ s₁ s₂, Shifts s (dirPages s.mem d) s₁ (dirPages s₁.mem d) →
      Shifts s₁ (dirPages s₁.mem d) s₂ (dirPages s₁.mem d) →
      dirPages s₂.mem d + userPages (opened (tables s.mem d) k) k =
        dirPages s₁.mem d + userPages (fill first last pa w u f i (opened (tables s.mem d) k)) k →
      tables s₂.mem d = update (tables s.mem d) k (some (fill first last pa w u f i (opened (tables s.mem d) k))) →
      Does (mapTables d first last pa w u f (i + 1) n) Q s₂) :
    Does (mapTables d first last pa w u f i (n + 1)) Q s := by
  rw [mapTables, does_get]
  refine ((walkpgdir_does (i * 2 ^ 22)).and (walkpgdir_ends ha (i * 2 ^ 22))).seq ?_
  rintro r s₁ ⟨hkend, h₁, hnone, hsome⟩
  rcases r with _ | ⟨t, j⟩
  · rw [does_pure]
    exact hfail s₁ ⟨h₁, hkend⟩ (hnone rfl)
  · obtain ⟨hp, rfl, -, hc, htables⟩ := hsome t j rfl
    rw [PDX_table, hk] at hp hc htables ⊢
    rw [does_get]
    split_ifs with hremap
    · rw [Bool.and_eq_true, List.any_eq_true] at hremap
      obtain ⟨-, j, -, hj⟩ := hremap
      rw [Bool.and_eq_true, hc] at hj
      rw [hfree j hj.1] at hj
      exact absurd hj.2 (by simp)
    · rw [does_setPage]
      obtain ⟨hpages, htables'⟩ := space_setTable (h₁.apart ha).nodup hp
        (fill first last pa w u f i (opened (tables s.mem d) k))
      rw [hc] at hpages
      rw [htables, update_idem] at htables'
      refine hok s₁ _ ⟨h₁, hkend⟩ ⟨setPage_moves _ (table_mem hp), rfl⟩ ?_ ?_
      all_goals simp only [hc]
      · exact hpages
      · exact htables'

theorem mappages_does (hp : Pool s ({m} + dirPages s.mem d)) (hv : v < userEnd)
    (hnone : mapped (tables s.mem d) v = none) (w u : Bool) (f : BitVec 9) :
    Does (mappages d (v * PGSIZE) PGSIZE m w u f) (fun r s' =>
      (r = true → Shifts s ({m} + dirPages s.mem d) s' (dirPages s'.mem d) ∧
        tables s'.mem d = put (tables s.mem d) v ⟨m, true, w, u, f⟩) ∧
      (r = false → Shifts s (dirPages s.mem d) s' (dirPages s'.mem d) ∧ tables s'.mem d = tables s.mem d)) s := by
  have hret : Does (mappages d (v * PGSIZE) PGSIZE m w u f) (fun _ s' => s'.kend = s.kend) s := by
    rw [mappages_page]
    refine mapTables_does (hp.apart.of_le (Multiset.le_add_left _ _)) v v m w u f _ 0 (k := dirIx v) rfl ?_ ?_ ?_
    · intro j hj
      rw [(inRange_page v j).mp hj, Bool.eq_false_iff]
      rw [mapped_none] at hnone
      intro hj
      unfold opened at hj
      rcases htb : tables s.mem d (dirIx v) with _ | c
      · rw [htb] at hj
        exact absurd hj (by simp [zeros, Entry.zero])
      · rw [htb, Option.getD_some] at hj
        exact hnone ⟨c, htb, hj⟩
    · exact fun s' h _ => h.kend
    · intro s₁ s₂ h₁ h₂ _ _
      rw [mapTables, does_pure]
      exact h₂.kend.trans h₁.kend
  refine (hret.and (mappages_user hp.apart hv w u f)).mono ?_
  rintro r s' ⟨hk, hok, hfail⟩
  refine ⟨fun hr => ?_, fun hr => ?_⟩
  · exact ⟨⟨(hok hr).1, hk⟩, (hok hr).2⟩
  · exact ⟨⟨(hfail hr).1, hk⟩, (hfail hr).2⟩

theorem mapped_put (tb : Tables) (e : Entry) (he : e.p = true) (hv : v < userEnd) (hw : w < userEnd) :
    mapped (put tb v e) w = if w = v then some e else mapped tb w := by
  unfold put
  rw [mapped_set e hv hw (fun k hk => update_of_ne hk _ _) (update_self ..), if_pos he]

theorem inRange_iff {first last i : Nat} (hv : v / NPTENTRIES = i) :
    inRange first last i (tabIx v) = true ↔ first ≤ v ∧ v ≤ last := by
  have hdiv := Nat.div_add_mod v NPTENTRIES
  unfold inRange tabIx
  rw [Bool.and_eq_true, Nat.ble_eq, Nat.ble_eq, Fin.val_ofNat, ← hv]
  omega

theorem mapped_fill (tb : Tables) {first last i : Nat} (pa : Page) (b u : Bool) (f : BitVec 9) (hi : i < NPTENTRIES)
    (hv : v < spaceEnd) (hout : ¬ (first ≤ v ∧ v ≤ last)) :
    mapped (update tb (Fin.ofNat NPTENTRIES i) (some (fill first last pa b u f i (opened tb (Fin.ofNat NPTENTRIES i)))))
      v =
      mapped tb v := by
  refine mapped_congr ?_
  rcases eq_or_ne (dirIx v) (Fin.ofNat NPTENTRIES i) with hdir | hdir
  · have hval : v / NPTENTRIES = i := by
      have h := congrArg Fin.val hdir
      rwa [dirIx_div hv, Fin.val_ofNat, Nat.mod_eq_of_lt hi] at h
    rw [hdir, opened, update_self, Option.getD_some, fill, if_neg]
    rwa [inRange_iff hval]
  · rw [opened, update_of_ne hdir, opened]

theorem mapTables_kernel_does (first last : Nat) (pa : Page) (b : Bool) (n i : Nat) (hi : 512 ≤ i)
    (hn : i + n ≤ NPTENTRIES) (s : Mem)
    (hp : Pool s (dirPages s.mem d)) (hfree : ∀ v, first ≤ v → v < spaceEnd → NPTENTRIES * i ≤ v →
      mapped (tables s.mem d) v = none) :
    Does (mapTables d first last pa b false 0 i n) (fun _ s' => Shifts s (dirPages s.mem d) s' (dirPages s'.mem d) ∧
      ∀ v, last < v → v < spaceEnd → mapped (tables s'.mem d) v = mapped (tables s.mem d) v) s := by
  induction n generalizing i s with
  | zero =>
    rw [mapTables, does_pure]
    exact ⟨.refl, fun _ _ _ => rfl⟩
  | succ n ih =>
    have hval : (Fin.ofNat NPTENTRIES i).val = i := by
      rw [Fin.val_ofNat]
      exact Nat.mod_eq_of_lt (by omega)
    refine mapTables_does hp.apart first last pa b false 0 i n rfl (fun j hj => ?_) (fun s' h hmem => ?_)
      fun s₁ s₂ h₁ h₂ hpages htables => ?_
    · have hjlt := j.isLt
      have hdiv : (NPTENTRIES * i + j.val) / NPTENTRIES = i := by
        rw [Nat.mul_add_div (by decide), Nat.div_eq_of_lt hjlt, Nat.add_zero]
      have hmod : (NPTENTRIES * i + j.val) % NPTENTRIES = j.val := by
        rw [Nat.mul_add_mod, Nat.mod_eq_of_lt hjlt]
      have hlt : NPTENTRIES * i + j.val < spaceEnd := by
        have := Nat.mul_le_mul_left NPTENTRIES (show i + 1 ≤ NPTENTRIES by omega)
        rw [Nat.mul_succ] at this
        unfold spaceEnd
        omega
      have hdir : dirIx (NPTENTRIES * i + j.val) = Fin.ofNat NPTENTRIES i := by rw [dirIx, hdiv]
      have htab : tabIx (NPTENTRIES * i + j.val) = j := Fin.ext (by rw [tabIx, Fin.val_ofNat, hmod])
      rw [← htab, inRange_iff hdiv] at hj
      have hnone := hfree _ hj.1 hlt (Nat.le_add_right _ _)
      rw [mapped_none] at hnone
      rw [Bool.eq_false_iff]
      intro hpj
      unfold opened at hpj
      rcases htb : tables s.mem d (Fin.ofNat NPTENTRIES i) with _ | c
      · rw [htb] at hpj
        exact absurd hpj (by simp [zeros, Entry.zero])
      · rw [htb, Option.getD_some] at hpj
        exact hnone ⟨c, by rw [hdir, htb], by rwa [htab]⟩
    · exact ⟨h, fun _ _ _ => by rw [hmem]⟩
    · have huser : ∀ c, userPages c (Fin.ofNat NPTENTRIES i) = 0 := fun c => if_neg (by rw [hval]; omega)
      rw [huser, huser, add_zero, add_zero] at hpages
      have h := h₁.trans h₂
      rw [← hpages] at h
      -- The entries of the tables behind this one are as they were.
      have hafter : ∀ v, v < spaceEnd → NPTENTRIES * (i + 1) ≤ v ∨ last < v →
        mapped (tables s₂.mem d) v = mapped (tables s.mem d) v := by
        intro v hv hor
        rw [htables]
        by_cases hout : first ≤ v ∧ v ≤ last
        · refine mapped_congr ?_
          have hne : dirIx v ≠ Fin.ofNat NPTENTRIES i := by
            intro heq
            have hle := hor.resolve_right (by omega)
            have hdiv := congrArg Fin.val heq
            rw [dirIx_div hv, hval] at hdiv
            have := Nat.lt_mul_div_succ v (show 0 < NPTENTRIES by decide)
            rw [hdiv] at this
            omega
          rw [opened, update_of_ne hne, opened]
        · exact mapped_fill _ pa b false 0 (by omega) hv hout
      refine (ih (i + 1) (by omega) (by omega) s₂ (hp.shifts h) fun v hfirst hv hle => ?_).mono ?_
      · rw [hafter v hv (.inl hle)]
        refine hfree v hfirst hv ?_
        rw [Nat.mul_succ] at hle
        omega
      · rintro r s' ⟨h', hlast⟩
        exact ⟨h.trans h', fun v hlt hv => (hlast v hlt hv).trans (hafter v hv (.inr hlt))⟩

/-- The parts of the kernel's map come one after the other. -/
def Kmap.Above : Nat → List Kmap → Prop
  | _, [] => True
  | lo, k :: ks => lo ≤ k.virt / PGSIZE ∧ Above ((k.virt + (k.phys_end - k.phys_start) - 1) / PGSIZE + 1) ks

theorem kmap_above (hl : Linked s) : Kmap.Above 0 (kmap s.data) := by
  obtain ⟨halign, hlo, hhi⟩ := hl
  unfold KERNLINK KERNBASE EXTMEM at hlo
  unfold KERNBASE PHYSTOP at hhi
  unfold PGSIZE at halign
  simp only [kmap, Kmap.Above, KERNLINK, KERNBASE, EXTMEM, PHYSTOP, DEVSPACE, PGSIZE]
  exact ⟨by omega, by omega, by omega, by omega, trivial⟩

theorem mapKernel_does (ks : List Kmap) (hks : ∀ k ∈ ks, k.Ok) (lo : Nat) (habove : Kmap.Above lo ks) (s : Mem)
    (hp : Pool s (dirPages s.mem d)) (hfree : ∀ v, lo ≤ v → v < spaceEnd → mapped (tables s.mem d) v = none) :
    Does (mapKernel d ks) (fun _ s' => Shifts s (dirPages s.mem d) s' (dirPages s'.mem d)) s := by
  induction ks generalizing s lo with
  | nil =>
    rw [mapKernel, does_pure]
    exact .refl
  | cons k ks ih =>
    obtain ⟨hlo, hhi⟩ := (hks k List.mem_cons_self).tables
    have hsize := (hks k List.mem_cons_self).size
    rw [mapKernel]
    refine (mapTables_kernel_does _ _ _ _ _ _ hlo hhi s hp fun v hv hend _ => ?_).seq ?_
    · exact hfree v (habove.1.trans hv) hend
    rintro (_ | _) s₁ ⟨h₁, hlast⟩
    · exact (does_pure false).mpr h₁
    · rw [if_pos rfl]
      refine (ih (fun k hk => hks k (List.mem_cons_of_mem _ hk)) _ habove.2 s₁ (hp.shifts h₁) fun v hv hend => ?_).mono
        fun _ s' h' => h₁.trans h'
      rw [hlast v (by omega) hend]
      refine hfree v (habove.1.trans ?_) hend
      exact (Nat.div_le_div_right (c := PGSIZE) (by omega)).trans (Nat.le_of_lt hv)

theorem setupkvm_does (hl : Linked s) (hp : Pool s 0) :
    Does setupkvm (fun r s' => s'.kend = s.kend ∧ Makes (fun tb => ∀ k, k.val < 512 → tb k = none) s r s') s := by
  have hret : Does setupkvm (fun _ s' => s'.kend = s.kend) s := by
    unfold setupkvm
    refine (kalloc_does 0).seq fun r s₁ ⟨h₁, _⟩ => ?_
    rcases r with _ | d
    · exact (does_pure none).mpr h₁.kend
    · rw [does_memset0, does_get]
      have hzero : update s₁.mem d (fun _ => .zero) d = zeros := update_self ..
      obtain ⟨hpages, htables⟩ := empty_dir hzero
      have h₂ : Shifts s 0 { s₁ with mem := update s₁.mem d fun _ => .zero } ({d} + 0) :=
        ⟨h₁.moves.trans (setPage_moves (fun _ => .zero) (Multiset.mem_add.mpr (.inl (Multiset.mem_singleton_self d)))),
          h₁.kend⟩
      rw [add_zero, ← hpages] at h₂
      have hl₂ := hl.moves h₂.moves
      refine (mapKernel_does _ (kmap_ok hl₂.data_lo hl₂.data_hi) 0 (kmap_above hl₂) _ (hp.shifts h₂)
        fun v _ _ => ?_).seq
        fun r s₃ h₃ => ?_
      · rw [htables]
        rfl
      have hmade := h₂.trans h₃
      rcases r with _ | _
      · rw [if_neg (by simp)]
        exact (freevm_does (hp.shifts hmade)).seq fun _ s' h' => (does_pure none).mpr (h'.kend.trans hmade.kend)
      · rw [if_pos rfl, does_pure]
        exact hmade.kend
  exact (hret.and (setupkvm_ends hl hp.apart)).mono fun r s' h => h

end Xv6.Vm
