import Mathlib
import Xv6.Vm.Own

/-!
# Page tables

What `walkpgdir`, `mappages`, `deallocuvm`, `freevm` and `setupkvm` do to the tables of an address
space and to the pages that it owns. Pages of the address space are numbered: page `v` is at
address `v * PGSIZE`.
-/

open Lib Function

namespace Xv6.Vm

variable {d m t : Page} {s : Mem} {v : Nat}

abbrev Tables := Fin NPTENTRIES → Option Contents

def zeros : Contents := fun _ => .zero

def dirIx (v : Nat) : Fin NPTENTRIES := Fin.ofNat NPTENTRIES (v / NPTENTRIES)
def tabIx (v : Nat) : Fin NPTENTRIES := Fin.ofNat NPTENTRIES v

theorem PDX_page (v : Nat) : PDX (v * PGSIZE) = dirIx v := by
  unfold PDX dirIx
  congr 1
  have h : v * PGSIZE / 2 ^ 22 = v * PGSIZE / (PGSIZE * NPTENTRIES) := rfl
  rw [h, ← Nat.div_div_eq_div_mul, Nat.mul_div_cancel _ (by decide)]

theorem PTX_page (v : Nat) : PTX (v * PGSIZE) = tabIx v := by
  unfold PTX tabIx
  congr 1
  have h : v * PGSIZE / 2 ^ 12 = v * PGSIZE / PGSIZE := rfl
  rw [h, Nat.mul_div_cancel _ (by decide)]

def userEnd : Nat := KERNBASE / PGSIZE

theorem dirIx_lt (hv : v < userEnd) : (dirIx v).val < 512 := by
  unfold dirIx
  rw [Fin.val_ofNat]
  have h : userEnd = NPTENTRIES * 512 := by decide
  rw [h] at hv
  have hdiv : v / NPTENTRIES < 512 := Nat.div_lt_of_lt_mul hv
  rw [Nat.mod_eq_of_lt (hdiv.trans (by decide))]
  exact hdiv

theorem dirIx_entry (i j : Fin NPTENTRIES) : dirIx (NPTENTRIES * i.val + j.val) = i := by
  refine Fin.ext ?_
  rw [dirIx, Fin.val_ofNat, Nat.mul_add_div (by decide), Nat.div_eq_of_lt j.isLt, Nat.add_zero, Nat.mod_eq_of_lt i.isLt]

theorem tabIx_entry (i j : Fin NPTENTRIES) : tabIx (NPTENTRIES * i.val + j.val) = j := by
  refine Fin.ext ?_
  rw [tabIx, Fin.val_ofNat, Nat.mul_add_mod, Nat.mod_eq_of_lt j.isLt]

theorem entry_lt_userEnd {i : Fin NPTENTRIES} (hi : i.val < 512) (j : Fin NPTENTRIES) :
    NPTENTRIES * i.val + j.val < userEnd := by
  have hend : userEnd = NPTENTRIES * 512 := by decide
  have := Nat.mul_le_mul_left NPTENTRIES (Nat.succ_le_of_lt hi)
  rw [Nat.mul_succ] at this
  omega

theorem tablePages_set (c : Contents) (j : Fin NPTENTRIES) (e : Entry) :
    tablePages (update c j e) + (c j).pages = tablePages c + e.pages := by
  have h := total_move j (f := fun k => (c k).pages) (g := fun k => (update c j e k).pages)
    fun k hk => by rw [update_of_ne hk]
  simp only [update_self] at h
  exact h

theorem tablePages_zeros : tablePages zeros = 0 := by
  rw [Multiset.eq_zero_iff_forall_notMem]
  intro x hx
  obtain ⟨j, hj, -⟩ := mem_tablePages.mp hx
  exact absurd hj (by simp [zeros, Entry.zero])

theorem userPages_zeros (i : Fin NPTENTRIES) : userPages zeros i = 0 := by
  unfold userPages
  rw [tablePages_zeros, ite_self]

theorem userPages_set {i : Fin NPTENTRIES} (hi : i.val < 512) (c : Contents) (j : Fin NPTENTRIES) (e : Entry) :
    userPages (update c j e) i + (c j).pages = userPages c i + e.pages := by
  unfold userPages
  rw [if_pos hi, if_pos hi]
  exact tablePages_set c j e

theorem tables_some {mem : Page → Contents} {i : Fin NPTENTRIES} (hp : (mem d i).p = true) :
    tables mem d i = some (mem (mem d i).page) := if_pos hp

theorem tables_none {mem : Page → Contents} {i : Fin NPTENTRIES} (hp : (mem d i).p = false) : tables mem d i = none :=
  if_neg (by simp [hp])

def opened (tb : Tables) (i : Fin NPTENTRIES) : Contents := (tb i).getD zeros

theorem walkpgdir_get (va : Nat) : walkpgdir d va false s =
    (.ok (if (s.mem d (PDX va)).p then some ((s.mem d (PDX va)).page, PTX va) else none), s) := by
  unfold walkpgdir
  rw [Cmd.bind_apply]
  change (ite _ _ _ : VmM _) s = _
  rcases hp : (s.mem d (PDX va)).p <;> rfl

theorem ends_walk {β : Type} {f : Option (Page × Fin NPTENTRIES) → VmM β} {Q : β → Mem → Prop} (va : Nat) :
    Ends (walkpgdir d va false >>= f) Q s ↔
      Ends (f (if (s.mem d (PDX va)).p then some ((s.mem d (PDX va)).page, PTX va) else none)) Q s := by
  unfold Ends Cmd.wp
  rw [Cmd.bind_apply, walkpgdir_get]

theorem walkpgdir_ends (ha : Apart s (dirPages s.mem d)) (va : Nat) :
    Ends (walkpgdir d va true) (fun r s' => Moves s (dirPages s.mem d) s' (dirPages s'.mem d) ∧
      (r = none → s'.mem = s.mem) ∧
      ∀ t j, r = some (t, j) → (s'.mem d (PDX va)).p = true ∧ (s'.mem d (PDX va)).page = t ∧ j = PTX va ∧
        s'.mem t = opened (tables s.mem d) (PDX va) ∧
        tables s'.mem d = update (tables s.mem d) (PDX va) (some (opened (tables s.mem d) (PDX va)))) s := by
  unfold walkpgdir
  rw [ends_get, if_pos rfl]
  split_ifs with hp
  · rw [ends_pure]
    refine ⟨.refl, (by simp), ?_⟩
    rintro t j ⟨⟩
    rw [opened, tables_some hp, Option.getD_some, ← tables_some hp, update_eq_self]
    exact ⟨hp, rfl, rfl, rfl, rfl⟩
  · refine (kalloc_ends (dirPages s.mem d)).seq ?_
    rintro r s₁ ⟨h₁, hmem⟩
    rcases r with _ | t
    · rw [ends_pure, hmem]
      rw [held, zero_add] at h₁
      exact ⟨h₁, fun _ => rfl, (by simp)⟩
    · have ht : t ∉ dirPages s.mem d :=
        not_mem_of_nodup_add (h₁.apart ha).nodup (Multiset.mem_singleton_self t)
      have htd : d ≠ t := by
        rintro rfl
        exact ht dir_mem
      rw [ends_memset0, ends_setEntry, ends_pure]
      have hd : update s₁.mem t (fun _ => Entry.zero) d = s.mem d := by rw [update_of_ne htd, hmem]
      dsimp only
      rw [hd]
      generalize hmem' : update (update s₁.mem t fun _ => Entry.zero) d
        (update (s.mem d) (PDX va) ⟨t, true, true, true, 0⟩) = mem'
      have hdir : mem' d = update (s.mem d) (PDX va) ⟨t, true, true, true, 0⟩ := by rw [← hmem', update_self]
      have hzero : mem' t = zeros := by
        rw [← hmem', update_of_ne htd.symm, update_self]
        rfl
      have hrest : ∀ x, x ≠ d → x ≠ t → mem' x = s.mem x := fun x hxd hxt => by
        rw [← hmem', update_of_ne hxd, update_of_ne hxt, hmem]
      obtain ⟨hpages, htables⟩ := space_newTable ha.nodup (by simpa using hp) ht ⟨t, true, true, true, 0⟩ rfl rfl
        hdir hrest
      rw [hzero, userPages_zeros, add_zero] at hpages
      have hopen : opened (tables s.mem d) (PDX va) = zeros := by
        rw [opened, tables_none (by simpa using hp), Option.getD_none]
      refine ⟨⟨?_, fun x hx => hrest x ?_ ?_, h₁.data⟩, (by simp), ?_⟩
      · rw [hpages]
        exact h₁.pages
      · rintro rfl
        exact hx (Multiset.mem_add.mpr (.inr dir_mem))
      · rintro rfl
        rw [← h₁.pages] at hx
        exact hx (Multiset.mem_add.mpr (.inr (Multiset.mem_add.mpr (.inl (Multiset.mem_singleton_self _)))))
      · rintro t' j ⟨⟩
        rw [hopen, ← hzero]
        refine ⟨?_, ?_, rfl, rfl, htables⟩ <;> rw [hdir, update_self]

def fill (first last : Nat) (pa : Page) (w u : Bool) (f : BitVec 9) (i : Nat) (c : Contents) : Contents := fun j =>
  if inRange first last i j then ⟨pa + (NPTENTRIES * i + j.val - first), true, w, u, f⟩ else c j

theorem PDX_table (i : Nat) : PDX (i * 2 ^ 22) = Fin.ofNat NPTENTRIES i := by
  unfold PDX
  rw [Nat.mul_div_cancel _ (by decide)]

theorem mapTables_step (ha : Apart s (dirPages s.mem d)) (first last : Nat) (pa : Page) (w u : Bool)
    (f : BitVec 9) (i n : Nat) {Q : Bool → Mem → Prop} {k : Fin NPTENTRIES} (hk : Fin.ofNat NPTENTRIES i = k)
    (hfail : ∀ s', Moves s (dirPages s.mem d) s' (dirPages s'.mem d) → s'.mem = s.mem → Q false s')
    (hok : ∀ s₁ s₂, Moves s (dirPages s.mem d) s₁ (dirPages s₁.mem d) →
      Moves s₁ (dirPages s₁.mem d) s₂ (dirPages s₁.mem d) → s₂.freelist = s₁.freelist →
      (∀ j, inRange first last i j = true → (opened (tables s.mem d) k j).p = false) →
      dirPages s₂.mem d + userPages (opened (tables s.mem d) k) k =
        dirPages s₁.mem d + userPages (fill first last pa w u f i (opened (tables s.mem d) k)) k →
      tables s₂.mem d = update (tables s.mem d) k (some (fill first last pa w u f i (opened (tables s.mem d) k))) →
      Ends (mapTables d first last pa w u f (i + 1) n) Q s₂) :
    Ends (mapTables d first last pa w u f i (n + 1)) Q s := by
  rw [mapTables, ends_get]
  refine (walkpgdir_ends ha (i * 2 ^ 22)).seq fun r s₁ ⟨h₁, hnone, hsome⟩ => ?_
  rcases r with _ | ⟨t, j⟩
  · rw [ends_pure]
    exact hfail s₁ h₁ (hnone rfl)
  · obtain ⟨hp, rfl, -, hc, htables⟩ := hsome t j rfl
    rw [PDX_table, hk] at hp hc htables ⊢
    rw [ends_get]
    split_ifs with hremap
    · exact ends_fail _
    · rw [ends_setPage]
      have hfree : ∀ j, inRange first last i j = true → (opened (tables s.mem d) k j).p = false := by
        intro j hj
        rw [Bool.and_eq_true, not_and_or] at hremap
        rcases hremap with hnew | hfree
        · rw [opened, tables_none (by simpa using hnew), Option.getD_none]
          rfl
        · rw [Bool.not_eq_true, List.any_eq_false] at hfree
          have := hfree j (List.mem_finRange j)
          rw [hj, Bool.true_and, hc] at this
          simpa using this
      obtain ⟨hpages, htables'⟩ := space_setTable (h₁.apart ha).nodup hp
        (fill first last pa w u f i (opened (tables s.mem d) k))
      rw [hc] at hpages
      rw [htables, update_idem] at htables'
      refine hok s₁ _ h₁ ?_ rfl hfree ?_ ?_
      · exact setPage_moves _ (table_mem hp)
      all_goals simp only [hc]
      · exact hpages
      · exact htables'

def put (tb : Tables) (v : Nat) (e : Entry) : Tables :=
  update tb (dirIx v) (some (update (opened tb (dirIx v)) (tabIx v) e))

theorem mappages_page (d m : Page) (v : Nat) (w u : Bool) (f : BitVec 9) :
    mappages d (v * PGSIZE) PGSIZE m w u f = mapTables d v v m w u f (v / NPTENTRIES) 1 := by
  unfold mappages
  have hfirst : v * PGSIZE / PGSIZE = v := Nat.mul_div_cancel _ (by decide)
  have hlast : (v * PGSIZE + PGSIZE - 1) / PGSIZE = v := by
    have h : v * PGSIZE + PGSIZE - 1 = PGSIZE - 1 + v * PGSIZE := by rw [Nat.add_sub_assoc (by decide), Nat.add_comm]
    rw [h, Nat.add_mul_div_right _ _ (by decide)]
    exact Nat.zero_add v
  simp only [hfirst, hlast, Nat.sub_self, Nat.zero_add]

theorem inRange_page (v : Nat) (j : Fin NPTENTRIES) : inRange v v (v / NPTENTRIES) j = true ↔ j = tabIx v := by
  have hdiv := Nat.div_add_mod v NPTENTRIES
  unfold inRange tabIx
  rw [Bool.and_eq_true, Nat.ble_eq, Nat.ble_eq, Fin.ext_iff, Fin.val_ofNat]
  omega

theorem fill_page (m : Page) (w u : Bool) (f : BitVec 9) (v : Nat) (c : Contents) :
    fill v v m w u f (v / NPTENTRIES) c = update c (tabIx v) ⟨m, true, w, u, f⟩ := by
  funext j
  unfold fill
  rw [update_apply]
  have hdiv := Nat.div_add_mod v NPTENTRIES
  split_ifs with h1 h2 h2
  · rw [inRange_page] at h1
    have hj : j.val = v % NPTENTRIES := by rw [h1, tabIx, Fin.val_ofNat]
    have : NPTENTRIES * (v / NPTENTRIES) + j.val - v = 0 := by omega
    rw [this, Nat.add_zero]
  · exact absurd ((inRange_page v j).mp h1) h2
  · exact absurd ((inRange_page v j).mpr h2) h1
  · rfl

theorem mappages_user (ha : Apart s ({m} + dirPages s.mem d)) (hv : v < userEnd) (w u : Bool) (f : BitVec 9) :
    Ends (mappages d (v * PGSIZE) PGSIZE m w u f) (fun r s' =>
      (r = true → Moves s ({m} + dirPages s.mem d) s' (dirPages s'.mem d) ∧
        tables s'.mem d = put (tables s.mem d) v ⟨m, true, w, u, f⟩) ∧
      (r = false → Moves s (dirPages s.mem d) s' (dirPages s'.mem d) ∧ tables s'.mem d = tables s.mem d)) s := by
  rw [mappages_page]
  refine mapTables_step (ha.of_le (Multiset.le_add_left _ _)) v v m w u f _ 0 (k := dirIx v) rfl ?_ ?_
  · intro s' h hmem
    exact ⟨nofun, fun _ => ⟨h, by rw [hmem]⟩⟩
  · intro s₁ s₂ h₁ h₂ hfree hentry hpages htables
    rw [mapTables, ends_pure]
    refine ⟨fun _ => ?_, nofun⟩
    rw [fill_page] at hpages htables
    refine ⟨?_, htables⟩
    have hset := userPages_set (dirIx_lt hv) (opened (tables s.mem d) (dirIx v)) (tabIx v) ⟨m, true, w, u, f⟩
    rw [Entry.pages, Entry.pages, if_neg (by rw [hentry _ ((inRange_page v _).mpr rfl)]; simp), if_pos rfl,
      add_zero] at hset
    have hnew : dirPages s₂.mem d = dirPages s₁.mem d + {m} := by
      rw [hset, ← add_assoc, add_right_comm] at hpages
      exact add_right_cancel hpages
    have h := (h₁.trans h₂).frame {m}
    rw [← hnew] at h
    rwa [add_comm]

def KernelOnly (tb : Tables) : Prop := ∀ k : Fin NPTENTRIES, 512 ≤ k.val → ∀ c, tb k = some c → ∀ j, (c j).p = true →
    (c j).u = false

theorem mapTables_kernel (first last : Nat) (pa : Page) (w : Bool) (n i : Nat) (hi : 512 ≤ i)
    (hn : i + n ≤ NPTENTRIES) (s : Mem) (ha : Apart s (dirPages s.mem d)) :
    Ends (mapTables d first last pa w false 0 i n) (fun _ s' => Moves s (dirPages s.mem d) s' (dirPages s'.mem d) ∧
      (∀ k, k.val < 512 → tables s'.mem d k = tables s.mem d k) ∧
      (KernelOnly (tables s.mem d) → KernelOnly (tables s'.mem d))) s := by
  induction n generalizing i s with
  | zero =>
    rw [mapTables, ends_pure]
    exact ⟨.refl, fun _ _ => rfl, fun h => h⟩
  | succ n ih =>
    have hval : (Fin.ofNat NPTENTRIES i).val = i := by
      rw [Fin.val_ofNat]
      exact Nat.mod_eq_of_lt (by omega)
    refine mapTables_step ha first last pa w false 0 i n rfl ?_ ?_
    · intro s' h hmem
      exact ⟨h, fun _ _ => by rw [hmem], by rw [hmem]; exact fun h => h⟩
    · intro s₁ s₂ h₁ h₂ hfree hentry hpages htables
      have huser : ∀ c, userPages c (Fin.ofNat NPTENTRIES i) = 0 := fun c => if_neg (by rw [hval]; omega)
      rw [huser, huser, add_zero, add_zero] at hpages
      have h := h₁.trans h₂
      rw [← hpages] at h
      refine (ih (i + 1) (by omega) (by omega) s₂ (h.apart ha)).mono fun r s' ⟨h', hlow, hkernel⟩ =>
        ⟨h.trans h', ?_, ?_⟩
      · intro k hk
        rw [hlow k hk, htables, update_of_ne]
        rintro rfl
        omega
      · intro hold
        refine hkernel fun k hk c hc j hj => ?_
        rw [htables, update_apply] at hc
        split_ifs at hc with hki
        · cases hc
          unfold fill at hj ⊢
          split_ifs at hj ⊢
          · rfl
          · unfold opened at hj ⊢
            rcases hc' : tables s.mem d (Fin.ofNat NPTENTRIES i) with _ | c'
            · rw [hc', Option.getD_none] at hj
              exact absurd hj (by simp [zeros, Entry.zero])
            · rw [hc', Option.getD_some] at hj
              exact hold _ (by omega) c' hc' j hj
        · exact hold k hk c hc j hj

theorem freeEntry_ends (ha : Apart s (dirPages s.mem d)) {i : Fin NPTENTRIES} (hi : i.val < 512)
    (hp : (s.mem d i).p = true) (j : Fin NPTENTRIES) :
    Ends (freeEntry (s.mem d i).page j) (fun _ s' => Moves s (dirPages s.mem d) s' (dirPages s'.mem d) ∧
      s'.mem d = s.mem d ∧
      ∃ c, tables s'.mem d = update (tables s.mem d) i (some c) ∧ (c j).p = false ∧
        ∀ k, k ≠ j → c k = s.mem (s.mem d i).page k) s := by
  unfold freeEntry
  rw [ends_get]
  split_ifs with hj hzero
  · exact ends_fail _
  · have hn := ha.nodup
    have hxd := slot_ne_dir hn (user_mem_slot hi hp hj)
    have hxt := fun k hk => user_ne_table hn hi hp hj (k := k) hk
    refine (kfree_ends _).seq fun _ s₁ ⟨h₁, hmem⟩ => ?_
    -- The page is on the free list and in the table, but neither the directory nor a table has changed.
    have hd : s₁.mem d = s.mem d := hmem d hxd.symm
    obtain ⟨hpages, htables⟩ := space_congr hd fun k hk => hmem _ (hxt k hk)
    have ht : s₁.mem (s.mem d i).page = s.mem (s.mem d i).page := hmem _ (hxt i hp)
    rw [← hpages] at hn
    have hp₁ : (s₁.mem d i).p = true := by rwa [hd]
    obtain ⟨hpages', htables'⟩ := space_setTable hn hp₁ (update (s₁.mem (s.mem d i).page) j .zero)
    have hset := userPages_set hi (s₁.mem (s.mem d i).page) j .zero
    rw [hd] at hpages' htables'
    rw [ends_setEntry_last]
    dsimp only
    have hnew : {(s.mem (s.mem d i).page j).page} + dirPages (update s₁.mem (s.mem d i).page
        (update (s₁.mem (s.mem d i).page) j .zero)) d = dirPages s.mem d := by
      refine add_right_cancel (b := userPages (update (s₁.mem (s.mem d i).page) j .zero) i) ?_
      rw [← hpages, ← hpages', ht]
      rw [ht, Entry.pages, Entry.pages, if_pos hj, if_neg (by simp [Entry.zero]), add_zero] at hset
      rw [← hset]
      ac_rfl
    refine ⟨?_, ?_, update (s.mem (s.mem d i).page) j .zero, ?_, ?_, ?_⟩
    · have h := h₁ (dirPages (update s₁.mem (s.mem d i).page (update (s₁.mem (s.mem d i).page) j .zero)) d)
      rw [hnew] at h
      refine ⟨h.pages, fun y hy => ?_, h.data⟩
      rw [← h.same y hy]
      refine update_of_ne ?_ _ _
      rintro rfl
      exact hy (Multiset.mem_add.mpr (.inr (table_mem hp)))
    · rw [update_of_ne (table_ne_dir ha.nodup hp).symm, hd]
    · rw [htables', htables, ht]
    · rw [update_self]
      rfl
    · exact fun k hk => update_of_ne hk _ _
  · rw [ends_pure]
    refine ⟨.refl, rfl, s.mem (s.mem d i).page, ?_, by simpa using hj, fun _ _ => rfl⟩
    rw [← tables_some hp, update_eq_self]

theorem next_table (v : Nat) : (v * PGSIZE / 2 ^ 22 + 1) * 2 ^ 22 = ((v / NPTENTRIES + 1) * NPTENTRIES) * PGSIZE := by
  have h1 : v * PGSIZE / 2 ^ 22 = v * PGSIZE / (PGSIZE * NPTENTRIES) := rfl
  have h2 : (2 : Nat) ^ 22 = NPTENTRIES * PGSIZE := rfl
  rw [h1, ← Nat.div_div_eq_div_mul, Nat.mul_div_cancel _ (by decide), h2, Nat.mul_assoc]

theorem lt_next_table (v : Nat) : v < (v / NPTENTRIES + 1) * NPTENTRIES := by
  rw [Nat.mul_comm]
  exact Nat.lt_mul_div_succ v (by decide)

/-- What `deallocuvm` leaves: no new entries, and none between two addresses. -/
structure Cleared (tb tb' : Tables) (v : Nat) (oldsz : Nat) : Prop where
  kernel : ∀ k, 512 ≤ k.val → tb' k = tb k
  absent : ∀ k j c c', tb k = some c → (c j).p = false → tb' k = some c' → (c' j).p = false
  gone : ∀ w, v ≤ w → w * PGSIZE < oldsz → ∀ c, tb' (dirIx w) = some c → (c (tabIx w)).p = false

theorem isSome_tables {mem mem' : Page → Contents} (hd : mem' d = mem d) (k : Fin NPTENTRIES) :
    (tables mem' d k).isSome = (tables mem d k).isSome := by
  unfold tables
  rw [hd]
  split_ifs <;> rfl

theorem page_lt {w oldsz : Nat} (hk : oldsz ≤ KERNBASE) (hw : w * PGSIZE < oldsz) : w < userEnd := by
  by_contra hge
  have hend : userEnd * PGSIZE = KERNBASE := by decide
  have := Nat.mul_le_mul_right PGSIZE (Nat.le_of_not_lt hge)
  omega

theorem Cleared.refl (tb : Tables) {v oldsz : Nat} (h : oldsz ≤ v * PGSIZE) : Cleared tb tb v oldsz := by
  refine ⟨fun _ _ => rfl, fun k j c c' hc hj hc' => ?_, fun w hv hw => ?_⟩
  · rw [hc] at hc'
    rwa [← Option.some.inj hc']
  · have := Nat.mul_le_mul_right PGSIZE hv
    omega

theorem deallocFrom_ends (oldsz : Nat) (hk : oldsz ≤ KERNBASE) (n v : Nat) (s : Mem) (ha : Apart s (dirPages s.mem d))
    (hfuel : oldsz ≤ (v + n) * PGSIZE) :
    Ends (deallocFrom d oldsz n (v * PGSIZE)) (fun _ s' => Moves s (dirPages s.mem d) s' (dirPages s'.mem d) ∧
      s'.mem d = s.mem d ∧ Cleared (tables s.mem d) (tables s'.mem d) v oldsz) s := by
  induction n generalizing v s with
  | zero =>
    rw [Nat.add_zero] at hfuel
    rw [deallocFrom, if_neg (Nat.not_lt.mpr hfuel), ends_pure]
    exact ⟨.refl, rfl, .refl _ hfuel⟩
  | succ n ih =>
    rw [deallocFrom]
    split_ifs with hlt
    · have hvend : v < userEnd := page_lt hk hlt
      rw [ends_walk, PDX_page, PTX_page]
      split_ifs with hp
      · -- The page has an entry.
        refine (freeEntry_ends ha (dirIx_lt hvend) hp (tabIx v)).seq fun _ s₁ ⟨h₁, hd₁, c₁, htb₁, hc₁, hsame⟩ => ?_
        have hnext : v * PGSIZE + PGSIZE = (v + 1) * PGSIZE := (Nat.succ_mul v PGSIZE).symm
        rw [hnext]
        refine (ih (v + 1) s₁ (h₁.apart ha) (by rwa [Nat.add_right_comm])).mono fun _ s' ⟨h', hd', hcl⟩ => ?_
        have habsent₁ : ∀ k j c c', tables s.mem d k = some c → (c j).p = false → tables s₁.mem d k = some c' →
            (c' j).p = false := by
          intro k j c c' hc hj hc'
          rw [htb₁, update_apply] at hc'
          split_ifs at hc' with hkv
          · cases hc'
            rcases eq_or_ne j (tabIx v) with rfl | hjv
            · exact hc₁
            · rw [hsame j hjv]
              rw [hkv, tables_some hp] at hc
              rwa [Option.some.inj hc]
          · rw [hc] at hc'
            rwa [← Option.some.inj hc']
        refine ⟨h₁.trans h', hd'.trans hd₁, fun k hk' => ?_, fun k j c c' hc hj hc' => ?_, fun w hvw hw c hc => ?_⟩
        · rw [hcl.kernel k hk', htb₁, update_of_ne]
          rintro rfl
          exact absurd (dirIx_lt hvend) (by omega)
        · have hsome : (tables s₁.mem d k).isSome := by rw [isSome_tables hd₁, hc]; rfl
          obtain ⟨c₂, hc₂⟩ := Option.isSome_iff_exists.mp hsome
          exact hcl.absent k j c₂ c' hc₂ (habsent₁ k j c c₂ hc hj hc₂) hc'
        · rcases Nat.eq_or_lt_of_le hvw with rfl | hlt'
          · exact hcl.absent _ _ c₁ c (by rw [htb₁, update_self]) hc₁ hc
          · exact hcl.gone w hlt' hw c hc
      · -- The walk goes on with the next table.
        have hgt := lt_next_table v
        rw [next_table]
        refine (ih _ s ha ?_).mono fun _ s' ⟨h', hd', hcl⟩ => ⟨h', hd', hcl.kernel, hcl.absent, fun w hvw hw c hc => ?_⟩
        · refine hfuel.trans (Nat.mul_le_mul_right _ ?_)
          omega
        · rcases Nat.lt_or_ge w ((v / NPTENTRIES + 1) * NPTENTRIES) with hlt' | hge
          · -- Page `w` is in the table that does not exist.
            have hdiv : w / NPTENTRIES = v / NPTENTRIES := by
              refine Nat.le_antisymm (Nat.lt_succ_iff.mp ((Nat.div_lt_iff_lt_mul (by decide)).mpr hlt')) ?_
              exact Nat.div_le_div_right hvw
            have hsome := isSome_tables hd' (dirIx w)
            rw [hc, dirIx, hdiv, ← dirIx, tables_none (by simpa using hp)] at hsome
            simp at hsome
          · exact hcl.gone w hge hw c hc
    · rw [ends_pure]
      exact ⟨.refl, rfl, .refl _ (Nat.le_of_not_lt hlt)⟩

theorem PGROUNDUP_eq (a : Nat) : PGROUNDUP a = (a + PGSIZE - 1) / PGSIZE * PGSIZE := rfl

theorem deallocuvm_ends (ha : Apart s (dirPages s.mem d)) (oldsz newsz : Nat) (hk : oldsz ≤ KERNBASE) :
    Ends (deallocuvm d oldsz newsz) (fun r s' => Moves s (dirPages s.mem d) s' (dirPages s'.mem d) ∧
      s'.mem d = s.mem d ∧
      (newsz < oldsz → Cleared (tables s.mem d) (tables s'.mem d) ((newsz + PGSIZE - 1) / PGSIZE) oldsz) ∧
      (∀ k, 512 ≤ k.val → tables s'.mem d k = tables s.mem d k) ∧ r ≤ oldsz) s := by
  unfold deallocuvm
  split_ifs with hle
  · rw [ends_pure]
    exact ⟨.refl, rfl, fun h => absurd h (by omega), fun _ _ => rfl, le_rfl⟩
  · rw [PGROUNDUP_eq]
    refine (deallocFrom_ends oldsz hk _ _ s ha ?_).seq fun _ s₁ ⟨h₁, hd₁, hcl⟩ => ?_
    · have h : KERNBASE ≤ 2 ^ 20 * PGSIZE := by decide
      refine (hk.trans h).trans (Nat.mul_le_mul_right _ (Nat.le_add_left _ _))
    · rw [ends_pure]
      exact ⟨h₁, hd₁, fun _ => hcl, hcl.kernel, by omega⟩

def rest (c : Contents) (n : Nat) : Multiset Page := total fun i : Fin NPTENTRIES => if i.val < n then 0
    else (c i).pages

theorem rest_succ (c : Contents) {n : Nat} (hn : n < NPTENTRIES) :
    rest c n = (c (Fin.ofNat NPTENTRIES n)).pages + rest c (n + 1) := by
  have hval : (Fin.ofNat NPTENTRIES n).val = n := by
    rw [Fin.val_ofNat]
    exact Nat.mod_eq_of_lt hn
  have h := total_move (Fin.ofNat NPTENTRIES n) (f := fun i : Fin NPTENTRIES => if i.val < n then 0 else (c i).pages)
    (g := fun i : Fin NPTENTRIES => if i.val < n + 1 then 0 else (c i).pages) fun k hk => ?_
  · rw [if_neg (by omega), if_pos (by omega), add_zero, add_comm] at h
    exact h.symm
  · have hne : k.val ≠ n := fun h => hk (Fin.ext (h.trans hval.symm))
    have : k.val < n + 1 ↔ k.val < n := by omega
    simp only [this]

theorem rest_end (c : Contents) : rest c NPTENTRIES = 0 := by
  rw [Multiset.eq_zero_iff_forall_notMem]
  intro x hx
  obtain ⟨i, hi⟩ := mem_total.mp hx
  rw [if_pos i.isLt] at hi
  exact Multiset.notMem_zero x hi

theorem freeTable_ends {c : Contents} {n : Nat} (hn : n < NPTENTRIES) (ha : Apart s ({d} + rest c n))
    (hd : s.mem d = c) :
    Ends (freeTable d n) (fun _ s' => Moves s ({d} + rest c n) s' ({d} + rest c (n + 1)) ∧ s'.mem d = c) s := by
  unfold freeTable
  rw [ends_get, hd]
  rw [rest_succ c hn] at ha ⊢
  unfold Entry.pages at ha ⊢
  split_ifs at ha ⊢ with hp
  · refine (kfree_ends _).mono fun _ s' ⟨h, hmem⟩ => ⟨?_, ?_⟩
    · have := h ({d} + rest c (n + 1))
      rwa [add_left_comm] at this
    · rw [hmem d, hd]
      rintro rfl
      refine not_mem_of_nodup_add ha.nodup (Multiset.mem_singleton_self _) ?_
      exact Multiset.mem_add.mpr (.inl (Multiset.mem_singleton_self _))
  · rw [ends_pure, zero_add]
    exact ⟨.refl, hd⟩

theorem dirPages_of_cleared {mem : Page → Contents}
    (h : ∀ k : Fin NPTENTRIES, k.val < 512 → ∀ c, tables mem d k = some c → ∀ j, (c j).p = false) :
    dirPages mem d = {d} + rest (mem d) 0 := by
  have hslot : slotPages mem d = fun i : Fin NPTENTRIES => if i.val < 0 then 0 else (mem d i).pages := by
    funext i
    rw [if_neg (Nat.not_lt_zero _)]
    unfold slotPages Entry.pages
    split_ifs with hp
    · have huser : userPages (mem (mem d i).page) i = 0 := by
        unfold userPages
        split_ifs with hi
        · rw [Multiset.eq_zero_iff_forall_notMem]
          intro x hx
          obtain ⟨j, hj, -⟩ := mem_tablePages.mp hx
          rw [h i hi _ (tables_some hp) j] at hj
          simp at hj
        · rfl
      rw [huser, add_zero]
    · rfl
  rw [dirPages, hslot]
  rfl

theorem freeTables_ends {c : Contents} (ha : Apart s ({d} + rest c 0)) (hd : s.mem d = c) :
    Ends (freeTables d) (fun _ s' => Moves s ({d} + rest c 0) s' {d}) s := by
  refine Ends.mono (P := fun _ s' => Moves s ({d} + rest c 0) s' ({d} + rest c NPTENTRIES) ∧ s'.mem d = c) ?_
    fun _ _ h => by
    have := h.1
    rwa [rest_end, add_zero] at this
  refine ends_forTo NPTENTRIES (freeTable d)
    (fun n s' => Moves s ({d} + rest c 0) s' ({d} + rest c n) ∧ s'.mem d = c) ⟨.refl, hd⟩ ?_
  intro n hn s' h'
  exact (freeTable_ends hn (h'.1.apart ha) h'.2).mono fun _ s'' h'' => ⟨h'.1.trans h''.1, h''.2⟩

theorem freevm_ends (ha : Apart s (dirPages s.mem d)) :
    Ends (freevm d) (fun _ s' => Moves s (dirPages s.mem d) s' 0) s := by
  unfold freevm
  refine (deallocuvm_ends ha KERNBASE 0 le_rfl).seq ?_
  intro _ s₁ h
  have h₁ := h.1
  have hcl := h.2.2.1
  have hpages : dirPages s₁.mem d = {d} + rest (s₁.mem d) 0 := by
    refine dirPages_of_cleared fun k hk c hc j => ?_
    have := (hcl (by decide)).gone (NPTENTRIES * k.val + j.val) (Nat.zero_le _) ?_ c (by rwa [dirIx_entry])
    · rwa [tabIx_entry] at this
    · exact Nat.mul_lt_mul_of_pos_right (entry_lt_userEnd hk j) (by decide : 0 < PGSIZE)
  rw [hpages] at h₁
  refine (freeTables_ends (h₁.apart ha) rfl).seq fun _ s₂ h₂ => ?_
  exact (kfree_ends d).mono fun _ s' ⟨h, _⟩ => (h₁.trans h₂).trans (by simpa using h 0)

end Xv6.Vm
