import Mathlib
import Xv6.Vm.Copy

/-!
# Page tables as a flat map

`mappages` as it is written, one page after the other. It is the flat map of a range of addresses to a range of physical
ones, and what it does to memory is what `mapTables` does a table at a time. The kernel's part of an address space is
then the table `kmap`.
-/

open Lib Function

namespace Xv6.Vm

variable {d t : Page} {s s₁ s' : Mem} {v v' : Nat}

/-- The loop of `mappages`. `none` is a loop that has not ended. -/
def mapFrom (pgdir : Page) (last : Nat) (w u : Bool) (f : BitVec 9) : Nat → Nat → Page → VmM (Option Bool)
  | 0, _, _ => pure none
  | n + 1, a, pa => do
    match ← walkpgdir pgdir a true with
    | none => pure (some false)
    | some (pgtab, j) => do
      let s ← Cmd.get
      if (s.mem pgtab j).p then Cmd.fail .remap
      else do
        setEntry pgtab j ⟨pa, true, w, u, f⟩
        if a = last then pure (some true) else mapFrom pgdir last w u f n ((a + PGSIZE) % 2 ^ 32) ((pa + 1) % 2 ^ 20)

/-- `pa` is the page at the physical address. -/
def mapByPage (pgdir : Page) (va size : Nat) (pa : Page) (w u : Bool) (f : BitVec 9) : VmM (Option Bool) :=
  mapFrom pgdir (PGROUNDDOWN ((va + size - 1) % 2 ^ 32)) w u f (2 ^ 20) (PGROUNDDOWN va) pa

/-- A directory and its tables: each in a page of its own, and none of them free. -/
structure Tree (s : Mem) (d : Page) : Prop where
  nodup : s.freelist.Nodup
  dir_free : d ∉ s.freelist
  table_free : ∀ i, (s.mem d i).p = true → (s.mem d i).page ∉ s.freelist
  table_dir : ∀ i, (s.mem d i).p = true → (s.mem d i).page ≠ d
  once : ∀ i j, (s.mem d i).p = true → (s.mem d j).p = true → (s.mem d i).page = (s.mem d j).page → i = j

theorem Apart.tree (ha : Apart s (dirPages s.mem d)) : Tree s d where
  nodup := Multiset.coe_nodup.mp (Multiset.nodup_add.mp ha).1
  dir_free := ha.not_free dir_mem
  table_free _ hp := ha.not_free (table_mem hp)
  table_dir _ hp := table_ne_dir ha.nodup hp
  once _ _ hi hj heq := slot_eq ha.nodup (table_mem_slot hi) (heq ▸ table_mem_slot hj)

theorem Tree.setTable (h : Tree s d) {i : Fin NPTENTRIES} (hp : (s.mem d i).p = true) (c : Contents) :
    Tree (s.write (s.mem d i).page c) d ∧ tables (s.write (s.mem d i).page c).mem d =
    update (tables s.mem d) i (some c) := by
  unfold Mem.write
  dsimp only
  have hd : update s.mem (s.mem d i).page c d = s.mem d := update_of_ne (h.table_dir i hp).symm _ _
  constructor
  · constructor
    · exact h.nodup
    · exact h.dir_free
    · dsimp only
      rw [hd]
      exact h.table_free
    · dsimp only
      rw [hd]
      exact h.table_dir
    · dsimp only
      rw [hd]
      exact h.once
  · funext k
    rcases eq_or_ne k i with rfl | hk
    · rw [update_self, tables, hd, if_pos hp, update_self]
    · rw [update_of_ne hk]
      refine tables_congr (congrFun hd k) fun hpk => update_of_ne ?_ _ _
      exact fun heq => hk (h.once k i hpk hp heq)

theorem Tree.newTable (h : Tree s d) {i : Fin NPTENTRIES} (hp : (s.mem d i).p = false) {l : List Page}
    (hl : s.freelist = t :: l) (fails : List Bool) {mem' : Page → Contents}
    (hmem' : mem' = update (update s.mem t zeros) d (update (s.mem d) i ⟨t, true, true, true, 0⟩)) :
    Tree { s with mem := mem', freelist := l, fails := fails } d ∧
    tables mem' d = update (tables s.mem d) i (some zeros) := by
  have hnodup := h.nodup
  rw [hl, List.nodup_cons] at hnodup
  have htd : t ≠ d := by
    rintro rfl
    exact h.dir_free (by rw [hl]; exact List.mem_cons_self)
  have hne : ∀ k, (s.mem d k).p = true → (s.mem d k).page ≠ t := by
    intro k hk heq
    refine h.table_free k hk ?_
    rw [heq, hl]
    exact List.mem_cons_self
  have hself : mem' d i = ⟨t, true, true, true, 0⟩ := by rw [hmem', update_self, update_self]
  have hother : ∀ k, k ≠ i → mem' d k = s.mem d k := fun k hk => by rw [hmem', update_self, update_of_ne hk]
  have hfree : ∀ {x}, x ∉ s.freelist → x ∉ l := fun hx hmem => hx (by rw [hl]; exact List.mem_cons_of_mem _ hmem)
  constructor
  · refine ⟨hnodup.2, hfree h.dir_free, fun k hk => ?_, fun k hk => ?_, fun j k hj hk heq => ?_⟩
    · dsimp only at hk ⊢
      rcases eq_or_ne k i with rfl | hki
      · rw [hself]
        exact hnodup.1
      · rw [hother k hki] at hk ⊢
        exact hfree (h.table_free k hk)
    · dsimp only at hk ⊢
      rcases eq_or_ne k i with rfl | hki
      · rw [hself]
        exact htd
      · rw [hother k hki] at hk ⊢
        exact h.table_dir k hk
    · dsimp only at hj hk heq
      rcases eq_or_ne j i with rfl | hji <;> rcases eq_or_ne k j with rfl | hkj
      · rfl
      · rw [hother k hkj] at hk
        rw [hself, hother k hkj] at heq
        exact absurd heq.symm (hne k hk)
      · rfl
      · rw [hother j hji] at hj heq
        rcases eq_or_ne k i with rfl | hki
        · rw [hself] at heq
          exact absurd heq (hne j hj)
        · rw [hother k hki] at hk heq
          exact h.once j k hj hk heq
  · funext k
    rcases eq_or_ne k i with rfl | hki
    · rw [update_self, tables, hself, if_pos rfl, hmem', update_of_ne htd, update_self]
    · rw [update_of_ne hki]
      refine tables_congr (hother k hki) fun hk => ?_
      rw [hmem', update_of_ne (h.table_dir k hk), update_of_ne (hne k hk)]

theorem kalloc_cases (s : Mem) : kalloc s = (.ok none, { s with fails := s.fails.tail }) ∨
    ∃ t l, s.freelist = t :: l ∧ kalloc s = (.ok (some t), { s with freelist := l, fails := s.fails.tail }) := by
  unfold kalloc
  split
  · rename_i t l _ hl
    exact .inr ⟨t, l, hl, rfl⟩
  · exact .inl rfl

theorem walk_absent {va : Nat} (hp : (s.mem d (PDX va)).p = false) :
    walkpgdir d va true s = (kalloc >>= fun r => match r with
    | none => pure none
    | some pgtab => do
      memset0 pgtab
      setEntry d (PDX va) ⟨pgtab, true, true, true, 0⟩
      pure (some (pgtab, PTX va))) s := by
  unfold walkpgdir
  rw [Cmd.bind_apply]
  change (ite _ _ _ : VmM _) s = _
  rw [hp, if_neg (by simp)]
  exact congrFun (if_pos rfl) s

theorem Tree.walk (h : Tree s d) (i : Fin NPTENTRIES) : ∃ r s₁, (∀ va, PDX va = i →
      walkpgdir d va true s = (.ok (r.map fun t => (t, PTX va)), s₁)) ∧ Tree s₁ d ∧ s₁.data = s.data ∧
    (r = none → s₁.mem = s.mem) ∧ ∀ t, r = some t → (s₁.mem d i).p = true ∧ (s₁.mem d i).page = t ∧
      s₁.mem t = opened (tables s.mem d) i ∧
      tables s₁.mem d = update (tables s.mem d) i (some (opened (tables s.mem d) i)) := by
  rcases hp : (s.mem d i).p with _ | _
  · rcases kalloc_cases s with hk | ⟨t, l, hl, hk⟩
    · refine ⟨none, { s with fails := s.fails.tail }, fun va hva => ?_, ⟨h.nodup, h.dir_free, h.table_free, h.table_dir,
        h.once⟩, rfl, fun _ => rfl, (by simp)⟩
      rw [walk_absent (hva ▸ hp), Cmd.bind_apply, hk]
      rfl
    · have hd : update s.mem t zeros d = s.mem d := by
        refine update_of_ne ?_ _ _
        rintro rfl
        exact h.dir_free (by rw [hl]; exact List.mem_cons_self)
      obtain ⟨mem', hmem'⟩ : ∃ mem', mem' = update (update s.mem t zeros) d
        (update (s.mem d) i ⟨t, true, true, true, 0⟩) := ⟨_, rfl⟩
      obtain ⟨htree, htables⟩ := h.newTable hp hl s.fails.tail hmem'
      have hopen : opened (tables s.mem d) i = zeros := by rw [opened, tables_none hp, Option.getD_none]
      have hself : mem' d i = ⟨t, true, true, true, 0⟩ := by rw [hmem', update_self, update_self]
      have htable : tables mem' d i = some (mem' t) := by rw [tables_some (by rw [hself]), hself]
      refine ⟨some t, _, fun va hva => ?_, htree, rfl, (by simp), ?_⟩
      · rw [walk_absent (hva ▸ hp), Cmd.bind_apply, hk, hmem', ← hd, ← hva]
        rfl
      · rintro t' ⟨⟩
        dsimp only
        rw [hself, hopen, htables]
        rw [htables, update_self] at htable
        exact ⟨rfl, rfl, (Option.some.inj htable).symm, rfl⟩
  · refine ⟨some (s.mem d i).page, s, ?_, h, rfl, (by simp), ?_⟩
    · rintro va rfl
      exact walk_present hp
    · rintro t ⟨⟩
      rw [opened_some (tables_some hp), ← tables_some hp, update_eq_self]
      exact ⟨hp, rfl, rfl, rfl⟩

theorem mapped_opened (tb : Tables) (i : Fin NPTENTRIES) (v : Nat) :
    mapped (update tb i (some (opened tb i))) v = mapped tb v := by
  refine mapped_congr ?_
  rcases eq_or_ne (dirIx v) i with rfl | hne
  · rw [opened, update_self, Option.getD_some]
  · rw [opened, update_of_ne hne, opened]

theorem opened_absent {tb : Tables} (hnone : mapped tb v = none) : (opened tb (dirIx v) (tabIx v)).p = false := by
  rw [Bool.eq_false_iff]
  intro hp
  rw [mapped_none] at hnone
  unfold opened at hp
  rcases htb : tb (dirIx v) with _ | c
  · rw [htb] at hp
    exact absurd hp (by simp [zeros, Entry.zero])
  · rw [htb, Option.getD_some] at hp
    exact hnone ⟨c, htb, hp⟩

section

variable (last : Nat) (w u : Bool) (f : BitVec 9) (n : Nat) (pa : Page)

theorem mapFrom_present (hp : (s.mem d (dirIx v)).p = true)
    (hfree : (s.mem (s.mem d (dirIx v)).page (tabIx v)).p = false) :
    mapFrom d last w u f (n + 1) (v * PGSIZE) pa s =
      (if v * PGSIZE = last then pure (some true) else mapFrom d last w u f n ((v * PGSIZE + PGSIZE) % 2 ^ 32)
        ((pa + 1) % 2 ^ 20))
        (s.write (s.mem d (dirIx v)).page (update (s.mem (s.mem d (dirIx v)).page) (tabIx v) ⟨pa, true, w, u, f⟩)) := by
  have hwalk : walkpgdir d (v * PGSIZE) true s = (.ok (some ((s.mem d (dirIx v)).page, tabIx v)), s) := by
    rw [← PDX_page, ← PTX_page]
    exact walk_present (by rwa [PDX_page])
  rw [mapFrom, Cmd.bind_apply, hwalk]
  change (ite _ _ _ : VmM _) s = _
  rw [if_neg (by rw [hfree]; simp)]
  rfl

theorem mapFrom_walk {t : Page} (hwalk : walkpgdir d (v * PGSIZE) true s = (.ok (some (t, PTX (v * PGSIZE))), s₁))
    (hp : (s₁.mem d (dirIx v)).p = true) (ht : (s₁.mem d (dirIx v)).page = t) :
    mapFrom d last w u f (n + 1) (v * PGSIZE) pa s = mapFrom d last w u f (n + 1) (v * PGSIZE) pa s₁ := by
  have hagain : walkpgdir d (v * PGSIZE) true s₁ = (.ok (some (t, PTX (v * PGSIZE))), s₁) := by
    rw [← ht, ← PDX_page]
    exact walk_present (by rwa [PDX_page])
  rw [mapFrom, Cmd.bind_apply, hwalk, Cmd.bind_apply, hagain]

theorem Tree.page (h : Tree s d) (hv : v < spaceEnd) (hnone : mapped (tables s.mem d) v = none) :
    (∃ s₁, Tree s₁ d ∧ s₁.data = s.data ∧ ∀ last n, mapFrom d last w u f (n + 1)
      (v * PGSIZE) pa s = (.ok (some false), s₁)) ∨
    ∃ s₁, Tree s₁ d ∧ s₁.data = s.data ∧
      (∀ v', v' < spaceEnd → mapped (tables s₁.mem d) v' = if v' = v then some ⟨pa, true, w, u, f⟩
        else mapped (tables s.mem d) v') ∧
      ∀ last n, mapFrom d last w u f (n + 1) (v * PGSIZE) pa s = (if v * PGSIZE = last then pure (some true)
        else mapFrom d last w u f n ((v * PGSIZE + PGSIZE) % 2 ^ 32) ((pa + 1) % 2 ^ 20)) s₁ := by
  obtain ⟨r, s₁, hwalk, htree, hdata, -, hsome⟩ := h.walk (dirIx v)
  have hwalk := hwalk (v * PGSIZE) (PDX_page v)
  rcases r with _ | t
  · refine .inl ⟨s₁, htree, hdata, fun last n => ?_⟩
    rw [mapFrom, Cmd.bind_apply, hwalk]
    rfl
  · obtain ⟨hp, ht, hc, htables⟩ := hsome t rfl
    have hfree : (s₁.mem t (tabIx v)).p = false := by
      rw [hc]
      exact opened_absent hnone
    obtain ⟨htree', htables'⟩ := htree.setTable hp (update (s₁.mem t) (tabIx v) ⟨pa, true, w, u, f⟩)
    rw [ht] at htree' htables'
    refine .inr ⟨_, htree', hdata, fun v' hv' => ?_, fun last n => ?_⟩
    · rw [htables', htables, update_idem, hc]
      rw [mapped_update ⟨pa, true, w, u, f⟩ hv hv' (fun k hk => update_of_ne hk _ _) (update_self ..), if_pos rfl]
    · rw [mapFrom_walk last w u f n pa hwalk hp ht, mapFrom_present last w u f n pa hp (by rwa [ht]), ht]

end

theorem page_next (h : v + 1 < spaceEnd) : (v * PGSIZE + PGSIZE) % 2 ^ 32 = (v + 1) * PGSIZE := by
  have hend : spaceEnd = 1048576 := by decide
  unfold PGSIZE
  omega

/-- **The loop is a flat map**: when it returns 0, the pages from `v` to `last` are mapped to those from `pa` on, and no
other page is mapped differently. -/
theorem mapFrom_flat {last : Nat} (hlast : last < spaceEnd) (w u : Bool) (f : BitVec 9) (k n v : Nat)
    (s : Mem) (pa : Page) (hk : v + k = last) (hn : k < n) (h : Tree s d) (hpa : pa < 2 ^ 20)
    (hnone : ∀ v', v ≤ v' → v' ≤ last → mapped (tables s.mem d) v' = none) :
    ∃ b s', mapFrom d (last * PGSIZE) w u f n (v * PGSIZE) pa s = (.ok (some b), s') ∧ Tree s' d ∧ s'.data = s.data ∧
      (b = true → ∀ v', v' < spaceEnd → mapped (tables s'.mem d) v' =
        if v ≤ v' ∧ v' ≤ last then some ⟨(pa + (v' - v)) % 2 ^ 20, true, w, u, f⟩ else mapped (tables s.mem d) v') := by
  induction k generalizing v s pa n with
  | zero =>
    obtain ⟨n, rfl⟩ : ∃ m, n = m + 1 := ⟨n - 1, by omega⟩
    obtain rfl : v = last := hk
    rcases h.page w u f pa hlast (hnone v le_rfl le_rfl) with ⟨s₁, htree, hdata, hrun⟩ | ⟨s₁, htree, hdata, hmap, hrun⟩
    · exact ⟨false, s₁, hrun _ _, htree, hdata, nofun⟩
    · refine ⟨true, s₁, (hrun _ _).trans (by rw [if_pos rfl]; rfl), htree, hdata, fun _ v' hv' => ?_⟩
      rw [hmap v' hv']
      have heq : v' = v ↔ v ≤ v' ∧ v' ≤ v := by omega
      rw [if_congr heq rfl rfl]
      split_ifs with hin
      · obtain rfl := heq.mpr hin
        rw [Nat.sub_self, Nat.add_zero, Nat.mod_eq_of_lt hpa]
      · rfl
  | succ k ih =>
    obtain ⟨n, rfl⟩ : ∃ m, n = m + 1 := ⟨n - 1, by omega⟩
    rcases h.page w u f pa (by omega) (hnone v le_rfl (by omega)) with ⟨s₁, htree, hdata, hrun⟩ |
      ⟨s₁, htree, hdata, hmap, hrun⟩
    · exact ⟨false, s₁, hrun _ _, htree, hdata, nofun⟩
    · have hne : v * PGSIZE ≠ last * PGSIZE := fun heq => by
        have := Nat.eq_of_mul_eq_mul_right (by decide) heq
        omega
      obtain ⟨b, s', hrest, htree', hdata', hflat⟩ := ih n (v + 1) s₁ ((pa + 1) % 2 ^ 20) (by omega) (by omega) htree
        (Nat.mod_lt _ (by decide)) fun v' hlo hhi => by
          rw [hmap v' (by omega), if_neg (by omega)]
          exact hnone v' (by omega) hhi
      refine ⟨b, s', ?_, htree', hdata'.trans hdata, fun hb v' hv' => ?_⟩
      · rw [hrun, if_neg hne, page_next (by omega)]
        exact hrest
      · rw [hflat hb v' hv', hmap v' hv']
        rcases Nat.lt_trichotomy v' v with hlt | rfl | hgt
        · rw [if_neg (by omega), if_neg (by omega), if_neg (by omega)]
        · rw [if_neg (by omega), if_pos rfl, if_pos (by omega), Nat.sub_self, Nat.add_zero, Nat.mod_eq_of_lt hpa]
        · rw [if_neg (show ¬ v' = v by omega)]
          refine if_congr (by omega) ?_ rfl
          have hsum : 1 + (v' - (v + 1)) = v' - v := by omega
          rw [Nat.mod_add_mod, Nat.add_assoc, hsum]

theorem inRange_eq_true {first last i : Nat} {j : Fin NPTENTRIES} :
    inRange first last i j = true ↔ first ≤ NPTENTRIES * i + j.val ∧ NPTENTRIES * i + j.val ≤ last := by
  unfold inRange
  rw [Bool.and_eq_true, Nat.ble_eq, Nat.ble_eq]

theorem fill_apply (first last : Nat) (pa : Page) (w u : Bool) (f : BitVec 9) (i : Nat) (c : Contents)
    (j : Fin NPTENTRIES) :
    fill first last pa w u f i c j = if first ≤ NPTENTRIES * i + j.val ∧ NPTENTRIES * i + j.val ≤ last then
      ⟨pa + (NPTENTRIES * i + j.val - first), true, w, u, f⟩ else c j := by
  unfold fill
  simp only [inRange_eq_true]

theorem fill_next (k pa : Nat) (w u : Bool) (f : BitVec 9) (c : Contents) :
    fill (v + 1) (v + 1 + k) (pa + 1) w u f (v / NPTENTRIES) (update c (tabIx v) ⟨pa, true, w, u, f⟩) =
      fill v (v + (k + 1)) pa w u f (v / NPTENTRIES) c := by
  funext j
  have hdiv := Nat.div_add_mod v NPTENTRIES
  have hj : j = tabIx v ↔ NPTENTRIES * (v / NPTENTRIES) + j.val = v := by
    rw [Fin.ext_iff, tabIx, Fin.val_ofNat]
    omega
  rw [fill_apply, fill_apply, update_apply, if_congr hj rfl rfl]
  generalize NPTENTRIES * (v / NPTENTRIES) + j.val = q
  rcases Nat.lt_trichotomy q v with hlt | rfl | hgt
  · rw [if_neg (by omega), if_neg (by omega), if_neg (by omega)]
  · rw [if_neg (by omega), if_pos rfl, if_pos (by omega), Nat.sub_self, Nat.add_zero]
  · rw [if_neg (show ¬ q = v by omega)]
    refine if_congr (by omega) ?_ rfl
    have hsum : pa + 1 + (q - (v + 1)) = pa + (q - v) := by omega
    rw [hsum]

theorem write_write (s : Mem) (x : Page) (c c' : Contents) : (s.write x c).write x c' = s.write x c' := by
  unfold Mem.write
  rw [update_idem]

theorem mapFrom_table {last : Nat} (hlast : last < spaceEnd) (w u : Bool) (f : BitVec 9) (k v : Nat) (s : Mem)
    (pa n : Nat)
    (hk : (v + k) / NPTENTRIES = v / NPTENTRIES) (hle : v + k ≤ last) (h : Tree s d) (hp : (s.mem d (dirIx v)).p = true)
    (ht : (s.mem d (dirIx v)).page = t) (hfree : ∀ q, v ≤ q → q ≤ v + k → (s.mem t (tabIx q)).p = false)
    (hpa : pa + (last - v) < 2 ^ 20) :
    mapFrom d (last * PGSIZE) w u f (n + k + 1) (v * PGSIZE) pa s =
      (if v + k = last then pure (some true) else mapFrom d (last * PGSIZE) w u f n ((v + k + 1) * PGSIZE) (pa + k + 1))
        (s.write t (fill v (v + k) pa w u f (v / NPTENTRIES) (s.mem t))) := by
  induction k generalizing v s pa with
  | zero =>
    simp only [Nat.add_zero] at hle hfree ⊢
    rw [mapFrom_present _ w u f _ pa hp (by rw [ht]; exact hfree v le_rfl le_rfl), ht, fill_page]
    by_cases hv : v = last
    · rw [if_pos hv, if_pos (by rw [hv])]
    · have hne : v * PGSIZE ≠ last * PGSIZE := fun heq => hv (Nat.eq_of_mul_eq_mul_right (by decide) heq)
      rw [if_neg hv, if_neg hne, page_next (by omega), Nat.mod_eq_of_lt (by omega)]
  | succ k ih =>
    have hne : v * PGSIZE ≠ last * PGSIZE := fun heq => by
      have := Nat.eq_of_mul_eq_mul_right (by decide) heq
      omega
    have hdiv : (v + 1) / NPTENTRIES = v / NPTENTRIES :=
      Nat.le_antisymm (hk ▸ Nat.div_le_div_right (by omega)) (Nat.div_le_div_right (by omega))
    have hdir : dirIx (v + 1) = dirIx v := by rw [dirIx, hdiv, dirIx]
    have htd : t ≠ d := ht ▸ h.table_dir _ hp
    have hsum : v + 1 + k = v + (k + 1) := by omega
    -- The state after page `v`.
    obtain ⟨s₁, hs₁⟩ : ∃ s₁, s₁ = s.write t (update (s.mem t) (tabIx v) ⟨pa, true, w, u, f⟩) := ⟨_, rfl⟩
    have htree₁ : Tree s₁ d := by
      rw [hs₁, ← ht]
      exact (h.setTable hp _).1
    have hd₁ : s₁.mem d = s.mem d := by
      rw [hs₁]
      exact update_of_ne htd.symm _ _
    have ht₁ : s₁.mem t = update (s.mem t) (tabIx v) ⟨pa, true, w, u, f⟩ := by
      rw [hs₁]
      exact update_self ..
    have hfree₁ : ∀ q, v + 1 ≤ q → q ≤ v + 1 + k → (s₁.mem t (tabIx q)).p = false := by
      intro q hlo hhi
      rw [ht₁, update_of_ne]
      · exact hfree q (by omega) (by omega)
      · intro heq
        have hq : q / NPTENTRIES = v / NPTENTRIES := Nat.le_antisymm (hk ▸ Nat.div_le_div_right (by omega))
          (Nat.div_le_div_right (by omega))
        have hmod := congrArg Fin.val heq
        unfold tabIx at hmod
        rw [Fin.val_ofNat, Fin.val_ofNat] at hmod
        have hq' := Nat.div_add_mod q NPTENTRIES
        have hv' := Nat.div_add_mod v NPTENTRIES
        rw [hq, hmod] at hq'
        omega
    have hrest := ih (v + 1) s₁ (pa + 1) (by rw [hsum, hk, hdiv]) (by omega) htree₁ (by rw [hdir, hd₁]; exact hp)
      (by rw [hdir, hd₁]; exact ht) hfree₁ (by omega)
    have hfuel : n + (k + 1) + 1 = n + k + 1 + 1 := by omega
    have hpa' : pa + 1 + k + 1 = pa + (k + 1) + 1 := by omega
    rw [hfuel, mapFrom_present _ w u f _ pa hp (by rw [ht]; exact hfree v le_rfl (by omega)), ht, ← hs₁, if_neg hne,
      page_next (by omega), Nat.mod_eq_of_lt (by omega), hrest, hdiv, ht₁, fill_next, hs₁, write_write, hsum, hpa']

section

variable {first last : Nat} {w u : Bool} {f : BitVec 9} {pa : Page}

theorem mapTables_none {i n : Nat} {va : Nat} (hva : i * 2 ^ 22 = va) (hwalk : walkpgdir d va true s = (.ok none, s₁)) :
    mapTables d first last pa w u f i (n + 1) s = (.ok false, s₁) := by
  subst hva
  rw [mapTables, Cmd.bind_apply]
  change (walkpgdir d (i * 2 ^ 22) true >>= _ : VmM Bool) s = _
  rw [Cmd.bind_apply, hwalk]
  rfl

theorem mapTables_some {i n : Nat} {va : Nat} {j : Fin NPTENTRIES} (hva : i * 2 ^ 22 = va)
    (hwalk : walkpgdir d va true s = (.ok (some (t, j)), s₁))
    (hfree : ∀ j, inRange first last i j = true → (s₁.mem t j).p = false) :
    mapTables d first last pa w u f i (n + 1) s = mapTables d first last pa w u f (i + 1) n
      (s₁.write t (fill first last pa w u f i (s₁.mem t))) := by
  subst hva
  rw [mapTables, Cmd.bind_apply]
  change (walkpgdir d (i * 2 ^ 22) true >>= _ : VmM Bool) s = _
  rw [Cmd.bind_apply, hwalk]
  change (ite _ _ _ : VmM Bool) s₁ = _
  rw [if_neg]
  · rfl
  · rw [Bool.and_eq_true, List.any_eq_true]
    rintro ⟨-, j, -, hj⟩
    rw [Bool.and_eq_true] at hj
    rw [hfree j hj.1] at hj
    exact absurd hj.2 (by simp)

theorem fill_part {kk : Nat} {pa : Nat} (hfirst : first ≤ v) (hstart : v = first ∨ v % NPTENTRIES = 0)
    (hkk : v + kk = last ∨ v + kk < last ∧ (v + kk + 1) / NPTENTRIES = v / NPTENTRIES + 1) (c : Contents) :
    fill v (v + kk) (pa + (v - first)) w u f (v / NPTENTRIES) c = fill first last pa w u f (v / NPTENTRIES) c := by
  funext j
  have hN : NPTENTRIES = 1024 := rfl
  rw [hN] at hstart hkk
  rw [fill_apply, fill_apply]
  obtain ⟨q, hq⟩ : ∃ q, q = NPTENTRIES * (v / NPTENTRIES) + j.val := ⟨_, rfl⟩
  rw [← hq]
  have hq : q = 1024 * (v / 1024) + j.val := hq
  by_cases hin : first ≤ q ∧ q ≤ last
  · have hsum : pa + (v - first) + (q - v) = pa + (q - first) := by omega
    rw [if_pos hin, if_pos (by omega), hsum]
  · rw [if_neg hin, if_neg (by omega)]

theorem Tree.step (h : Tree s d) (hnone : ∀ q, v ≤ q → q ≤ last → mapped (tables s.mem d) q = none)
    (hstart : v = first ∨ v % NPTENTRIES = 0) :
    (∃ s₁, (∀ e n, mapFrom d e w u f (n + 1) (v * PGSIZE) pa s = (.ok (some false), s₁)) ∧
      ∀ pa n, mapTables d first last pa w u f (v / NPTENTRIES) (n + 1) s = (.ok false, s₁)) ∨
    ∃ t s₁, Tree s₁ d ∧ (s₁.mem d (dirIx v)).p = true ∧ (s₁.mem d (dirIx v)).page = t ∧
      (∀ q, v ≤ q → q ≤ last → q / NPTENTRIES = v / NPTENTRIES → (s₁.mem t (tabIx q)).p = false) ∧
      (∀ e n, mapFrom d e w u f (n + 1) (v * PGSIZE) pa s = mapFrom d e w u f (n + 1) (v * PGSIZE) pa s₁) ∧
      (∀ pa n, mapTables d first last pa w u f (v / NPTENTRIES) (n + 1) s =
        mapTables d first last pa w u f (v / NPTENTRIES + 1) n (s₁.write t (fill first last pa w u f (v / NPTENTRIES)
          (s₁.mem t)))) ∧
      ∀ q, mapped (tables s₁.mem d) q = mapped (tables s.mem d) q := by
  obtain ⟨r, s₁, hwalk, htree, -, -, hsome⟩ := h.walk (dirIx v)
  have hwalk₁ := hwalk (v * PGSIZE) (PDX_page v)
  have hwalk₂ := hwalk (v / NPTENTRIES * 2 ^ 22) (PDX_table _)
  rcases r with _ | t
  · refine .inl ⟨s₁, fun e n => ?_, fun pa n => mapTables_none rfl hwalk₂⟩
    rw [mapFrom, Cmd.bind_apply, hwalk₁]
    rfl
  · obtain ⟨hp, ht, hc, htables⟩ := hsome t rfl
    have hfree : ∀ q, v ≤ q → q ≤ last → q / NPTENTRIES = v / NPTENTRIES → (s₁.mem t (tabIx q)).p = false := by
      intro q hlo hhi hdiv
      have hdir : dirIx q = dirIx v := by rw [dirIx, hdiv, dirIx]
      rw [hc, ← hdir]
      exact opened_absent (hnone q hlo hhi)
    refine .inr ⟨t, s₁, htree, hp, ht, hfree, fun e n => mapFrom_walk e w u f n pa hwalk₁ hp ht, fun pa n => ?_,
      fun q => ?_⟩
    · refine mapTables_some rfl hwalk₂ fun j hj => ?_
      obtain ⟨hlo, hhi⟩ := inRange_eq_true.mp hj
      have hjlt := j.isLt
      have hdiv : (NPTENTRIES * (v / NPTENTRIES) + j.val) / NPTENTRIES = v / NPTENTRIES := by
        rw [Nat.mul_add_div (by decide), Nat.div_eq_of_lt hjlt, Nat.add_zero]
      have htab : tabIx (NPTENTRIES * (v / NPTENTRIES) + j.val) = j := Fin.ext (by
        rw [tabIx, Fin.val_ofNat, Nat.mul_add_mod, Nat.mod_eq_of_lt hjlt])
      rw [← htab]
      refine hfree _ ?_ hhi hdiv
      have hv := Nat.div_add_mod v NPTENTRIES
      omega
    · rw [htables, mapped_opened]

/-- **The loop over pages does what the loop over tables does.** -/
theorem mapFrom_eq_mapTables {pa : Nat} (hlast : last < spaceEnd) (hpa : pa + (last - first) < 2 ^ 20) (k v : Nat)
    (s : Mem) (n : Nat)
    (hfirst : first ≤ v) (hstart : v = first ∨ v % NPTENTRIES = 0) (hle : v ≤ last)
    (hk : last / NPTENTRIES = v / NPTENTRIES + k)
    (h : Tree s d) (hnone : ∀ q, v ≤ q → q ≤ last → mapped (tables s.mem d) q = none) (hn : last - v < n) :
    mapFrom d (last * PGSIZE) w u f n (v * PGSIZE) (pa + (v - first)) s =
      Prod.map (Except.map some) id (mapTables d first last pa w u f (v / NPTENTRIES) (k + 1) s) := by
  induction k generalizing v s n with
  | zero =>
    have hdiv : last / NPTENTRIES = v / NPTENTRIES := hk
    obtain ⟨n, rfl⟩ : ∃ m, n = m + (last - v) + 1 := ⟨n - (last - v) - 1, by omega⟩
    have hsum : v + (last - v) = last := by omega
    rcases h.step hnone hstart with ⟨s₁, hrun, htables⟩ | ⟨t, s₁, htree, hp, ht, hfree, hrun, htables, -⟩
    · rw [hrun, htables]
      rfl
    · rw [hrun, htables, mapFrom_table hlast w u f (last - v) v s₁ _ n (by rw [hsum, hdiv]) hsum.le htree hp ht
        (fun q hlo hhi => hfree q hlo (by omega) (Nat.le_antisymm (hdiv ▸ Nat.div_le_div_right (by omega))
          (Nat.div_le_div_right hlo)))
        (by omega), if_pos hsum, fill_part hfirst hstart (.inl hsum)]
      rfl
  | succ k ih =>
    -- The pages up to the end of the table, then the rest from the first page of the next one.
    obtain ⟨kk, hkk⟩ : ∃ kk, v % NPTENTRIES + kk + 1 = NPTENTRIES :=
      ⟨NPTENTRIES - 1 - v % NPTENTRIES, by have := Nat.mod_lt v (show 0 < NPTENTRIES by decide); omega⟩
    have hnext : (v + kk + 1) / NPTENTRIES = v / NPTENTRIES + 1 ∧ (v + kk + 1) % NPTENTRIES = 0 ∧
        (v + kk) / NPTENTRIES = v / NPTENTRIES ∧ v + kk < last := by
      have hN : NPTENTRIES = 1024 := rfl
      rw [hN] at hkk hk ⊢
      omega
    obtain ⟨hdiv, hmod, hin, hlt⟩ := hnext
    obtain ⟨n, rfl⟩ : ∃ m, n = m + kk + 1 := ⟨n - kk - 1, by omega⟩
    rcases h.step hnone hstart with ⟨s₁, hrun, htables⟩ | ⟨t, s₁, htree, hp, ht, hfree, hrun, htables, hsame⟩
    · rw [hrun, htables]
      rfl
    · obtain ⟨s₂, hs₂⟩ : ∃ s₂, s₂ = s₁.write t (fill first last pa w u f (v / NPTENTRIES) (s₁.mem t)) := ⟨_, rfl⟩
      obtain ⟨htree₂, htables₂⟩ := htree.setTable hp (fill first last pa w u f (v / NPTENTRIES) (s₁.mem t))
      rw [ht, ← hs₂] at htree₂ htables₂
      have hnone₂ : ∀ q, v + kk + 1 ≤ q → q ≤ last → mapped (tables s₂.mem d) q = none := by
        intro q hlo hhi
        have hne : dirIx q ≠ dirIx v := by
          intro heq
          have := congrArg Fin.val heq
          rw [dirIx_div (by omega), dirIx_div (by omega)] at this
          have hmono := Nat.div_le_div_right (c := NPTENTRIES) hlo
          omega
        rw [htables₂, mapped, update_of_ne hne, ← mapped, hsame]
        exact hnone q (by omega) hhi
      have hpa' : pa + (v - first) + kk + 1 = pa + (v + kk + 1 - first) := by omega
      have hrest := ih (v + kk + 1) s₂ n (by omega) (.inr hmod) (by omega) (by omega) htree₂ hnone₂ (by omega)
      rw [hdiv] at hrest
      rw [hrun, htables, mapFrom_table hlast w u f kk v s₁ _ n hin hlt.le htree hp ht
        (fun q hlo hhi => hfree q hlo (by omega) (Nat.le_antisymm (hin ▸ Nat.div_le_div_right hhi)
          (Nat.div_le_div_right hlo)))
        (by omega), if_neg hlt.ne, fill_part hfirst hstart (.inr ⟨hlt, hdiv⟩), ← hs₂, hpa']
      exact hrest

end

/-- What an address is mapped to: a physical address and the flags of its entry. -/
def translate (mem : Page → Contents) (d : Page) (a : Nat) : Option (Nat × Bool × Bool × BitVec 9) :=
  (mapped (tables mem d) (a / PGSIZE)).map fun e => (e.page * PGSIZE + a % PGSIZE, e.w, e.u, e.flags)

theorem translate_none {mem : Page → Contents} {a : Nat} :
    translate mem d a = none ↔ mapped (tables mem d) (a / PGSIZE) = none := by
  unfold translate
  rw [Option.map_eq_none_iff]

section

variable {va size pa : Nat} {w u : Bool} {f : BitVec 9}

theorem last_lt (hend : va + size - 1 < 2 ^ 32) : (va + size - 1) / PGSIZE < spaceEnd := by
  have hspace : spaceEnd = 1048576 := by decide
  unfold PGSIZE
  omega

theorem mapByPage_from (hend : va + size - 1 < 2 ^ 32) :
    mapByPage d va size pa w u f = mapFrom d ((va + size - 1) / PGSIZE * PGSIZE) w u f (2 ^ 20)
      (va / PGSIZE * PGSIZE) pa := by
  unfold mapByPage PGROUNDDOWN
  rw [Nat.mod_eq_of_lt hend]

theorem mapByPage_flat (h : Tree s d) (hsize : 0 < size) (hend : va + size - 1 < 2 ^ 32) (hpa : pa < 2 ^ 20)
    (hnone : ∀ q, va / PGSIZE ≤ q → q ≤ (va + size - 1) / PGSIZE → mapped (tables s.mem d) q = none) :
    ∃ b s', mapByPage d va size pa w u f s = (.ok (some b), s') ∧ Tree s' d ∧ s'.data = s.data ∧
      (b = true → ∀ v', v' < spaceEnd → mapped (tables s'.mem d) v' =
        if va / PGSIZE ≤ v' ∧ v' ≤ (va + size - 1) / PGSIZE then some ⟨(pa + (v' - va / PGSIZE)) % 2 ^ 20,
          true, w, u, f⟩
        else mapped (tables s.mem d) v') := by
  have hlast := last_lt hend
  have hle : va / PGSIZE ≤ (va + size - 1) / PGSIZE := Nat.div_le_div_right (by omega)
  have hspace : spaceEnd = 2 ^ 20 := by decide
  rw [mapByPage_from hend]
  exact mapFrom_flat hlast w u f ((va + size - 1) / PGSIZE - va / PGSIZE) (2 ^ 20) _ s pa (Nat.add_sub_of_le hle)
    ((Nat.sub_le _ _).trans_lt (hspace ▸ hlast)) h hpa hnone

theorem mapByPage_eq (h : Tree s d) (hsize : 0 < size) (hend : va + size - 1 < 2 ^ 32)
    (hpa : pa + ((va + size - 1) / PGSIZE - va / PGSIZE) < 2 ^ 20)
    (hnone : ∀ q, va / PGSIZE ≤ q → q ≤ (va + size - 1) / PGSIZE → mapped (tables s.mem d) q = none) :
    mapByPage d va size pa w u f s = Prod.map (Except.map some) id (mappages d va size pa w u f s) := by
  have hlast := last_lt hend
  have hle : va / PGSIZE ≤ (va + size - 1) / PGSIZE := Nat.div_le_div_right (by omega)
  have hspace : spaceEnd = 2 ^ 20 := by decide
  have htables : va / PGSIZE / NPTENTRIES ≤ (va + size - 1) / PGSIZE / NPTENTRIES := Nat.div_le_div_right hle
  have heq := mapFrom_eq_mapTables (d := d) (w := w) (u := u) (f := f) hlast hpa
    ((va + size - 1) / PGSIZE / NPTENTRIES - va / PGSIZE / NPTENTRIES) (va / PGSIZE) s (2 ^ 20) le_rfl (.inl rfl) hle
    (Nat.add_sub_of_le htables).symm h hnone ((Nat.sub_le _ _).trans_lt (hspace ▸ hlast))
  rw [Nat.sub_self, Nat.add_zero] at heq
  rw [mapByPage_from hend]
  exact heq

theorem mappages_flat (h : Tree s d) (hsize : 0 < size) (hend : va + size - 1 < 2 ^ 32)
    (hpa : pa + ((va + size - 1) / PGSIZE - va / PGSIZE) < 2 ^ 20)
    (hnone : ∀ q, va / PGSIZE ≤ q → q ≤ (va + size - 1) / PGSIZE → mapped (tables s.mem d) q = none) :
    Does (mappages d va size pa w u f) (fun b s' => Tree s' d ∧ s'.data = s.data ∧
      (b = true → ∀ v', v' < spaceEnd → mapped (tables s'.mem d) v' =
        if va / PGSIZE ≤ v' ∧ v' ≤ (va + size - 1) / PGSIZE then some ⟨pa + (v' - va / PGSIZE), true, w, u, f⟩
        else mapped (tables s.mem d) v')) s := by
  have hfirst : pa < 2 ^ 20 := (Nat.le_add_right _ _).trans_lt hpa
  obtain ⟨b, s', hrun, htree, hdata, hflat⟩ := mapByPage_flat (w := w) (u := u) (f := f) h hsize hend hfirst hnone
  rw [mapByPage_eq h hsize hend hpa hnone] at hrun
  rcases hm : mappages d va size pa w u f s with ⟨_ | b', s''⟩
  · rw [hm] at hrun
    cases hrun
  · rw [hm] at hrun
    cases hrun
    refine .of_run hm ⟨htree, hdata, fun hb v' hv' => ?_⟩
    refine (hflat hb v' hv').trans (ite_congr rfl (fun hin => ?_) fun _ => rfl)
    have hsub := Nat.sub_le_sub_right hin.2 (va / PGSIZE)
    rw [Nat.mod_eq_of_lt ((Nat.add_le_add_left hsub pa).trans_lt hpa)]

end

/-- Addresses and sizes of a part of the kernel's map are multiples of `PGSIZE`. -/
structure Kmap.Aligned (k : Kmap) : Prop where
  virt : k.virt % PGSIZE = 0
  phys : k.phys_start % PGSIZE = 0
  size : (k.phys_end - k.phys_start) % PGSIZE = 0
  top : k.phys_end ≤ 2 ^ 32

theorem kmap_aligned (hl : Linked s) : ∀ k ∈ kmap s.data, k.Aligned := by
  obtain ⟨halign, hlo, hhi⟩ := hl
  unfold KERNLINK KERNBASE EXTMEM at hlo
  unfold KERNBASE PHYSTOP at hhi
  unfold PGSIZE at halign
  intro k hk
  simp only [kmap, List.mem_cons, List.not_mem_nil, or_false] at hk
  rcases hk with rfl | rfl | rfl | rfl
  all_goals
    constructor <;> simp only [KERNLINK, KERNBASE, EXTMEM, PHYSTOP, DEVSPACE, PGSIZE] <;> omega

def kmapped (ks : List Kmap) (a : Nat) : Option (Nat × Bool × Bool × BitVec 9) :=
  ks.findSome? fun k =>
    if k.virt ≤ a ∧ a < k.virt + (k.phys_end - k.phys_start) then some (k.phys_start + (a - k.virt), k.w, false, 0)
      else none

def kpage (ks : List Kmap) (v : Nat) : Option Entry :=
  ks.findSome? fun k =>
    if k.virt / PGSIZE ≤ v ∧ v ≤ (k.virt + (k.phys_end - k.phys_start) - 1) / PGSIZE then
      some ⟨k.phys_start / PGSIZE + (v - k.virt / PGSIZE), true, k.w, false, 0⟩ else none

theorem kpage_cons (k : Kmap) (ks : List Kmap) (v : Nat) :
    kpage (k :: ks) v = if k.virt / PGSIZE ≤ v ∧ v ≤ (k.virt + (k.phys_end - k.phys_start) - 1) / PGSIZE then
      some ⟨k.phys_start / PGSIZE + (v - k.virt / PGSIZE), true, k.w, false, 0⟩ else kpage ks v := by
  unfold kpage
  rw [List.findSome?_cons]
  split_ifs <;> rfl

theorem kpage_below {lo : Nat} {ks : List Kmap} (habove : Kmap.Above lo ks) (hks : ∀ k ∈ ks, k.Ok) (hv : v < lo) :
    kpage ks v = none := by
  induction ks generalizing lo with
  | nil => rfl
  | cons k ks ih =>
    have hsize := (hks k List.mem_cons_self).size
    have hle : k.virt / PGSIZE ≤ (k.virt + (k.phys_end - k.phys_start) - 1) / PGSIZE := Nat.div_le_div_right (by omega)
    have hlo := habove.1
    rw [kpage_cons, if_neg (by omega)]
    exact ih habove.2 (fun k hk => hks k (List.mem_cons_of_mem _ hk)) (by omega)

theorem kmapped_page {ks : List Kmap} (hks : ∀ k ∈ ks, k.Aligned ∧ k.Ok) (a : Nat) :
    kmapped ks a = (kpage ks (a / PGSIZE)).map fun e => (e.page * PGSIZE + a % PGSIZE, e.w, e.u, e.flags) := by
  induction ks with
  | nil => rfl
  | cons k ks ih =>
    obtain ⟨⟨hvirt, hphys, hsize, -⟩, -, hpos, -⟩ := hks k List.mem_cons_self
    unfold PGSIZE at hvirt hphys hsize
    rw [kpage_cons, kmapped, List.findSome?_cons]
    have hin : (k.virt / PGSIZE ≤ a / PGSIZE ∧ a / PGSIZE ≤ (k.virt + (k.phys_end - k.phys_start) - 1) / PGSIZE) ↔
        (k.virt ≤ a ∧ a < k.virt + (k.phys_end - k.phys_start)) := by
      unfold PGSIZE
      omega
    rw [if_congr hin rfl rfl]
    split_ifs with h
    · have haddr : (k.phys_start / PGSIZE + (a / PGSIZE - k.virt / PGSIZE)) * PGSIZE + a % PGSIZE = k.phys_start +
        (a - k.virt) := by
        unfold PGSIZE
        omega
      rw [Option.map_some, haddr]
    · exact ih fun k hk => hks k (List.mem_cons_of_mem _ hk)

theorem mapKernel_flat (ks : List Kmap) (hks : ∀ k ∈ ks, k.Aligned ∧ k.Ok) (lo : Nat) (habove : Kmap.Above lo ks)
    (s : Mem) (h : Tree s d) (hfree : ∀ v, lo ≤ v → v < spaceEnd → mapped (tables s.mem d) v = none) :
    Does (mapKernel d ks) (fun b s' => b = true → ∀ v, v < spaceEnd →
      mapped (tables s'.mem d) v = (kpage ks v).or (mapped (tables s.mem d) v)) s := by
  induction ks generalizing s lo with
  | nil => exact (does_pure true).mpr fun _ _ _ => rfl
  | cons k ks ih =>
    obtain ⟨haligned, -, hsize, htop⟩ := hks k List.mem_cons_self
    have hend : k.virt + (k.phys_end - k.phys_start) - 1 < 2 ^ 32 := by omega
    have hpages : k.phys_start / PGSIZE + ((k.virt + (k.phys_end - k.phys_start) - 1) / PGSIZE - k.virt / PGSIZE) <
      2 ^ 20 := by
      obtain ⟨hvirt, hphys, hsz, hphystop⟩ := haligned
      unfold PGSIZE at *
      omega
    rw [mapKernel]
    refine (mappages_flat h (by omega) hend hpages fun q hq hle => ?_).seq ?_
    · exact hfree q (habove.1.trans hq) (hle.trans_lt (last_lt hend))
    rintro (_ | _) s₁ ⟨htree, _, hflat⟩
    · exact (does_pure false).mpr (by simp)
    · have hflat := hflat rfl
      rw [if_pos rfl]
      have hle : k.virt / PGSIZE ≤ (k.virt + (k.phys_end - k.phys_start) - 1) / PGSIZE :=
        Nat.div_le_div_right (by omega)
      refine (ih (fun k hk => hks k (List.mem_cons_of_mem _ hk)) _ habove.2 s₁ htree fun v hv hend => ?_).mono
        fun r s' hrest hr v hv => ?_
      · rw [hflat v hend, if_neg (by omega)]
        exact hfree v (habove.1.trans (by omega)) hend
      · rw [hrest hr v hv, hflat v hv, kpage_cons]
        split_ifs with hin
        · -- The parts that follow are above this page.
          rw [kpage_below habove.2 (fun k hk => (hks k (List.mem_cons_of_mem _ hk)).2) (by omega)]
          rfl
        · rfl

theorem setupkvm_flat (hl : Linked s) (hp : Pool s 0) :
    Does setupkvm (fun r s' => ∀ d, r = some d → ∀ v, v < spaceEnd →
      mapped (tables s'.mem d) v = kpage (kmap s.data) v) s := by
  have hflat : Ends setupkvm (fun r s' => ∀ d, r = some d → ∀ v, v < spaceEnd →
    mapped (tables s'.mem d) v = kpage (kmap s.data) v) s := by
    unfold setupkvm
    refine (kalloc_ends 0).seq fun r s₁ ⟨h₁, _⟩ => ?_
    rcases r with _ | d
    · exact (ends_pure none).mpr nofun
    · rw [ends_memset0, ends_get]
      have hzero : update s₁.mem d (fun _ => .zero) d = zeros := update_self ..
      obtain ⟨hpages, htables⟩ := empty_dir hzero
      have h₂ := h₁.trans (setPage_moves (fun _ => .zero) (Multiset.mem_add.mpr (.inl (Multiset.mem_singleton_self d))))
      rw [held, add_zero, ← hpages] at h₂
      have hl₁ := hl.moves h₁
      have hks : ∀ k ∈ kmap s₁.data, k.Aligned ∧ k.Ok :=
        fun k hk => ⟨kmap_aligned hl₁ k hk, kmap_ok hl₁.data_lo hl₁.data_hi k hk⟩
      have htree : Tree { s₁ with mem := update s₁.mem d fun _ => .zero } d := (h₂.apart hp.apart).tree
      refine (mapKernel_flat _ hks 0 (kmap_above hl₁) _ htree fun v _ _ => ?_).ends.seq fun r s₃ h₃ => ?_
      · rw [htables]
        rfl
      rcases r with _ | _
      · rw [if_neg (by simp)]
        exact (Ends.trivial _).seq fun _ _ _ => (ends_pure none).mpr nofun
      · rw [if_pos rfl, ends_pure]
        rintro d' ⟨⟩ v hv
        rw [h₃ rfl v hv, htables, h₁.data]
        exact Option.or_none
  exact ((setupkvm_does hl hp).and hflat).mono fun _ _ h => h.2

theorem translate_mapByPage {va size pa : Nat} {w u : Bool} {f : BitVec 9} (h : Tree s d) (hsize : 0 < size)
    (hend : va + size - 1 < 2 ^ 32)
    (hpa : pa < 2 ^ 20) (hnone : ∀ a, PGROUNDDOWN va ≤ a → a < va + size → translate s.mem d a = none) :
    ∃ b s', mapByPage d va size pa w u f s = (.ok (some b), s') ∧ (b = true → ∀ a, a < 2 ^ 32 → translate s'.mem d a =
      if PGROUNDDOWN va ≤ a ∧ a < PGROUNDDOWN (va + size - 1) + PGSIZE then
        some ((pa * PGSIZE + (a - PGROUNDDOWN va)) % 2 ^ 32, w, u, f)
      else translate s.mem d a) := by
  obtain ⟨b, s', hrun, -, -, hflat⟩ := mapByPage_flat (w := w) (u := u) (f := f) h hsize hend hpa fun q hlo hhi => by
    have hq : q * PGSIZE / PGSIZE = q := Nat.mul_div_cancel _ (by decide)
    rw [← hq, ← translate_none]
    refine hnone _ (Nat.mul_le_mul_right _ hlo) ?_
    unfold PGSIZE at *
    omega
  refine ⟨b, s', hrun, fun hb a ha => ?_⟩
  have hspace : spaceEnd = 1048576 := by decide
  have hin : (va / PGSIZE ≤ a / PGSIZE ∧ a / PGSIZE ≤ (va + size - 1) / PGSIZE) ↔
      (PGROUNDDOWN va ≤ a ∧ a < PGROUNDDOWN (va + size - 1) + PGSIZE) := by
    unfold PGROUNDDOWN PGSIZE
    omega
  unfold translate
  rw [hflat hb _ (by unfold PGSIZE; omega), if_congr hin rfl rfl]
  split_ifs with h
  · have haddr : (pa + (a / PGSIZE - va / PGSIZE)) % 2 ^ 20 * PGSIZE + a % PGSIZE =
      (pa * PGSIZE + (a - PGROUNDDOWN va)) % 2 ^ 32 := by
      unfold PGROUNDDOWN PGSIZE at *
      omega
    rw [Option.map_some, haddr]
  · rfl

theorem translate_setupkvm (hl : Linked s) (hp : Pool s 0) :
    ∃ r s', setupkvm s = (.ok r, s') ∧ ∀ d, r = some d →
      (∀ a, a < 2 ^ 32 → translate s'.mem d a = kmapped (kmap s.data) a) ∧ ∀ a, a < KERNBASE →
      translate s'.mem d a = none := by
  obtain ⟨r, s', hrun, hflat⟩ := (setupkvm_flat hl hp).run
  have hks : ∀ k ∈ kmap s.data, k.Aligned ∧ k.Ok :=
    fun k hk => ⟨kmap_aligned hl k hk, kmap_ok hl.data_lo hl.data_hi k hk⟩
  refine ⟨r, s', hrun, fun d hd => ?_⟩
  have hall : ∀ a, a < 2 ^ 32 → translate s'.mem d a = kmapped (kmap s.data) a := by
    intro a ha
    have hspace : spaceEnd = 1048576 := by decide
    rw [translate, hflat d hd _ (by unfold PGSIZE; omega), kmapped_page hks]
  refine ⟨hall, fun a ha => ?_⟩
  rw [hall a (ha.trans (by decide)), kmapped, List.findSome?_eq_none_iff]
  intro k hk
  have hvirt := (hks k hk).2.virt
  rw [if_neg (by omega)]

/-- **The two levels are a flat map.** `mappages` returns, and when it returns 0, every address of the pages from that
of `va` to that of the last byte is mapped to its place behind `pa`, and every other address is mapped as before.
`setupkvm` returns, and its directory is the table `kmap`, with no address below `KERNBASE`. -/
theorem flat_map :
    (∀ (s : Mem) (d : Page) (va size pa : Nat) (w u : Bool) (f : BitVec 9), Tree s d → 0 < size →
      va + size - 1 < 2 ^ 32 → pa < 2 ^ 20 → (∀ a, PGROUNDDOWN va ≤ a → a < va + size → translate s.mem d a = none) →
      ∃ b s', mapByPage d va size pa w u f s = (.ok (some b), s') ∧ (b = true → ∀ a, a < 2 ^ 32 → translate s'.mem d a =
        if PGROUNDDOWN va ≤ a ∧ a < PGROUNDDOWN (va + size - 1) + PGSIZE then
          some ((pa * PGSIZE + (a - PGROUNDDOWN va)) % 2 ^ 32, w, u, f)
        else translate s.mem d a)) ∧
    ∀ s, Linked s → Pool s 0 → ∃ r s', setupkvm s = (.ok r, s') ∧ ∀ d, r = some d →
      (∀ a, a < 2 ^ 32 → translate s'.mem d a = kmapped (kmap s.data) a) ∧ ∀ a, a < KERNBASE →
      translate s'.mem d a = none :=
  ⟨fun _ _ _ _ _ _ _ _ h hsize hend hpa hnone => translate_mapByPage h hsize hend hpa hnone,
    fun _ => translate_setupkvm⟩

def tiny : Mem := ⟨fun _ => zeros, [2], [], 0, 0⟩

theorem tiny_tree : Tree tiny 1 :=
  ⟨by decide, by decide, fun _ h => absurd h (by simp [tiny, zeros, Entry.zero]), fun _ h => absurd h (by simp [tiny,
    zeros, Entry.zero]), fun _ _ h => absurd h (by simp [tiny, zeros, Entry.zero])⟩

theorem tiny_none (a : Nat) : translate tiny.mem 1 a = none := by
  rw [translate_none, mapped, tables_none (by rfl)]
  rfl

theorem maps_whole_pages : Tree tiny 1 ∧ (∀ a, translate tiny.mem 1 a = none) ∧
    (mapByPage 1 0 1 3 true true 0 tiny).1 = .ok (some true) ∧
    translate (mapByPage 1 0 1 3 true true 0 tiny).2.mem 1 1 = some (3 * PGSIZE + 1, true, true, 0) :=
  ⟨tiny_tree, tiny_none, by decide +kernel, by decide +kernel⟩

theorem flat_map_first :
    (∃ b s', mapByPage 1 0 1 3 true true 0 tiny = (.ok (some b), s') ∧
      (b = true → ∀ a, a < 2 ^ 32 → translate s'.mem 1 a =
      if PGROUNDDOWN 0 ≤ a ∧ a < PGROUNDDOWN (0 + 1 - 1) + PGSIZE then some ((3 * PGSIZE + (a - PGROUNDDOWN 0)) % 2 ^
        32, true, true, 0)
      else translate tiny.mem 1 a)) ∧
    ∃ r s', setupkvm booted.vm = (.ok r, s') ∧ ∀ d, r = some d →
      (∀ a, a < 2 ^ 32 → translate s'.mem d a = kmapped (kmap booted.vm.data) a) ∧ ∀ a, a < KERNBASE →
      translate s'.mem d a = none :=
  ⟨flat_map.1 tiny 1 0 1 3 true true 0 tiny_tree (by decide) (by decide) (by decide) fun a _ _ => tiny_none a,
    flat_map.2 booted.vm booted_exactly.linked (booted_exactly.pool.of_le (Multiset.zero_le _))⟩

end Xv6.Vm
