import Xv6.Vm.Image

/-!
# Growing with enough memory

As long as there are free pages and no `kalloc` fails, `allocuvm` extends an image: one page after
the other, and a table for each 4 MB.
-/

open Lib Function

namespace Xv6.Vm

variable {d x t : Page} {m m' m₀ : Mem} {v : Nat} {l : List Page} {w u : Bool}

theorem kfree_returns (hlo : m.kend ≤ x) (hhi : x < PHYSTOP / PGSIZE) :
    (kfree x).Returns m () { m.write x fun _ => .junk with freelist := x :: m.freelist } := by
  refine Cmd.returns_get ?_
  rw [if_neg (by rw [not_or]; exact ⟨Nat.not_lt.mpr hlo, Nat.not_le.mpr hhi⟩)]
  rfl

theorem freerange_returns (l : List Page) (m : Mem) (h : ∀ x ∈ l, m.kend ≤ x ∧ x < PHYSTOP / PGSIZE) :
    (freerange l).Returns m () { m with
      mem := fun y => if y ∈ l then fun _ => .junk else m.mem y, freelist := l.reverse ++ m.freelist } := by
  induction l generalizing m with
  | nil => simp only [List.not_mem_nil, if_false, List.reverse_nil, List.nil_append]; rfl
  | cons x l ih =>
    obtain ⟨hlo, hhi⟩ := h x List.mem_cons_self
    have hrest := ih { m.write x fun _ => .junk with freelist := x :: m.freelist } fun y hy =>
      h y (List.mem_cons_of_mem _ hy)
    have hmem : (fun y => if y ∈ l then fun _ => .junk else (m.write x fun _ => .junk).mem y) =
        fun y => if y ∈ x :: l then fun _ => .junk else m.mem y := by
      funext y
      simp only [Mem.write, update_apply, List.mem_cons]
      split_ifs <;> grind
    have hlist : l.reverse ++ x :: m.freelist = (x :: l).reverse ++ m.freelist := by simp
    rw [hmem, hlist] at hrest
    exact .seq (kfree_returns hlo hhi) hrest

theorem kalloc_returns (hfails : m.fails = []) (hl : m.freelist = x :: l) :
    kalloc.Returns m (some x) { m with freelist := l } := by
  unfold Cmd.Returns kalloc
  rw [hfails, hl]
  rfl

theorem walk_present {va : Nat} (hp : (m.mem d (PDX va)).p = true) :
    (walkpgdir d va true).Returns m (some ((m.mem d (PDX va)).page, PTX va)) m := by
  refine Cmd.returns_get ?_
  rw [if_pos hp]
  exact Cmd.returns_pure _ _

theorem walk_new {va : Nat} (hp : (m.mem d (PDX va)).p = false) (hfails : m.fails = []) (hl : m.freelist = t :: l)
    (ht : t ≠ d) : (walkpgdir d va true).Returns m (some (t, PTX va)) { m with
      mem := update (update m.mem t zeros) d (update (m.mem d) (PDX va) ⟨t, true, true, true, 0⟩)
      freelist := l } := by
  refine Cmd.returns_get ?_
  rw [if_neg (by simp [hp]), if_pos rfl]
  refine .seq (kalloc_returns hfails hl) (Cmd.returns_modify (Cmd.returns_modify ?_))
  have hd : update m.mem t (fun _ => Entry.zero) d = m.mem d := update_of_ne ht.symm _ _
  unfold Mem.write
  dsimp only
  rw [hd]
  exact Cmd.returns_pure _ _

structure Mapped (d : Page) (v : Nat) (mem mem' : Page → Contents) : Prop where
  other : ∀ k, k ≠ dirIx v → mem' d k = mem d k
  present : (mem' d (dirIx v)).p = true
  same : (mem d (dirIx v)).p = true → mem' d (dirIx v) = mem d (dirIx v)

theorem mappages_present (hp : (m.mem d (dirIx v)).p = true) (ht : (m.mem d (dirIx v)).page ≠ d)
    (hfree : (m.mem (m.mem d (dirIx v)).page (tabIx v)).p = false) (x : Page) (w u : Bool) (f : BitVec 9) :
    ∃ mem', (mappages d (v * PGSIZE) PGSIZE x w u f).Returns m true { m with mem := mem' } ∧ Mapped d v m.mem mem' := by
  rw [mappages_page]
  have hdir : PDX (v / NPTENTRIES * 2 ^ 22) = dirIx v := PDX_table _
  refine ⟨update m.mem (m.mem d (dirIx v)).page (fill v v x w u f (v / NPTENTRIES) (m.mem (m.mem d (dirIx v)).page)),
    ?_, ?_⟩
  · have hwalk := walk_present (by rw [hdir]; exact hp)
    refine Cmd.returns_get (.seq hwalk (Cmd.returns_get ?_))
    rw [hdir, if_neg]
    · exact Cmd.returns_modify (Cmd.returns_pure _ _)
    · rw [Bool.and_eq_true, List.any_eq_true]
      rintro ⟨-, j, -, hj⟩
      rw [Bool.and_eq_true, inRange_page] at hj
      rw [hj.1, hfree] at hj
      exact absurd hj.2 (by simp)
  · have hd : ∀ c, update m.mem (m.mem d (dirIx v)).page c d = m.mem d := fun c => update_of_ne ht.symm _ _
    constructor
    · intro k _
      exact congrFun (hd _) k
    · rw [hd]
      exact hp
    · intro _
      exact congrFun (hd _) _

theorem mappages_new (hp : (m.mem d (dirIx v)).p = false) (hfails : m.fails = []) (hl : m.freelist = t :: l)
    (ht : t ≠ d)
    (x : Page) (w u : Bool) (f : BitVec 9) :
    ∃ mem', (mappages d (v * PGSIZE) PGSIZE x w u f).Returns m true { m with mem := mem', freelist := l } ∧
      Mapped d v m.mem mem' := by
  rw [mappages_page]
  have hdir : PDX (v / NPTENTRIES * 2 ^ 22) = dirIx v := PDX_table _
  let mem₁ := update (update m.mem t zeros) d (update (m.mem d) (dirIx v) ⟨t, true, true, true, 0⟩)
  refine ⟨update mem₁ t (fill v v x w u f (v / NPTENTRIES) (mem₁ t)), ?_, ?_⟩
  · have hwalk := walk_new (by rw [hdir]; exact hp) hfails hl ht
    rw [hdir] at hwalk
    refine Cmd.returns_get (.seq hwalk (Cmd.returns_get ?_))
    rw [hdir, hp, if_neg (by simp)]
    exact Cmd.returns_modify (Cmd.returns_pure _ _)
  · constructor
    · intro k hk
      dsimp only [mem₁]
      rw [update_of_ne ht.symm, update_self, update_of_ne hk]
    · dsimp only [mem₁]
      rw [update_of_ne ht.symm, update_self, update_self]
    · intro h
      rw [hp] at h
      simp at h

theorem page_eq {w : Nat} (hv : v < userEnd) (hw : w < userEnd) (hdir : dirIx w = dirIx v) (htab : tabIx w = tabIx v) :
    w = v := by
  have hend : userEnd = NPTENTRIES * 512 := by decide
  have hlt : ∀ {k}, k < userEnd → k / NPTENTRIES < NPTENTRIES := fun hk =>
    (Nat.div_lt_of_lt_mul (hend ▸ hk)).trans (by decide)
  unfold dirIx at hdir
  unfold tabIx at htab
  rw [Fin.ext_iff, Fin.val_ofNat, Fin.val_ofNat, Nat.mod_eq_of_lt (hlt hw), Nat.mod_eq_of_lt (hlt hv)] at hdir
  rw [Fin.ext_iff, Fin.val_ofNat, Fin.val_ofNat] at htab
  rw [← Nat.div_add_mod w NPTENTRIES, ← Nat.div_add_mod v NPTENTRIES, hdir, htab]

theorem put_entry {tb : Tables} {w : Nat} {c : Contents} (hv : v < userEnd) (hw : w < userEnd) (hne : w ≠ v) (e : Entry)
    (hc : tb (dirIx w) = some c) : ∃ c', put tb v e (dirIx w) = some c' ∧ c' (tabIx w) = c (tabIx w) := by
  unfold put
  rw [update_apply]
  split_ifs with hdir
  · refine ⟨_, rfl, ?_⟩
    rw [update_of_ne fun htab => hne (page_eq hv hw hdir htab), opened, ← hdir, hc, Option.getD_some]
  · exact ⟨c, hc, rfl⟩

theorem present_of_put {tb : Tables} {w : Nat} (hv : v < userEnd) (hw : w < userEnd) (hne : w ≠ v) {e : Entry}
    (h : Present (put tb v e) w) : Present tb w := by
  obtain ⟨c, hc, hp⟩ := h
  unfold put at hc
  rw [update_apply] at hc
  split_ifs at hc with hdir
  · cases hc
    rw [update_of_ne fun htab => hne (page_eq hv hw hdir htab), opened, ← hdir] at hp
    rcases htb : tb (dirIx w) with _ | c'
    · rw [htb] at hp
      exact absurd hp (by simp [zeros, Entry.zero])
    · rw [htb] at hp
      exact ⟨c', htb, hp⟩
  · exact ⟨c, hc, hp⟩

structure Filled (d : Page) (m₀ : Mem) (v : Nat) (m : Mem) : Prop where
  apart : Apart m (dirPages m.mem d)
  rest : m = { m₀ with mem := m.mem, freelist := m₀.freelist.drop (v - 1 + (v - 1) / NPTENTRIES) }
  dir : ∀ k : Fin NPTENTRIES, k.val < 512 → ((m.mem d k).p = true ↔ k.val ≤ (v - 1) / NPTENTRIES)
  absent : ∀ w, v ≤ w → w < userEnd → ¬ Present (tables m.mem d) w
  first : m.mem d 0 = m₀.mem d 0
  entry : m.mem (m₀.mem d 0).page 0 = m₀.mem (m₀.mem d 0).page 0

theorem dirIx_val (hv : v < userEnd) : (dirIx v).val = v / NPTENTRIES := by
  have hend : userEnd = NPTENTRIES * 512 := by decide
  unfold dirIx
  rw [Fin.val_ofNat]
  exact Nat.mod_eq_of_lt ((Nat.div_lt_of_lt_mul (hend ▸ hv)).trans (by decide))

theorem tables_before (hv : 0 < v) : (v - 1) / NPTENTRIES = v / NPTENTRIES ∨
    (v - 1) / NPTENTRIES + 1 = v / NPTENTRIES := by
  have : NPTENTRIES = 1024 := rfl
  rw [this]
  omega

section

variable (h : Filled d m₀ v m) (hv : 0 < v) (hend : v < userEnd)
include h hv hend

theorem Filled.next {l : List Page} {mem' : Page → Contents} (hl : l = m₀.freelist.drop (v + v / NPTENTRIES))
    (hm : Moves m (dirPages m.mem d) { m with mem := mem', freelist := l } (dirPages mem' d))
    (htables : tables mem' d = put (tables m.mem d) v ⟨x, true, true, true, 0⟩) (hmap : Mapped d v m.mem mem') :
    Filled d m₀ (v + 1) { m with mem := mem', freelist := l } := by
  have hzero : dirIx 0 = 0 := rfl
  have hpresent : (m.mem d 0).p = true := (h.dir 0 (by decide)).mpr (Nat.zero_le _)
  have hfirst : mem' d 0 = m.mem d 0 := by
    rcases eq_or_ne 0 (dirIx v) with heq | hne
    · rw [heq]
      exact hmap.same (heq ▸ hpresent)
    · exact hmap.other 0 hne
  refine ⟨hm.apart h.apart, ?_, fun k hk => ?_, fun w hw hwe hp => ?_, hfirst.trans h.first, ?_⟩
  · rw [h.rest, hl]
    rfl
  · rw [Nat.add_sub_cancel, ← dirIx_val hend]
    rcases eq_or_ne k (dirIx v) with rfl | hne
    · exact iff_of_true hmap.present le_rfl
    · have hval : k.val ≠ (dirIx v).val := fun heq => hne (Fin.ext heq)
      have := tables_before hv
      rw [← dirIx_val hend] at this
      dsimp only
      rw [hmap.other k hne, h.dir k hk]
      omega
  · rw [htables] at hp
    exact h.absent w (by omega) hwe (present_of_put hend hwe (by omega) hp)
  · obtain ⟨c', hc', hentry⟩ := put_entry hend (by decide : 0 < userEnd) hv.ne ⟨x, true, true, true, 0⟩
      (hzero ▸ tables_some hpresent : tables m.mem d (dirIx 0) = some _)
    rw [← htables, hzero, tables_some (by rw [hfirst]; exact hpresent), hfirst] at hc'
    cases hc'
    rw [← h.entry, ← h.first]
    exact hentry

end

theorem mappages_succeeds (ha : Apart m ({x} + dirPages m.mem d)) (hfails : m.fails = [])
    (habsent : ¬ Present (tables m.mem d) v)
    (hfree : (m.mem d (dirIx v)).p = false → m.freelist ≠ []) (w u : Bool) (f : BitVec 9) :
    ∃ mem', (mappages d (v * PGSIZE) PGSIZE x w u f).Returns m true
        { m with mem := mem', freelist := m.freelist.drop (if (m.mem d (dirIx v)).p then 0 else 1) } ∧
        Mapped d v m.mem mem' := by
  rcases hp : (m.mem d (dirIx v)).p with _ | _
  · obtain ⟨t, l, hl⟩ := List.exists_cons_of_ne_nil (hfree hp)
    have ht : t ≠ d := by
      rintro rfl
      refine ha.not_free (Multiset.mem_add.mpr (.inr dir_mem)) ?_
      rw [hl]
      exact List.mem_cons_self
    rw [if_neg (by simp), hl]
    exact mappages_new hp hfails hl ht x w u f
  · rw [if_pos rfl, List.drop_zero]
    refine mappages_present hp (table_ne_dir (Multiset.nodup_of_le (Multiset.le_add_left _ _) ha.nodup) hp) ?_ x w u f
    rw [Bool.eq_false_iff]
    exact fun htab => habsent ⟨_, tables_some hp, htab⟩

theorem Filled.step (h : Filled d m₀ v m) (hfails : m₀.fails = []) (hv : 0 < v) (hend : v < userEnd)
    (hlen : v + v / NPTENTRIES ≤ m₀.freelist.length) :
    ∃ m', Filled d m₀ (v + 1) m' ∧ ∀ oldsz newsz n, v * PGSIZE < newsz → ∀ m'',
      (allocFrom d oldsz newsz n ((v + 1) * PGSIZE)).Returns m' true m'' →
      (allocFrom d oldsz newsz (n + 1) (v * PGSIZE)).Returns m true m'' := by
  have hbefore := tables_before hv
  have hdir := h.dir (dirIx v) (dirIx_lt hend)
  rw [dirIx_val hend] at hdir
  have hfree : m.freelist = m₀.freelist.drop (v - 1 + (v - 1) / NPTENTRIES) := by rw [h.rest]
  have hfails' : m.fails = [] := by rw [h.rest]; exact hfails
  obtain ⟨x, l, hl⟩ : ∃ x l, m.freelist = x :: l := by
    refine List.exists_cons_of_ne_nil ?_
    rw [hfree, Ne, List.drop_eq_nil_iff]
    omega
  have hl' : l = m₀.freelist.drop (v + (v - 1) / NPTENTRIES) := by
    have hdrop : (m.freelist).drop 1 = l := by rw [hl]; rfl
    rw [← hdrop, hfree, List.drop_drop]
    congr 1
    omega
  -- The page is taken and cleared.
  have htake := kalloc_returns hfails' hl
  obtain ⟨hmoves₁, htables₁⟩ := taken h.apart ((kalloc_ends _).of_ok htake).1 rfl fun _ => .zero
  have hd : update m.mem x (fun _ => .zero) d = m.mem d := by
    refine update_of_ne ?_ _ _
    rintro rfl
    refine h.apart.not_free dir_mem ?_
    rw [hl]
    exact List.mem_cons_self
  have ha₁ := hmoves₁.apart h.apart
  obtain ⟨mem', hmap, hmapped⟩ :=
    mappages_succeeds (v := v) ha₁ hfails' (by rw [htables₁]; exact h.absent v le_rfl hend) (fun hp => by
    dsimp only at hp ⊢
    rw [hd] at hp
    have hnot : ¬ v / NPTENTRIES ≤ (v - 1) / NPTENTRIES := fun hle => by
      rw [hdir.mpr hle] at hp; simp at hp
    rw [hl', Ne, List.drop_eq_nil_iff]
    omega) true true 0
  dsimp only at hmap hmapped
  obtain ⟨hmoves₂, htables₂⟩ := ((mappages_user ha₁ hend true true 0).of_ok hmap).1 rfl
  refine ⟨_, h.next hv hend ?_ (hmoves₁.trans hmoves₂) (htables₂.trans (by rw [htables₁])) ?_,
    fun oldsz newsz n hlt m'' hrest => ?_⟩
  · rw [hl', List.drop_drop]
    congr 1
    split_ifs with hp
    · rw [hd] at hp
      have := hdir.mp hp
      omega
    · rw [hd] at hp
      have hnot : ¬ v / NPTENTRIES ≤ (v - 1) / NPTENTRIES := fun hle => hp (hdir.mpr hle)
      omega
  · exact ⟨fun k hk => (hmapped.other k hk).trans (congrFun hd k), hmapped.present,
      fun hp => (hmapped.same (by rw [hd]; exact hp)).trans (congrFun hd _)⟩
  · rw [allocFrom, if_pos hlt]
    refine .seq htake (Cmd.returns_modify (.seq hmap ?_))
    rw [if_pos rfl, ← Nat.succ_mul]
    exact hrest

theorem Filled.run {n : Nat} (h : Filled d m₀ v m) (hfails : m₀.fails = []) (hv : 0 < v) (c : Nat)
    (hend : v + c ≤ userEnd) (hlen : v + c + (v + c) / NPTENTRIES ≤ m₀.freelist.length) (oldsz : Nat) :
    ∃ m', Filled d m₀ (v + c) m' ∧ (allocFrom d oldsz ((v + c) * PGSIZE) (n + c) (v * PGSIZE)).Returns m true m' := by
  induction c generalizing v m with
  | zero =>
    refine ⟨m, h, ?_⟩
    rcases n with _ | n
    all_goals
      rw [Nat.add_zero v, allocFrom, if_neg (Nat.lt_irrefl _)]
      exact Cmd.returns_pure _ _
  | succ c ih =>
    have hmono : v / NPTENTRIES ≤ (v + (c + 1)) / NPTENTRIES := Nat.div_le_div_right (by omega)
    obtain ⟨m₁, h₁, hstep⟩ := h.step hfails hv (by omega) (by omega)
    have hsum : v + 1 + c = v + (c + 1) := by omega
    obtain ⟨m', h', hrest⟩ := ih h₁ (by omega) (by omega) (by rwa [hsum])
    rw [hsum] at h' hrest
    refine ⟨m', h', hstep _ _ _ ?_ _ hrest⟩
    exact Nat.mul_lt_mul_of_pos_right (by omega) (by decide)

/-- One page and its table below `KERNBASE`. -/
def OnePage (tb : Tables) : Prop :=
  ∃ x, ∀ k : Fin NPTENTRIES, k.val < 512 → tb k = put (fun _ => none) 0 ⟨x, true, true, true, 0⟩ k

theorem filled_one (ha : Apart m (dirPages m.mem d)) (h : OnePage (tables m.mem d)) : Filled d m 1 m := by
  obtain ⟨x, hx⟩ := h
  refine ⟨ha, rfl, fun k hk => ?_, fun w hw hwe hp => ?_, rfl, rfl⟩
  · have hsome : (m.mem d k).p = true ↔ (tables m.mem d k).isSome = true := by
      unfold tables
      split_ifs with hp <;> simp [hp]
    rw [hsome, hx k hk, put, update_apply]
    have hzero : k = dirIx 0 ↔ k.val ≤ (1 - 1) / NPTENTRIES := by
      rw [Fin.ext_iff]
      exact (Nat.le_zero).symm
    rw [← hzero]
    split_ifs with hk0 <;> simp [hk0]
  · have hput : Present (put (fun _ => none) 0 ⟨x, true, true, true, 0⟩) w := by
      obtain ⟨c, hc, htab⟩ := hp
      exact ⟨c, (hx _ (dirIx_lt hwe)).symm.trans hc, htab⟩
    obtain ⟨c, hc, -⟩ := present_of_put (by decide) hwe (by omega) hput
    simp at hc

/-- **An image of one page can grow.** -/
theorem allocuvm_grows (h : Filled d m₀ 1 m₀) (hfails : m₀.fails = []) (hv : 0 < v) (hend : v < userEnd)
    (hlen : v + v / NPTENTRIES ≤ m₀.freelist.length) :
    ∃ m', Filled d m₀ v m' ∧ (allocuvm d PGSIZE (v * PGSIZE)).Returns m₀ (v * PGSIZE) m' := by
  obtain ⟨c, rfl⟩ : ∃ c, v = 1 + c := ⟨v - 1, by omega⟩
  have hfuel : 2 ^ 20 - c + c = 2 ^ 20 := by
    have : userEnd = 2 ^ 19 := by decide
    omega
  obtain ⟨m', h', hrun⟩ := h.run (n := 2 ^ 20 - c) hfails Nat.one_pos c hend.le hlen PGSIZE
  rw [hfuel] at hrun
  refine ⟨m', h', ?_⟩
  unfold allocuvm
  rw [if_neg, if_neg]
  · refine .seq hrun ?_
    rw [if_pos rfl]
    exact Cmd.returns_pure _ _
  · rw [Nat.not_lt]
    exact Nat.le_mul_of_pos_left _ (by omega)
  · rw [Nat.not_le]
    have : userEnd * PGSIZE = KERNBASE := by decide
    rw [← this]
    exact Nat.mul_lt_mul_of_pos_right hend (by decide)

end Xv6.Vm
