import Xv6.Copyout.Proofs
import Xv6.Vm.Isolation

/-!
# Page directories and their bytes

The functions of `vm.c` write words: entries of 32 bits. So there are bytes for every memory that they leave, and
`copyout` works on these. The directories are those that `setupkvm`, `allocuvm` and `clearpteu` build.
-/

open Lib Function

namespace Xv6.Copyout

open Vm (Entry Contents Mem VmM PHYSTOP NPTENTRIES PDX PTX Linked Apart dirPages tables KernelOnly Moves)

variable {m m' : Mem} {d x : Page} {α β : Type}

def NPAGES : Nat := 2 ^ 32 / PGSIZE

/-- All entries are words, and the pages of the free list are pages of memory. -/
structure Words (m : Mem) : Prop where
  entry : ∀ x j, (m.mem x j).page < NPAGES
  free : ∀ x ∈ m.freelist, x < PHYSTOP / PGSIZE
  linked : Linked m

/-- Whether it returns or panics, the command leaves words. -/
def Stays (x : VmM α) : Prop := ∀ m, Words m → Cmd.wp x (fun _ => Words) (fun _ => Words) m

theorem stays_pure (a : α) : Stays (pure a) := fun _ h => h

theorem stays_fail (e : Vm.Panic) : Stays (Cmd.fail e : VmM α) := fun _ h => h

theorem stays_bind {x : VmM α} {f : α → VmM β} (hx : Stays x) (hf : ∀ a, Stays (f a)) : Stays (x >>= f) :=
  fun m h => Cmd.wp_seq (hx m h) fun a m' h' => hf a m' h'

theorem stays_forTo (n : Nat) {body : Nat → VmM Unit} (h : ∀ i, Stays (body i)) : Stays (Cmd.forTo n body) :=
  fun m hm => Cmd.wp_forTo n body (fun _ => Words) _ m hm fun i _ m' h' => h i m' h'

theorem Words.write (h : Words m) (x : Page) {c : Contents} (hc : ∀ j, (c j).page < NPAGES) :
    Words { m with mem := update m.mem x c } := by
  refine ⟨fun y j => ?_, h.free, ⟨h.linked.data_aligned, h.linked.data_lo, h.linked.data_hi⟩⟩
  dsimp only
  rw [update_apply]
  split_ifs
  · exact hc j
  · exact h.entry y j

theorem Words.setEntry (h : Words m) (x : Page) (j : Fin NPTENTRIES) {e : Entry} (he : e.page < NPAGES) :
    Words { m with mem := update m.mem x (update (m.mem x) j e) } := by
  refine h.write x fun k => ?_
  rw [update_apply]
  split_ifs
  · exact he
  · exact h.entry x k

theorem setPage_stays (x : Page) {c : Contents} (hc : ∀ j, (c j).page < NPAGES) : Stays (Vm.setPage x c) :=
  fun _ h => h.write x hc

theorem setEntry_stays (x : Page) (j : Fin NPTENTRIES) {e : Entry} (he : e.page < NPAGES) : Stays (Vm.setEntry x j e) :=
  fun _ h => h.setEntry x j he

theorem memset0_stays (x : Page) : Stays (Vm.memset0 x) := setPage_stays x fun _ => by decide

theorem kfree_stays (x : Page) : Stays (Vm.kfree x) := by
  intro m h
  unfold Vm.kfree
  rw [Cmd.wp_bind, Cmd.wp_get]
  split_ifs with hbad
  · exact h
  · rw [not_or, Nat.not_le] at hbad
    refine Cmd.wp_seq (setPage_stays x (fun _ => by decide) m h) fun _ m₁ h₁ => ?_
    refine ⟨h₁.entry, fun y hy => ?_, ⟨h₁.linked.data_aligned, h₁.linked.data_lo, h₁.linked.data_hi⟩⟩
    rcases List.mem_cons.mp hy with rfl | hy
    · exact hbad.2
    · exact h₁.free y hy

theorem kalloc_words (h : Words m) :
    Cmd.wp Vm.kalloc (fun r m' => Words m' ∧ ∀ x, r = some x → x < PHYSTOP / PGSIZE) (fun _ => Words) m := by
  unfold Cmd.wp Vm.kalloc
  split <;> rename_i heq <;> split at heq <;> cases heq
  · rename_i _ hfree
    have hmem := h.free
    rw [hfree] at hmem
    refine ⟨⟨h.entry, fun y hy => hmem y (List.mem_cons_of_mem _ hy),
      ⟨h.linked.data_aligned, h.linked.data_lo, h.linked.data_hi⟩⟩, ?_⟩
    rintro _ ⟨⟩
    exact hmem _ List.mem_cons_self
  · exact ⟨⟨h.entry, h.free, ⟨h.linked.data_aligned, h.linked.data_lo, h.linked.data_hi⟩⟩, nofun⟩

theorem kalloc_stays {f : Option Page → VmM β} (hnone : Stays (f none))
    (hsome : ∀ x < PHYSTOP / PGSIZE, Stays (f (some x))) :
    Stays (Vm.kalloc >>= f) := by
  intro m h
  refine Cmd.wp_seq (kalloc_words h) fun r m₁ ⟨h₁, hr⟩ => ?_
  rcases r with _ | x
  · exact hnone m₁ h₁
  · exact hsome x (hr x rfl) m₁ h₁

theorem page_small {x : Nat} (h : x < PHYSTOP / PGSIZE) : x + 1 < NPAGES := by
  have hmem : PHYSTOP / PGSIZE = 57344 := by decide
  have hall : NPAGES = 1048576 := by decide
  omega

theorem walkpgdir_stays (d : Page) (va : Nat) (alloc : Bool) : Stays (Vm.walkpgdir d va alloc) := by
  intro m h
  unfold Vm.walkpgdir
  rw [Cmd.wp_bind, Cmd.wp_get]
  split_ifs
  · exact h
  · refine kalloc_stays ?_ (fun t ht => ?_) m h
    · exact stays_pure none
    refine stays_bind (memset0_stays t) fun _ => stays_bind (setEntry_stays d _ ?_) fun _ => stays_pure _
    exact (Nat.lt_succ_self t).trans (page_small ht)
  · exact h

theorem mapTables_stays (d : Page) (first last : Nat) (pa : Page) (w u : Bool) (f : BitVec 9)
    (hpa : pa + (last - first) < NPAGES) (n i : Nat) : Stays (Vm.mapTables d first last pa w u f i n) := by
  induction n generalizing i with
  | zero => exact stays_pure true
  | succ n ih =>
    intro m h
    rw [Vm.mapTables, Cmd.wp_bind, Cmd.wp_get]
    refine Cmd.wp_seq (walkpgdir_stays d _ true m h) fun r m₁ h₁ => ?_
    rcases r with _ | ⟨pgtab, j⟩
    · exact h₁
    · rw [Cmd.wp_bind, Cmd.wp_get]
      split_ifs
      · exact h₁
      · refine stays_bind (setPage_stays pgtab fun j => ?_) (fun _ => ih (i + 1)) m₁ h₁
        split_ifs with hin
        · unfold Vm.inRange at hin
          rw [Bool.and_eq_true, Nat.ble_eq, Nat.ble_eq] at hin
          have hlast : NPTENTRIES * i + j - first ≤ last - first := Nat.sub_le_sub_right hin.2 first
          exact (Nat.add_le_add_left hlast pa).trans_lt hpa
        · exact h₁.entry pgtab j

theorem mappages_stays (d : Page) (va size : Nat) (pa : Page) (w u : Bool) (f : BitVec 9)
    (hpa : pa + ((va + size - 1) / PGSIZE - va / PGSIZE) < NPAGES) : Stays (Vm.mappages d va size pa w u f) :=
  mapTables_stays d _ _ pa w u f hpa _ _

theorem freeEntry_stays (pgtab : Page) (j : Fin NPTENTRIES) : Stays (Vm.freeEntry pgtab j) := by
  intro m h
  unfold Vm.freeEntry
  rw [Cmd.wp_bind, Cmd.wp_get]
  split_ifs
  · exact h
  · exact stays_bind (kfree_stays _) (fun _ => setEntry_stays pgtab j (by decide)) m h
  · exact h

theorem deallocFrom_stays (d : Page) (oldsz n a : Nat) : Stays (Vm.deallocFrom d oldsz n a) := by
  induction n generalizing a with
  | zero =>
    rw [Vm.deallocFrom]
    split_ifs
    · exact stays_fail _
    · exact stays_pure ()
  | succ n ih =>
    rw [Vm.deallocFrom]
    split_ifs
    · refine stays_bind (walkpgdir_stays d a false) ?_
      rintro (_ | ⟨pgtab, j⟩)
      · exact ih _
      · exact stays_bind (freeEntry_stays pgtab j) fun _ => ih _
    · exact stays_pure ()

theorem deallocuvm_stays (d : Page) (oldsz newsz : Nat) : Stays (Vm.deallocuvm d oldsz newsz) := by
  unfold Vm.deallocuvm
  split_ifs
  · exact stays_pure _
  · exact stays_bind (deallocFrom_stays d _ _ _) fun _ => stays_pure _

theorem freeTable_stays (d : Page) (i : Nat) : Stays (Vm.freeTable d i) := by
  intro m h
  unfold Vm.freeTable
  rw [Cmd.wp_bind, Cmd.wp_get]
  split_ifs
  · exact kfree_stays _ m h
  · exact h

theorem freeTables_stays (d : Page) : Stays (Vm.freeTables d) := by
  unfold Vm.freeTables
  generalize NPTENTRIES = n
  exact stays_forTo n (freeTable_stays d)

attribute [local irreducible] Vm.freeTables

theorem freevm_stays (d : Page) : Stays (Vm.freevm d) := by
  unfold Vm.freevm
  exact stays_bind (deallocuvm_stays d _ _) fun _ => stays_bind (freeTables_stays d) fun _ => kfree_stays d

theorem mapKernel_stays (d : Page) (ks : List Vm.Kmap)
    (hks : ∀ k ∈ ks, k.phys_start / PGSIZE + ((k.virt + (k.phys_end - k.phys_start) - 1) / PGSIZE - k.virt / PGSIZE) <
      NPAGES) :
    Stays (Vm.mapKernel d ks) := by
  induction ks with
  | nil => exact stays_pure true
  | cons k ks ih =>
    rw [Vm.mapKernel]
    refine stays_bind (mappages_stays d _ _ _ _ _ _ (hks k List.mem_cons_self)) fun r => ?_
    split_ifs
    · exact ih fun k hk => hks k (List.mem_cons_of_mem _ hk)
    · exact stays_pure false

theorem kmap_words (h : Linked m) : ∀ k ∈ Vm.kmap m.data,
    k.phys_start / PGSIZE + ((k.virt + (k.phys_end - k.phys_start) - 1) / PGSIZE - k.virt / PGSIZE) < NPAGES := by
  obtain ⟨halign, hlo, hhi⟩ := h
  unfold Vm.KERNLINK KERNBASE Vm.EXTMEM at hlo
  unfold KERNBASE Vm.PHYSTOP at hhi
  unfold PGSIZE at halign
  intro k hk
  simp only [Vm.kmap, List.mem_cons, List.not_mem_nil, or_false] at hk
  rcases hk with rfl | rfl | rfl | rfl
  all_goals
    simp only [NPAGES, Vm.KERNLINK, KERNBASE, Vm.EXTMEM, Vm.PHYSTOP, Vm.DEVSPACE, PGSIZE]
    omega

theorem setupkvm_stays : Stays Vm.setupkvm := by
  unfold Vm.setupkvm
  refine kalloc_stays (stays_pure none) fun d _ => ?_
  refine stays_bind (memset0_stays d) fun _ m h => ?_
  rw [Cmd.wp_bind, Cmd.wp_get]
  refine Cmd.wp_seq (mapKernel_stays d _ (kmap_words h.linked) m h) fun r m₁ h₁ => ?_
  split_ifs
  · exact h₁
  · exact stays_bind (freevm_stays d) (fun _ => stays_pure none) m₁ h₁

theorem allocFrom_stays (d : Page) (oldsz newsz n a : Nat) : Stays (Vm.allocFrom d oldsz newsz n a) := by
  induction n generalizing a with
  | zero =>
    rw [Vm.allocFrom]
    split_ifs
    · exact stays_fail _
    · exact stays_pure true
  | succ n ih =>
    rw [Vm.allocFrom]
    split_ifs
    · refine kalloc_stays (stays_bind (deallocuvm_stays d _ _) fun _ => stays_pure false) fun x hx => ?_
      have hsmall := page_small hx
      have hpages : x + ((a + PGSIZE - 1) / PGSIZE - a / PGSIZE) < NPAGES := by
        have hone : (a + PGSIZE - 1) / PGSIZE - a / PGSIZE ≤ 1 := by
          unfold PGSIZE
          omega
        exact (Nat.add_le_add_left hone x).trans_lt hsmall
      refine stays_bind (memset0_stays x) fun _ => stays_bind (mappages_stays d a PGSIZE x true true 0 hpages)
        fun r => ?_
      split_ifs
      · exact ih _
      · exact stays_bind (deallocuvm_stays d _ _) fun _ => stays_bind (kfree_stays x) fun _ => stays_pure false
    · exact stays_pure true

theorem allocuvm_stays (d : Page) (oldsz newsz : Nat) : Stays (Vm.allocuvm d oldsz newsz) := by
  unfold Vm.allocuvm
  split_ifs
  · exact stays_pure 0
  · exact stays_pure oldsz
  · refine stays_bind (allocFrom_stays d _ _ _ _) fun r => ?_
    split_ifs
    · exact stays_pure newsz
    · exact stays_pure 0

theorem clearpteu_stays (d : Page) (uva : Nat) : Stays (Vm.clearpteu d uva) := by
  unfold Vm.clearpteu
  refine stays_bind (walkpgdir_stays d uva false) ?_
  rintro (_ | ⟨pgtab, j⟩)
  · exact stays_fail _
  · intro m h
    rw [Cmd.wp_bind, Cmd.wp_get]
    exact h.setEntry pgtab j (h.entry pgtab j)

def wordOf (e : Entry) : Nat := e.page * PGSIZE + e.p.toNat + 2 * e.w.toNat + 4 * e.u.toNat + 8 * e.flags.toNat

theorem word_parts (x : Nat) (p w u : Bool) {f : Nat} (hf : f < 512) {n : Nat}
    (hn : x * 4096 + p.toNat + 2 * w.toNat + 4 * u.toNat + 8 * f = n) :
    n / 4096 = x ∧ n % 2 = p.toNat ∧ n / 2 % 2 = w.toNat ∧ n / 4 % 2 = u.toNat ∧ n / 8 % 512 = f ∧
    (x < NPAGES → n < 256 ^ 4) := by
  have hp := Bool.toNat_le p
  have hw := Bool.toNat_le w
  have hu := Bool.toNat_le u
  have hall : NPAGES = 1048576 := by decide
  omega

theorem entryOf_wordOf (e : Entry) : entryOf (wordOf e) = e := by
  obtain ⟨x, p, w, u, f⟩ := e
  generalize hn : wordOf ⟨x, p, w, u, f⟩ = n
  obtain ⟨hx, hp, hw, hu, hf, -⟩ := word_parts x p w u f.isLt hn
  have hbit : ∀ b : Bool, decide (b.toNat = 1) = b := by decide
  have hflags : BitVec.ofNat 9 (n / 8) = f := BitVec.eq_of_toNat_eq (by rw [BitVec.toNat_ofNat]; exact hf)
  unfold entryOf PGSIZE
  rw [hx, hp, hw, hu, hbit, hbit, hbit, hflags]

theorem wordOf_lt {e : Entry} (h : e.page < NPAGES) : wordOf e < 256 ^ 4 :=
  (word_parts e.page e.p e.w e.u e.flags.isLt rfl).2.2.2.2.2 h

def bytesOf (mem : Page → Contents) : Bytes := fun x o => leByte (wordOf (mem x (Fin.ofNat NPTENTRIES (o / 4)))) (o % 4)

theorem view_bytesOf {mem : Page → Contents} (h : ∀ x j, (mem x j).page < NPAGES) : view (bytesOf mem) = mem := by
  funext x j
  have hbytes : ∀ i < 4, bytesOf mem x (4 * j.val + i) = leByte (wordOf (mem x j)) i := by
    intro i hi
    have hdiv : (4 * j.val + i) / 4 = j.val := by omega
    have hmod : (4 * j.val + i) % 4 = i := by omega
    rw [bytesOf, hdiv, hmod, Fin.ofNat_val_eq_self]
  rw [view, word, leVal_congr _ _ 4 hbytes, leVal_leByte, Nat.mod_eq_of_lt (wordOf_lt (h x j)), entryOf_wordOf]

/-- The directory is as `setupkvm` returns it, and then `allocuvm` and `clearpteu` work on it. Everything else only
writes to other pages than the directory and its tables. -/
inductive Built : Mem → Page → Prop
  | setupkvm {m m' : Mem} {d : Page} : Linked m → Apart m 0 → Vm.setupkvm m = (.ok (some d), m') → Built m' d
  | allocuvm {m m' : Mem} {d : Page} (oldsz newsz r : Nat) : Built m d → Vm.allocuvm d oldsz newsz m = (.ok r, m') →
      Built m' d
  | clearpteu {m m' : Mem} {d : Page} (uva : Nat) : Built m d → Vm.clearpteu d uva m = (.ok (), m') → Built m' d
  | other {m m' : Mem} {d : Page} : Built m d → m'.mem d = m.mem d →
      (∀ i, (m.mem d i).p = true → m'.mem (m.mem d i).page = m.mem (m.mem d i).page) →
      Apart m' (dirPages m.mem d) → Built m' d

theorem userPages_clear (c : Contents) (i j : Fin NPTENTRIES) :
    Vm.userPages (update c j { c j with u := false }) i = Vm.userPages c i := by
  by_cases hi : i.val < 512
  · exact add_right_cancel (Vm.userPages_set hi c j { c j with u := false })
  · unfold Vm.userPages
    rw [if_neg hi, if_neg hi]

theorem clearpteu_keeps (ha : Apart m (dirPages m.mem d)) (hk : KernelOnly (tables m.mem d)) (uva : Nat) :
    Vm.Ends (Vm.clearpteu d uva) (fun _ m' => Apart m' (dirPages m'.mem d) ∧ KernelOnly (tables m'.mem d)) m := by
  unfold Vm.clearpteu
  rw [Vm.ends_walk]
  split_ifs with hdir
  · rw [Vm.ends_get, Vm.ends_setEntry_last]
    obtain ⟨hpages, htables⟩ := Vm.space_setTable ha.nodup hdir
      (update (m.mem (m.mem d (PDX uva)).page) (PTX uva) { m.mem (m.mem d (PDX uva)).page (PTX uva) with u := false })
    rw [userPages_clear] at hpages
    rw [add_right_cancel hpages, htables]
    refine ⟨ha, fun k hk' c hc j hj => ?_⟩
    rw [update_apply] at hc
    split_ifs at hc with hki
    · cases hc
      rw [update_apply] at hj ⊢
      split_ifs at hj ⊢
      · rfl
      · exact hk (PDX uva) (hki ▸ hk') _ (Vm.tables_some hdir) j hj
    · exact hk k hk' c hc j hj
  · exact Vm.ends_fail _

theorem Built.space (h : Built m d) : Apart m (dirPages m.mem d) ∧ KernelOnly (tables m.mem d) := by
  induction h with
  | setupkvm hl ha hrun =>
    obtain ⟨hmoves, hkernel, -⟩ := (Vm.setupkvm_ends hl ha).of_ok hrun
    exact ⟨hmoves.apart ha, hkernel⟩
  | allocuvm oldsz newsz r _ hrun ih =>
    obtain ⟨hmoves, hsame, -⟩ := (Vm.allocuvm_ends ih.1 oldsz newsz).of_ok hrun
    exact ⟨hmoves.apart ih.1, ih.2.of_same hsame⟩
  | clearpteu uva _ hrun ih => exact (clearpteu_keeps ih.1 ih.2 uva).of_ok hrun
  | other _ hdir htab ha ih =>
    obtain ⟨hpages, htables⟩ := Vm.space_congr hdir htab
    rw [hpages, htables]
    exact ⟨ha, ih.2⟩

structure Shows (bytes : Bytes) (m : Mem) (d : Page) : Prop where
  dir : view bytes d = m.mem d
  tab : ∀ i, (m.mem d i).p = true → view bytes (m.mem d i).page = m.mem (m.mem d i).page

theorem Built.bytes {bytes : Bytes} (h : Built m d) (hs : Shows bytes m d) : Space bytes d := by
  obtain ⟨ha, hkernel⟩ := h.space
  obtain ⟨hpages, htables⟩ := Vm.space_congr hs.dir hs.tab
  refine ⟨?_, ?_⟩
  · rw [hpages]
    exact ha.nodup
  · rw [htables]
    exact hkernel

theorem Words.shows (h : Words m) (d : Page) : Shows (bytesOf m.mem) m d := by
  constructor
  · rw [view_bytesOf h.entry]
  · intro i _
    rw [view_bytesOf h.entry]

/-- **`copyout` is exact** if and only if every page that it comes to has a page table. -/
theorem copyout_exact_iff {s : Phys} {va : Nat} (h : Built m d) (hs : Shows s.bytes m d) (hva : va < 2 ^ 32)
    (src : List Byte) (cur : Page) :
    Exact (atNull cur) d va src s ↔ Reached s.bytes d va src.length :=
  ⟨reached_of_exact (h.bytes hs) hva, exact_of_reached (h.bytes hs) hva⟩

/-! ## The image of a program without segments

It has a guard page and a stack page. An argument that is 32 MB longer takes the stack pointer to an address between the
kernel's memory and the devices, where there is no page table.
-/

def afterStack : Mem := (Vm.allocuvm 1023 0 (2 * PGSIZE) Vm.afterKvm).2

def image : Mem := (Vm.clearpteu 1023 0 afterStack).2

set_option maxRecDepth 100000 in
theorem image_eval : (Vm.allocuvm 1023 0 (2 * PGSIZE) Vm.afterKvm).1 = .ok (2 * PGSIZE) ∧
    (Vm.clearpteu 1023 0 afterStack).1 = .ok () ∧
    (image.mem 1023 0).p = true ∧ (image.mem 1023 1015).p = false := by decide +kernel

theorem afterLow_free : Vm.afterLow.freelist = Vm.lowPages.reverse := by rw [Vm.afterLow, List.append_nil]

theorem afterLow_words : Words Vm.afterLow := by
  refine ⟨fun x j => ?_, fun x hx => ?_, ⟨by decide, by decide, by decide⟩⟩
  · unfold Vm.afterLow
    dsimp only
    split_ifs
    · exact (by decide : Entry.junk.page < NPAGES)
    · exact (by decide : Entry.zero.page < NPAGES)
  · rw [afterLow_free, List.mem_reverse, Vm.lowPages, List.mem_range'_1] at hx
    exact hx.2.trans (by decide)

theorem afterLow_apart : Apart Vm.afterLow 0 := by
  unfold Apart
  rw [afterLow_free, add_zero, Multiset.coe_nodup, List.nodup_reverse]
  exact List.nodup_range'

theorem Words.after {x : VmM α} {a : α} (h : Words m) (hx : Stays x) (hrun : x m = (.ok a, m')) : Words m' := by
  have := hx m h
  unfold Cmd.wp at this
  rwa [hrun] at this

theorem image_runs : Vm.setupkvm Vm.afterLow = (.ok (some 1023), Vm.afterKvm) ∧
    Vm.allocuvm 1023 0 (2 * PGSIZE) Vm.afterKvm = (.ok (2 * PGSIZE), afterStack) ∧
    Vm.clearpteu 1023 0 afterStack = (.ok (), image) :=
  ⟨Cmd.returns_of_fst Vm.afterKvm_eval.1, Cmd.returns_of_fst image_eval.1, Cmd.returns_of_fst image_eval.2.1⟩

theorem image_words : Words image := by
  obtain ⟨hkvm, halloc, hclear⟩ := image_runs
  exact ((afterLow_words.after setupkvm_stays hkvm).after (allocuvm_stays _ _ _) halloc).after
    (clearpteu_stays _ _) hclear

theorem image_built : Built image 1023 := by
  obtain ⟨hkvm, halloc, hclear⟩ := image_runs
  exact .clearpteu 0 (.allocuvm _ _ _ (.setupkvm afterLow_words.linked afterLow_apart hkvm) halloc) hclear

theorem copyout_exact_iff_image : Exact (atNull 1023) 1023 PGSIZE [1, 2, 3] ⟨bytesOf image.mem, 0⟩ := by
  refine (copyout_exact_iff (s := ⟨bytesOf image.mem, 0⟩) image_built (image_words.shows 1023) (by decide) _ _).mpr ?_
  intro i hi _
  have hdir : PDX ((PGSIZE + i) % 2 ^ 32) = 0 := by
    change i < 3 at hi
    unfold PDX PGSIZE
    have : (4096 + i) % 2 ^ 32 / 2 ^ 22 = 0 := by omega
    rw [this]
    decide
  rw [view_bytesOf image_words.entry, Vm.pte, hdir, image_eval.2.2.1, if_pos rfl]
  exact Option.some_ne_none _

theorem image_reads_null (cur : Page) (arg : List Byte) (h : arg ≠ []) (n : Nat) :
    n < (copyout (atNull cur) 1023 0xfdfff000 arg ⟨bytesOf image.mem, n⟩).2.nulls := by
  refine copyout_null (s := ⟨bytesOf image.mem, n⟩) _ (image_built.bytes (image_words.shows 1023))
    (by decide) fun hr => ?_
  have hpte := hr 0 (List.length_pos_iff.mpr h) fun j hj => absurd hj (Nat.not_lt_zero j)
  have hdir : PDX ((0xfdfff000 + 0) % 2 ^ 32) = 1015 := by decide
  rw [view_bytesOf image_words.entry, Vm.pte, hdir, image_eval.2.2.2, if_neg (by decide)] at hpte
  exact hpte rfl

/-- An argument of 33 MB. -/
def longString : List Byte := List.replicate 0x2002fff 97

theorem long_argument_reads_null : Built image 1023 ∧ Shows (bytesOf image.mem) image 1023 ∧
    argSp (2 * PGSIZE) longString.length = 0xfdfff000 ∧
    ∀ cur, 0 < (copyout (atNull cur) 1023 0xfdfff000 (longString ++ [0]) ⟨bytesOf image.mem, 0⟩).2.nulls := by
  refine ⟨image_built, image_words.shows 1023, ?_, fun cur => ?_⟩
  · rw [longString, List.length_replicate]
    decide
  · generalize longString = arg
    exact image_reads_null cur _ (List.append_ne_nil_of_right_ne_nil _ (List.cons_ne_nil _ _)) 0

end Xv6.Copyout
