import Xv6.Lib.Owner
import Xv6.Vm.Code

/-!
# Who owns a page

The pages of an address space are its directory, its tables and the pages that it maps below
`KERNBASE`. A command takes pages from the free list and puts pages on it, and writes to no page
but those and its own.
-/

open Lib Function

namespace Xv6.Vm

variable {mem mem' : Page → Contents} {d x t : Page} {i : Fin NPTENTRIES}

def Entry.pages (e : Entry) : Multiset Page := if e.p then {e.page} else 0

def tablePages (c : Contents) : Multiset Page := total fun j => (c j).pages

def userPages (c : Contents) (i : Fin NPTENTRIES) : Multiset Page := if i.val < 512 then tablePages c else 0

def slotPages (mem : Page → Contents) (d : Page) (i : Fin NPTENTRIES) : Multiset Page :=
  if (mem d i).p then {(mem d i).page} + userPages (mem (mem d i).page) i else 0

def dirPages (mem : Page → Contents) (d : Page) : Multiset Page := {d} + total (slotPages mem d)

def tables (mem : Page → Contents) (d : Page) (i : Fin NPTENTRIES) : Option Contents :=
  if (mem d i).p then some (mem (mem d i).page) else none

theorem mem_tablePages {c : Contents} : x ∈ tablePages c ↔ ∃ j, (c j).p = true ∧ (c j).page = x := by
  unfold tablePages
  rw [mem_total]
  refine exists_congr fun j => ?_
  unfold Entry.pages
  split_ifs with hp
  · rw [Multiset.mem_singleton, and_iff_right hp, eq_comm]
  · exact ⟨fun h => absurd h (Multiset.notMem_zero _), fun h => absurd h.1 hp⟩

theorem mem_dirPages : x ∈ dirPages mem d ↔ x = d ∨ ∃ i, x ∈ slotPages mem d i := by
  unfold dirPages
  rw [Multiset.mem_add, Multiset.mem_singleton, mem_total]

theorem dir_mem : d ∈ dirPages mem d := mem_dirPages.mpr (.inl rfl)

theorem slot_mem (h : x ∈ slotPages mem d i) : x ∈ dirPages mem d := mem_dirPages.mpr (.inr ⟨i, h⟩)

theorem table_mem_slot (hp : (mem d i).p = true) : (mem d i).page ∈ slotPages mem d i := by
  rw [slotPages, if_pos hp]
  exact Multiset.mem_add.mpr (.inl (Multiset.mem_singleton_self _))

theorem table_mem (hp : (mem d i).p = true) : (mem d i).page ∈ dirPages mem d := slot_mem (table_mem_slot hp)

theorem user_mem_slot {j : Fin NPTENTRIES} (hi : i.val < 512) (hp : (mem d i).p = true)
    (hj : (mem (mem d i).page j).p = true) : (mem (mem d i).page j).page ∈ slotPages mem d i := by
  rw [slotPages, if_pos hp, userPages, if_pos hi]
  exact Multiset.mem_add.mpr (.inr (mem_tablePages.mpr ⟨j, hj, rfl⟩))

theorem slotPages_congr (hd : mem' d i = mem d i) (ht : (mem d i).p = true → mem' (mem d i).page = mem (mem d i).page) :
    slotPages mem' d i = slotPages mem d i := by
  unfold slotPages
  rw [hd]
  split_ifs with hp
  · rw [ht hp]
  · rfl

theorem tables_congr (hd : mem' d i = mem d i) (ht : (mem d i).p = true → mem' (mem d i).page = mem (mem d i).page) :
    tables mem' d i = tables mem d i := by
  unfold tables
  rw [hd]
  split_ifs with hp
  · rw [ht hp]
  · rfl

theorem space_congr (hd : mem' d = mem d) (ht : ∀ i, (mem d i).p = true → mem' (mem d i).page = mem (mem d i).page) :
    dirPages mem' d = dirPages mem d ∧ tables mem' d = tables mem d := by
  constructor
  · have : slotPages mem' d = slotPages mem d := funext fun i => slotPages_congr (congrFun hd i) (ht i)
    rw [dirPages, this, dirPages]
  · exact funext fun i => tables_congr (congrFun hd i) (ht i)

theorem space_frame (h : ∀ x ∈ dirPages mem d, mem' x = mem x) :
    dirPages mem' d = dirPages mem d ∧ tables mem' d = tables mem d :=
  space_congr (h d dir_mem) fun _ hp => h _ (table_mem hp)

section

variable (hn : (dirPages mem d).Nodup)
include hn

theorem slot_ne_dir (hx : x ∈ slotPages mem d i) : x ≠ d := by
  rintro rfl
  exact not_mem_of_nodup_add hn (Multiset.mem_singleton_self x) (mem_total.mpr ⟨i, hx⟩)

theorem slot_eq {j : Fin NPTENTRIES} (hi : x ∈ slotPages mem d i) (hj : x ∈ slotPages mem d j) : i = j :=
  eq_of_mem_total (Multiset.nodup_add.mp hn).2.1 hi hj

theorem table_ne_dir (hp : (mem d i).p = true) : (mem d i).page ≠ d := slot_ne_dir hn (table_mem_slot hp)

theorem table_ne {j : Fin NPTENTRIES} (hi : (mem d i).p = true) (hj : (mem d j).p = true) (hne : j ≠ i) :
    (mem d j).page ≠ (mem d i).page := fun h =>
  hne (slot_eq hn (table_mem_slot hj) (h ▸ table_mem_slot hi))

theorem user_ne_table {j k : Fin NPTENTRIES} (hi : i.val < 512) (hp : (mem d i).p = true)
    (hj : (mem (mem d i).page j).p = true)
    (hk : (mem d k).p = true) : (mem d k).page ≠ (mem (mem d i).page j).page := by
  intro h
  have huser := user_mem_slot hi hp hj
  obtain rfl := slot_eq hn (table_mem_slot hk) (h ▸ huser)
  have hslot := nodup_of_total (Multiset.nodup_add.mp hn).2.1 k
  rw [slotPages, if_pos hk, userPages, if_pos hi] at hslot
  exact not_mem_of_nodup_add hslot (Multiset.mem_singleton_self _) (mem_tablePages.mpr ⟨j, hj, h.symm⟩)

theorem user_eq {j i' j' : Fin NPTENTRIES} (hi : i.val < 512) (hp : (mem d i).p = true)
    (hj : (mem (mem d i).page j).p = true)
    (hi' : i'.val < 512) (hp' : (mem d i').p = true) (hj' : (mem (mem d i').page j').p = true)
    (h : (mem (mem d i).page j).page = (mem (mem d i').page j').page) : i = i' ∧ j = j' := by
  obtain rfl := slot_eq hn (user_mem_slot hi hp hj) (h ▸ user_mem_slot hi' hp' hj')
  have hslot := nodup_of_total (Multiset.nodup_add.mp hn).2.1 i
  rw [slotPages, if_pos hp, userPages, if_pos hi] at hslot
  have hentry : ∀ {k}, (mem (mem d i).page k).p = true →
    (mem (mem d i).page k).page ∈ (mem (mem d i).page k).pages := by
    intro k hk
    rw [Entry.pages, if_pos hk]
    exact Multiset.mem_singleton_self _
  exact ⟨rfl, eq_of_mem_total (Multiset.nodup_add.mp hslot).2.1 (hentry hj) (h ▸ hentry hj')⟩

theorem space_setTable (hp : (mem d i).p = true) (c : Contents) :
    dirPages (update mem (mem d i).page c) d + userPages (mem (mem d i).page) i =
      dirPages mem d + userPages c i ∧
    tables (update mem (mem d i).page c) d = update (tables mem d) i (some c) := by
  have hd : update mem (mem d i).page c d = mem d := update_of_ne (table_ne_dir hn hp).symm _ _
  have hother : ∀ j, j ≠ i → (mem d j).p = true → update mem (mem d i).page c (mem d j).page = mem (mem d j).page :=
    fun j hj hpj => update_of_ne (table_ne hn hp hpj hj) _ _
  constructor
  · have hmove := total_move i
      fun j hj => slotPages_congr (congrFun hd j) (hother j hj)
    have hself : slotPages (update mem (mem d i).page c) d i = {(mem d i).page} + userPages c i := by
      rw [slotPages, hd, if_pos hp, update_self]
    rw [hself, slotPages, if_pos hp] at hmove
    unfold dirPages
    refine add_left_cancel (a := {(mem d i).page}) ?_
    calc _ = {d} + (total (slotPages (update mem (mem d i).page c) d) +
          ({(mem d i).page} + userPages (mem (mem d i).page) i)) := by ac_rfl
      _ = {d} + (total (slotPages mem d) + ({(mem d i).page} + userPages c i)) := by rw [hmove]
      _ = _ := by ac_rfl
  · funext j
    rcases eq_or_ne j i with rfl | hj
    · rw [update_self, tables, hd, if_pos hp, update_self]
    · rw [update_of_ne hj]
      exact tables_congr (congrFun hd j) (hother j hj)

theorem space_setUser {j : Fin NPTENTRIES} (hi : i.val < 512) (hp : (mem d i).p = true)
    (hj : (mem (mem d i).page j).p = true) (c : Contents) :
    dirPages (update mem (mem (mem d i).page j).page c) d = dirPages mem d ∧
    tables (update mem (mem (mem d i).page j).page c) d = tables mem d :=
  space_congr (update_of_ne (slot_ne_dir hn (user_mem_slot hi hp hj)).symm _ _)
    fun _ hk => update_of_ne (user_ne_table hn hi hp hj hk) _ _

theorem space_newTable (hp : (mem d i).p = false) (ht : t ∉ dirPages mem d) (e : Entry) (he : e.p = true)
    (hpage : e.page = t) (hd : mem' d = update (mem d) i e) (hmem : ∀ x, x ≠ d → x ≠ t → mem' x = mem x) :
    dirPages mem' d = {t} + userPages (mem' t) i + dirPages mem d ∧
    tables mem' d = update (tables mem d) i (some (mem' t)) := by
  have hself : mem' d i = e := by rw [hd, update_self]
  have hother : ∀ j, j ≠ i → mem' d j = mem d j := fun j hj => by rw [hd, update_of_ne hj]
  have htable : ∀ j, (mem d j).p = true → mem' (mem d j).page = mem (mem d j).page := fun j hj =>
    hmem _ (table_ne_dir hn hj) fun h => ht (h ▸ table_mem hj)
  constructor
  · have hmove := total_move i fun j hj => slotPages_congr (hother j hj) (htable j)
    rw [slotPages, slotPages, hself, if_pos he, if_neg (by simp [hp]), hpage, add_zero] at hmove
    rw [dirPages, hmove, dirPages]
    ac_rfl
  · funext j
    rcases eq_or_ne j i with rfl | hj
    · rw [update_self, tables, hself, if_pos he, hpage]
    · rw [update_of_ne hj]
      exact tables_congr (hother j hj) (htable j)

end

/-- A command with the pages `A` ends with the pages `A'`. What it takes and gives goes through the free list. -/
structure Moves (s : Mem) (A : Multiset Page) (s' : Mem) (A' : Multiset Page) : Prop where
  pages : (s'.freelist : Multiset Page) + A' = s.freelist + A
  same : ∀ x, x ∉ (s.freelist : Multiset Page) + A → s'.mem x = s.mem x
  data : s'.data = s.data

def Apart (s : Mem) (A : Multiset Page) : Prop := ((s.freelist : Multiset Page) + A).Nodup

variable {s s' s'' : Mem} {A A' A'' : Multiset Page}

theorem Moves.refl : Moves s A s A := ⟨rfl, fun _ _ => rfl, rfl⟩

theorem Moves.trans (h : Moves s A s' A') (h' : Moves s' A' s'' A'') : Moves s A s'' A'' := by
  refine ⟨h'.pages.trans h.pages, fun x hx => ?_, h'.data.trans h.data⟩
  rw [h'.same x (by rwa [h.pages]), h.same x hx]

theorem Moves.apart (h : Moves s A s' A') (ha : Apart s A) : Apart s' A' := by
  unfold Apart
  rwa [h.pages]

theorem Moves.frame (h : Moves s A s' A') (R : Multiset Page) : Moves s (A + R) s' (A' + R) := by
  refine ⟨?_, fun x hx => h.same x fun hmem => hx ?_, h.data⟩
  · rw [← add_assoc, h.pages, add_assoc]
  · rw [← add_assoc]
    exact Multiset.mem_add.mpr (.inl hmem)

theorem Moves.frame_left (h : Moves s A s' A') (R : Multiset Page) : Moves s (R + A) s' (R + A') := by
  rw [add_comm R A, add_comm R A']
  exact h.frame R

theorem Moves.frame_same (h : Moves s A s' A') {R : Multiset Page} (ha : Apart s (A + R)) :
    ∀ x ∈ R, s'.mem x = s.mem x := by
  intro x hx
  refine h.same x fun hmem => ?_
  unfold Apart at ha
  rw [← add_assoc] at ha
  exact not_mem_of_nodup_add ha hmem hx

theorem Moves.frame_space (h : Moves s A s' A') (ha : Apart s (A + dirPages s.mem d)) :
    dirPages s'.mem d = dirPages s.mem d ∧ tables s'.mem d = tables s.mem d :=
  space_frame (h.frame_same ha)

theorem Apart.nodup (ha : Apart s A) : A.Nodup := (Multiset.nodup_add.mp ha).2.1

theorem Apart.of_le (ha : Apart s A) (h : A' ≤ A) : Apart s A' := Multiset.nodup_of_le (add_le_add_right h _) ha

theorem Apart.not_free (ha : Apart s A) (hx : x ∈ A) : x ∉ (s.freelist : Multiset Page) := fun h =>
  not_mem_of_nodup_add ha h hx

def Ends {α : Type} (x : VmM α) (Q : α → Mem → Prop) (s : Mem) : Prop := Cmd.wp x Q (fun _ _ => True) s

section

variable {α β : Type} {x : VmM α} {f : α → VmM β} {P P' : α → Mem → Prop} {Q : β → Mem → Prop}

theorem Ends.seq (hx : Ends x P s) (hf : ∀ a s', P a s' → Ends (f a) Q s') : Ends (x >>= f) Q s := Cmd.wp_seq hx hf

theorem Ends.mono (hx : Ends x P s) (h : ∀ a s', P a s' → P' a s') : Ends x P' s :=
  Cmd.wp_mono _ _ _ _ _ _ hx h fun _ _ h => h

theorem Ends.and (hx : Ends x P s) (hx' : Ends x P' s) : Ends x (fun a s' => P a s' ∧ P' a s') s := by
  unfold Ends Cmd.wp at hx hx' ⊢
  split at hx <;> rename_i heq
  · rw [heq] at hx'
    exact ⟨hx, hx'⟩
  · trivial

theorem Ends.trivial (x : VmM α) : Ends x (fun _ _ => True) s := by
  unfold Ends Cmd.wp
  split <;> exact True.intro

theorem Ends.of_ok {a : α} (hx : Ends x P s) (h : x s = (.ok a, s')) : P a s' := by
  unfold Ends Cmd.wp at hx
  rwa [h] at hx

theorem ends_forTo (n : Nat) (body : Nat → VmM Unit) (I : Nat → Mem → Prop) (h0 : I 0 s)
    (hstep : ∀ i < n, ∀ s, I i s → Ends (body i) (fun _ => I (i + 1)) s) : Ends (Cmd.forTo n body) (fun _ => I n) s :=
  Cmd.wp_forTo n body I _ s h0 hstep

theorem ends_pure (a : α) : Ends (pure a) P s ↔ P a s := Iff.rfl

theorem ends_fail (e : Panic) : Ends (Cmd.fail e) P s := trivial

theorem ends_get {f : Mem → VmM β} : Ends (Cmd.get >>= f) Q s ↔ Ends (f s) Q s := Iff.rfl

theorem ends_setPage {f : Unit → VmM β} (x : Page) (c : Contents) :
    Ends (setPage x c >>= f) Q s ↔ Ends (f ()) Q { s with mem := update s.mem x c } := Iff.rfl

theorem ends_memset0 {f : Unit → VmM β} (x : Page) :
    Ends (memset0 x >>= f) Q s ↔ Ends (f ()) Q { s with mem := update s.mem x fun _ => .zero } := Iff.rfl

theorem ends_setEntry {f : Unit → VmM β} (x : Page) (j : Fin NPTENTRIES) (e : Entry) :
    Ends (setEntry x j e >>= f) Q s ↔
      Ends (f ()) Q { s with mem := update s.mem x (update (s.mem x) j e) } := Iff.rfl

theorem ends_setEntry_last {Q : Unit → Mem → Prop} (x : Page) (j : Fin NPTENTRIES) (e : Entry) :
    Ends (setEntry x j e) Q s ↔ Q () { s with mem := update s.mem x (update (s.mem x) j e) } := Iff.rfl

end

def held : Option Page → Multiset Page
  | none => 0
  | some x => {x}

theorem kalloc_ends (A : Multiset Page) : Ends kalloc (fun r s' => Moves s A s' (held r + A) ∧ s'.mem = s.mem) s := by
  unfold Ends Cmd.wp kalloc
  split
  · rename_i heq
    split at heq
    · rename_i x l _ hl
      cases heq
      refine ⟨⟨?_, fun _ _ => rfl, rfl⟩, rfl⟩
      rw [hl, held, ← Multiset.cons_coe, ← Multiset.singleton_add]
      ac_rfl
    · cases heq
      exact ⟨⟨by rw [held, zero_add], fun _ _ => rfl, rfl⟩, rfl⟩
  · trivial

theorem kfree_ends (x : Page) :
    Ends (kfree x) (fun _ s' => (∀ A, Moves s ({x} + A) s' A) ∧ ∀ y, y ≠ x → s'.mem y = s.mem y) s := by
  unfold kfree
  rw [ends_get]
  split_ifs
  · exact ends_fail _
  · refine ⟨fun A => ⟨?_, fun y hy => ?_, rfl⟩, fun y hy => update_of_ne hy _ _⟩
    · change ((x :: s.freelist : List Page) : Multiset Page) + A = _
      rw [← Multiset.cons_coe, ← Multiset.singleton_add]
      ac_rfl
    · refine update_of_ne ?_ _ _
      rintro rfl
      exact hy (Multiset.mem_add.mpr (.inr (Multiset.mem_add.mpr (.inl (Multiset.mem_singleton_self _)))))

attribute [irreducible] Ends

theorem setPage_moves (c : Contents) (hx : x ∈ A) : Moves s A { s with mem := update s.mem x c } A := by
  refine ⟨rfl, fun y hy => update_of_ne ?_ _ _, rfl⟩
  rintro rfl
  exact hy (Multiset.mem_add.mpr (.inr hx))

theorem kfree_held (ha : Apart s ({x} + dirPages s.mem d)) :
    Ends (kfree x) (fun _ s' => Moves s ({x} + dirPages s.mem d) s' (dirPages s'.mem d) ∧
      tables s'.mem d = tables s.mem d) s := by
  refine (kfree_ends x).mono fun _ s' h => ?_
  have hframe : ∀ y ∈ dirPages s.mem d, s'.mem y = s.mem y := by
    intro y hy
    refine h.2 y ?_
    rintro rfl
    exact not_mem_of_nodup_add ha.nodup (Multiset.mem_singleton_self y) hy
  obtain ⟨hpages, htables⟩ := space_frame hframe
  rw [hpages]
  exact ⟨h.1 _, htables⟩

end Xv6.Vm
