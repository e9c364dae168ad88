import Mathlib
import Xv6.Vm.Sbrk

/-!
# The range of `allocuvm` and `deallocuvm`

Both write to free pages, to the directory and to its tables, and `deallocuvm` also frees what is mapped in its range.
A user page outside of the range keeps its entry and what it holds.
-/

open Lib Function

namespace Xv6.Vm

variable {d m x y : Page} {s s' s'' : Mem} {v w w' : Nat} {mem : Page → Contents} {e e' : Entry} {T : Page → Prop}

theorem mapped_unique (hn : (dirPages mem d).Nodup) (hw : w < userEnd) (hw' : w' < userEnd)
    (he : mapped (tables mem d) w = some e)
    (he' : mapped (tables mem d) w' = some e') (hpage : e.page = e'.page) : w = w' := by
  obtain ⟨hdir, hp, rfl⟩ := mapped_eq_some.mp he
  obtain ⟨hdir', hp', rfl⟩ := mapped_eq_some.mp he'
  obtain ⟨hi, hj⟩ := user_eq hn (dirIx_lt hw) hdir hp (dirIx_lt hw') hdir' hp' hpage
  exact page_eq hw' hw hi hj

def missing (mem : Page → Contents) (d : Page) (lo hi : Nat) : Finset (Fin NPTENTRIES) :=
  ((Finset.Ico lo hi).image dirIx).filter fun k => (mem d k).p = false

theorem mem_missing {lo hi : Nat} {k : Fin NPTENTRIES} :
    k ∈ missing mem d lo hi ↔ (∃ w, (lo ≤ w ∧ w < hi) ∧ dirIx w = k) ∧ (mem d k).p = false := by
  unfold missing
  rw [Finset.mem_filter, Finset.mem_image]
  simp only [Finset.mem_Ico]

theorem missing_next {mem' : Page → Contents} {hi : Nat} (hv : v < hi) (h : Mapped d v mem mem') :
    (missing mem' d (v + 1) hi).card + (if (mem d (dirIx v)).p then 0 else 1) ≤ (missing mem d v hi).card := by
  have hsub : missing mem' d (v + 1) hi ⊆ (missing mem d v hi).erase (dirIx v) := by
    intro k hk
    obtain ⟨⟨w, hw, rfl⟩, hp⟩ := mem_missing.mp hk
    have hne : dirIx w ≠ dirIx v := by
      intro heq
      rw [heq, h.present] at hp
      simp at hp
    rw [Finset.mem_erase, mem_missing, ← h.other _ hne]
    exact ⟨hne, ⟨w, ⟨by omega, hw.2⟩, rfl⟩, hp⟩
  have hcard := Finset.card_le_card hsub
  split_ifs with hp
  · exact hcard.trans (Finset.card_erase_le)
  · have hmem : dirIx v ∈ missing mem d v hi := mem_missing.mpr ⟨⟨v, ⟨le_rfl, hv⟩, rfl⟩, by simpa using hp⟩
    rw [Finset.card_erase_of_mem hmem] at hcard
    have := Finset.card_pos.mpr ⟨_, hmem⟩
    omega

theorem allocFrom_succeeds (oldsz newsz : Nat) (hk : newsz ≤ KERNBASE) (n v : Nat) (s : Mem)
    (ha : Apart s (dirPages s.mem d)) (hfuel : newsz ≤ (v + n) * PGSIZE)
    (hfree : ∀ w, v ≤ w → w * PGSIZE < newsz → mapped (tables s.mem d) w = none) (hfails : s.fails = [])
    (hlen : pagesOf newsz - v + (missing s.mem d v (pagesOf newsz)).card ≤ s.freelist.length) :
    ∃ s', (allocFrom d oldsz newsz n (v * PGSIZE)).Returns s true s' := by
  induction n generalizing v s with
  | zero =>
    rw [Nat.add_zero] at hfuel
    rw [allocFrom, if_neg (Nat.not_lt.mpr hfuel)]
    exact ⟨s, Cmd.returns_pure _ _⟩
  | succ n ih =>
    rw [allocFrom]
    split_ifs with hlt
    · have hend : v < userEnd := page_lt hk hlt
      have hpages : v < pagesOf newsz := by
        rw [← Nat.not_le, pagesOf_le]
        omega
      obtain ⟨x, l, hl⟩ : ∃ x l, s.freelist = x :: l := by
        refine List.exists_cons_of_ne_nil fun hnil => ?_
        rw [hnil, List.length_nil] at hlen
        omega
      have hlen' : s.freelist.length = l.length + 1 := by rw [hl, List.length_cons]
      have htake := kalloc_returns hfails hl
      obtain ⟨hm₁, htables₁⟩ := taken ha ((kalloc_ends _).of_ok htake).1 rfl fun _ => .zero
      have hd : update s.mem x (fun _ => .zero) d = s.mem d := by
        refine update_of_ne ?_ _ _
        rintro rfl
        refine ha.not_free dir_mem ?_
        rw [hl]
        exact List.mem_cons_self
      have ha₁ := hm₁.apart ha
      have hneed : (s.mem d (dirIx v)).p = false → l ≠ [] := by
        rintro hp rfl
        have := Finset.card_pos.mpr ⟨_, mem_missing.mpr ⟨⟨v, ⟨le_rfl, hpages⟩, rfl⟩, hp⟩⟩
        rw [List.length_nil] at hlen'
        omega
      obtain ⟨mem', hmap, hmapped⟩ := mappages_succeeds (v := v) ha₁ hfails
        (by rw [htables₁, ← mapped_none]; exact hfree v le_rfl hlt) (fun hp => hneed (by rwa [← hd])) true true 0
      dsimp only at hmap hmapped
      obtain ⟨hm₂, htables₂⟩ := ((mappages_user ha₁ hend true true 0).of_ok hmap).1 rfl
      have hmapped' : Mapped d v s.mem mem' :=
        ⟨fun k hk => (hmapped.other k hk).trans (congrFun hd k), hmapped.present,
          fun hp => (hmapped.same (by rw [hd]; exact hp)).trans (congrFun hd _)⟩
      have hfree' : ∀ w, v + 1 ≤ w → w * PGSIZE < newsz → mapped (tables mem' d) w = none := by
        intro w hvw hw
        rw [htables₂, mapped_put _ _ rfl hend (page_lt hk hw), if_neg (by omega)]
        rw [htables₁]
        exact hfree w (by omega) hw
      have hnext := missing_next hpages hmapped'
      have hleft : pagesOf newsz - (v + 1) + (missing mem' d (v + 1) (pagesOf newsz)).card ≤
          (l.drop (if (s.mem d (dirIx v)).p then 0 else 1)).length := by
        rw [List.length_drop]
        split_ifs at hnext ⊢
        · omega
        · omega
      obtain ⟨s', hrest⟩ := ih (v + 1) _ ((hm₁.trans hm₂).apart ha) (by rwa [Nat.add_right_comm]) hfree' hfails
        (by simpa only [hd] using hleft)
      refine ⟨s', .seq htake (Cmd.returns_modify (.seq hmap ?_))⟩
      rw [if_pos rfl, ← Nat.succ_mul]
      exact hrest
    · exact ⟨s, Cmd.returns_pure _ _⟩

def Between (lo hi w : Nat) : Prop := lo ≤ w * PGSIZE ∧ w * PGSIZE < hi

theorem PGROUNDUP_le {a : Nat} : PGROUNDUP a ≤ w * PGSIZE ↔ pagesOf a ≤ w := Nat.mul_le_mul_right_iff (by decide)

theorem lt_PGROUNDUP {a : Nat} : w * PGSIZE < PGROUNDUP a ↔ w * PGSIZE < a := by
  rw [← Nat.not_le, PGROUNDUP_le, pagesOf_le, Nat.not_le]

theorem between_iff {lo hi : Nat} : Between (PGROUNDUP lo) hi w ↔ pagesOf lo ≤ w ∧ w * PGSIZE < hi := by
  unfold Between
  rw [PGROUNDUP_le]

structure Beside (d : Page) (lo hi : Nat) (s s' : Mem) : Prop where
  user : ∀ w, w < userEnd → ¬ Between lo hi w → mapped (tables s'.mem d) w = mapped (tables s.mem d) w
  kernel : ∀ k, 512 ≤ k.val → tables s'.mem d k = tables s.mem d k
  contents : ∀ w, w < userEnd → ¬ Between lo hi w → ∀ e, mapped (tables s.mem d) w = some e →
    s'.mem e.page = s.mem e.page

theorem Moves.mem_free {A A' : Multiset Page} (h : Moves s A s' A') (ha : Apart s A) :
    x ∈ s'.freelist ↔ (x ∈ s.freelist ∨ x ∈ A) ∧ x ∉ A' := by
  have hnodup : ((s'.freelist : Multiset Page) + A').Nodup := h.apart ha
  have hmem : x ∈ (s'.freelist : Multiset Page) + A' ↔ x ∈ (s.freelist : Multiset Page) + A := by rw [h.pages]
  rw [Multiset.mem_add, Multiset.mem_add, Multiset.mem_coe, Multiset.mem_coe] at hmem
  rw [← hmem]
  constructor
  · intro hx
    exact ⟨.inl hx, not_mem_of_nodup_add hnodup hx⟩
  · rintro ⟨hx | hx, hnot⟩
    · exact hx
    · exact absurd hx hnot

theorem Pool.nodup {A : Multiset Page} (hp : Pool s A) : s.freelist.Nodup :=
  Multiset.coe_nodup.mp (Multiset.nodup_add.mp hp.apart).1

def Unmapped (d : Page) (lo hi : Nat) (s : Mem) (x : Page) : Prop :=
  ∃ w e, Between lo hi w ∧ mapped (tables s.mem d) w = some e ∧ e.page = x

/-- `deallocuvm` returns, the pages of the range are not mapped any more, and each is on the free list once. -/
def Shrinks (d : Page) (oldsz newsz : Nat) (s : Mem) : Prop :=
  ∃ s', deallocuvm d oldsz newsz s = (.ok newsz, s') ∧ Beside d (PGROUNDUP newsz) oldsz s s' ∧
    (∀ w, Between (PGROUNDUP newsz) oldsz w → mapped (tables s'.mem d) w = none) ∧
    (∀ x, x ∈ s'.freelist ↔ x ∈ s.freelist ∨ Unmapped d (PGROUNDUP newsz) oldsz s x) ∧ s'.freelist.Nodup

theorem deallocuvm_range (hp : Pool s (dirPages s.mem d)) {oldsz newsz : Nat} (hlt : newsz < oldsz)
    (hk : oldsz ≤ KERNBASE) :
    Shrinks d oldsz newsz s := by
  have hin := deallocuvm_within (T := fun x => Open s d x ∨ Unmapped d (PGROUNDUP newsz) oldsz s x) oldsz newsz hk
    (fun _ h => .inl h) hp.apart fun w hlo hhi e he => .inr ⟨w, e, between_iff.mpr ⟨hlo, hhi⟩, he, rfl⟩
  obtain ⟨r, s', hrun, ⟨hr, h⟩, hin⟩ := ((deallocuvm_does hp oldsz newsz hk).and hin).run
  have huser : ∀ w, w < userEnd → ¬ Between (PGROUNDUP newsz) oldsz w →
    mapped (tables s'.mem d) w = mapped (tables s.mem d) w := by
    intro w hw hout
    rw [h.user w hw, if_neg (by rwa [← between_iff])]
  have hgone : ∀ w, Between (PGROUNDUP newsz) oldsz w → mapped (tables s'.mem d) w = none := by
    intro w hin
    rw [h.user w (page_lt hk hin.2), if_pos (between_iff.mp hin)]
  -- A page outside of the range is not mapped in it a second time.
  have honce : ∀ w, w < userEnd → ¬ Between (PGROUNDUP newsz) oldsz w → ∀ e, mapped (tables s.mem d) w = some e →
      ¬ Unmapped d (PGROUNDUP newsz) oldsz s e.page := by
    rintro w hw hout e he ⟨w', e', hin, he', hpage⟩
    obtain rfl := mapped_unique hp.apart.nodup (page_lt hk hin.2) hw he' he hpage
    exact hout hin
  have hfreed : ∀ x, x ∈ s'.freelist ↔ x ∈ s.freelist ∨ Unmapped d (PGROUNDUP newsz) oldsz s x := by
    intro x
    rw [h.shifts.moves.mem_free hp.apart, mem_dirPages_iff, mem_dirPages_iff, h.dir]
    constructor
    · rintro ⟨hfree | hd | htable | ⟨w, hw, e, he, rfl⟩, hnot⟩
      · exact .inl hfree
      · exact absurd (.inl hd) hnot
      · exact absurd (.inr (.inl htable)) hnot
      · by_cases hin : Between (PGROUNDUP newsz) oldsz w
        · exact .inr ⟨w, e, hin, he, rfl⟩
        · exact absurd (.inr (.inr ⟨w, hw, e, by rw [huser w hw hin, he], rfl⟩)) hnot
    · intro hx
      refine ⟨hx.imp_right fun ⟨w, e, hin, he, hpage⟩ => .inr (.inr ⟨w, page_lt hk hin.2, e, he, hpage⟩), ?_⟩
      have hopen : ¬ (x = d ∨ ∃ i, (s.mem d i).p = true ∧ (s.mem d i).page = x) := by
        intro hor
        rcases hx with hfree | ⟨w, e, hin, he, rfl⟩
        · refine hp.apart.not_free ?_ hfree
          rcases hor with rfl | ⟨i, hi, rfl⟩
          · exact dir_mem
          · exact table_mem hi
        · exact mapped_not_open hp.apart (page_lt hk hin.2) he (.inr hor)
      rintro (hd | htable | ⟨w, hw, e, he, rfl⟩)
      · exact hopen (.inl hd)
      · exact hopen (.inr htable)
      · have hout : ¬ Between (PGROUNDUP newsz) oldsz w := fun hin => by
          rw [hgone w hin] at he
          simp at he
        rw [huser w hw hout] at he
        rcases hx with hfree | hun
        · exact mapped_not_open hp.apart hw he (.inl hfree)
        · exact honce w hw hout e he hun
  refine ⟨s', ?_, ⟨huser, h.kernel, fun w hw hout e he => hin.same e.page ?_⟩, hgone, hfreed,
    (hp.shifts h.shifts).nodup⟩
  · rw [hrun, hr, Nat.min_eq_right hlt.le]
  · rintro (hopen | hun)
    · exact mapped_not_open hp.apart hw he hopen
    · exact honce w hw hout e he hun

def Enough (d : Page) (oldsz newsz : Nat) (s : Mem) : Prop :=
  s.fails = [] ∧ pagesOf newsz - pagesOf oldsz + (missing s.mem d (pagesOf oldsz) (pagesOf newsz)).card ≤
  s.freelist.length

structure New (d : Page) (lo hi : Nat) (s s' : Mem) : Prop where
  page : ∀ w, Between lo hi w → ∃ x, mapped (tables s'.mem d) w = some ⟨x, true, true, true, 0⟩ ∧ x ∈ s.freelist ∧
    x ∉ s'.freelist ∧ s'.mem x = zeros
  once : ∀ w w' e e', w < userEnd → w' < userEnd → mapped (tables s'.mem d) w = some e →
    mapped (tables s'.mem d) w' = some e' →
    e.page = e'.page → w = w'

structure Back (d : Page) (s s' : Mem) : Prop where
  free : ∀ x ∈ s'.freelist, x ∈ s.freelist
  back : ∀ x ∈ s.freelist, x ∈ s'.freelist ∨ ∃ i, (s'.mem d i).p = true ∧ (s'.mem d i).page = x
  nodup : s'.freelist.Nodup

/-- `allocuvm` returns, with the pages of the range mapped or, when memory runs out, with 0 and everything as before. -/
def Grows (d : Page) (oldsz newsz : Nat) (s : Mem) : Prop :=
  ∃ r s', allocuvm d oldsz newsz s = (.ok r, s') ∧ (Enough d oldsz newsz s → r = newsz) ∧
    (r = newsz ∧ Beside d (PGROUNDUP oldsz) (PGROUNDUP newsz) s s' ∧ New d (PGROUNDUP oldsz) (PGROUNDUP newsz) s s' ∨
      r = 0 ∧ Beside d 0 0 s s' ∧ Back d s s')

theorem allocuvm_range (hp : Pool s (dirPages s.mem d)) {oldsz newsz : Nat} (hle : oldsz ≤ newsz)
    (hk : newsz < KERNBASE)
    (hnone : ∀ w, w < userEnd → PGROUNDUP oldsz ≤ w * PGSIZE → mapped (tables s.mem d) w = none) :
    Grows d oldsz newsz s := by
  have hfuel : newsz ≤ (pagesOf oldsz + 2 ^ 20) * PGSIZE := by
    have h : KERNBASE ≤ 2 ^ 20 * PGSIZE := by decide
    exact (hk.le.trans h).trans (Nat.mul_le_mul_right _ (Nat.le_add_left _ _))
  have hfree : ∀ w, pagesOf oldsz ≤ w → w * PGSIZE < newsz → mapped (tables s.mem d) w = none := fun w hlo hhi =>
    hnone w (page_lt hk.le hhi) (PGROUNDUP_le.mpr hlo)
  have hdoes := allocFrom_does (T := Open s d) oldsz newsz hk.le (2 ^ 20) (pagesOf oldsz) le_rfl s hp hfuel hfree
    (fun _ h => h) fun w hlo hhi => absurd hhi (by omega)
  obtain ⟨b, s', hrun, h, hkernel, hdir, hok, hfail⟩ := hdoes.run
  have hp' := hp.shifts h
  have hbetween : ∀ {w}, Between (PGROUNDUP oldsz) (PGROUNDUP newsz) w ↔ pagesOf oldsz ≤ w ∧ w * PGSIZE < newsz := by
    intro w
    rw [between_iff, lt_PGROUNDUP]
  refine ⟨if b then newsz else 0, s', ?_, fun henough => ?_, ?_⟩
  · unfold allocuvm
    have hfirst : PGROUNDUP oldsz = pagesOf oldsz * PGSIZE := rfl
    rw [if_neg (by omega), if_neg (by omega), Cmd.bind_apply, hfirst, hrun]
    rcases b with _ | _ <;> rfl
  · obtain ⟨s'', hsucc⟩ := allocFrom_succeeds oldsz newsz hk.le (2 ^ 20)
      (pagesOf oldsz) s hp.apart hfuel hfree henough.1 henough.2
    rw [Cmd.Returns, hrun] at hsucc
    cases hsucc
    rfl
  · rcases b with _ | _
    · obtain ⟨hback, hin⟩ := hfail rfl
      have huser : ∀ w, w < userEnd → mapped (tables s'.mem d) w = mapped (tables s.mem d) w := by
        intro w hw
        rw [hback w hw]
        split_ifs with hin
        · rw [hfree w hin.1 hin.2]
        · rfl
      refine .inr ⟨rfl, ⟨fun w hw _ => huser w hw, hkernel,
        fun w hw _ e he => hin.same _ (mapped_not_open hp.apart hw he)⟩, ?_⟩
      have hmem : ∀ x, x ∈ s'.freelist ↔ (x ∈ s.freelist ∨ x ∈ dirPages s.mem d) ∧ x ∉ dirPages s'.mem d :=
        fun x => h.moves.mem_free hp.apart
      refine ⟨fun x hx => ?_, fun x hx => ?_, hp'.nodup⟩
      · obtain ⟨hfree | hdirs, hnot⟩ := (hmem x).mp hx
        · exact hfree
        · refine absurd ?_ hnot
          rw [mem_dirPages_iff] at hdirs ⊢
          rcases hdirs with hd | ⟨i, hi, hpage⟩ | ⟨w, hw, e, he, hpage⟩
          · exact .inl hd
          · exact .inr (.inl ⟨i, by rw [hdir i hi, hi], by rw [hdir i hi, hpage]⟩)
          · exact .inr (.inr ⟨w, hw, e, by rw [huser w hw, he], hpage⟩)
      · by_cases hnot : x ∈ dirPages s'.mem d
        · rcases mem_dirPages_iff.mp hnot with rfl | htable | ⟨w, hw, e, he, rfl⟩
          · exact absurd hx (hp.apart.not_free dir_mem)
          · exact .inr htable
          · rw [huser w hw] at he
            exact absurd (.inl hx) (mapped_not_open hp.apart hw he)
        · exact .inl ((hmem x).mpr ⟨.inl hx, hnot⟩)
    · obtain ⟨hmaps, hin, hfresh⟩ := hok rfl
      refine .inl ⟨rfl, ⟨fun w hw hout => ?_, hkernel, fun w hw _ e he => hin.same _ (mapped_not_open hp.apart hw he)⟩,
        fun w hw => ?_, fun w w' e e' hw hw' he he' => mapped_unique hp'.apart.nodup hw hw' he he'⟩
      · exact hmaps.old w hw (by rwa [← hbetween])
      · obtain ⟨hlo, hhi⟩ := hbetween.mp hw
        obtain ⟨x, hx⟩ := hmaps.new w hlo hhi
        obtain ⟨hxfree, hzero⟩ := hfresh w hlo hhi _ hx
        refine ⟨x, hx, hxfree, fun hfree' => ?_, hzero⟩
        exact mapped_not_open hp'.apart (page_lt hk.le hhi) hx (.inl hfree')

/-- **Growing and shrinking touch exactly the range**, for every directory with pages of its own. -/
theorem touches_exactly_the_range (hp : Pool s (dirPages s.mem d)) (oldsz newsz : Nat) :
    (newsz < oldsz → oldsz ≤ KERNBASE → Shrinks d oldsz newsz s) ∧
    (oldsz ≤ newsz → newsz < KERNBASE → 0 < newsz →
      (∀ w, w < userEnd → PGROUNDUP oldsz ≤ w * PGSIZE → mapped (tables s.mem d) w = none) → Grows d oldsz newsz s) :=
  ⟨deallocuvm_range hp, fun hle hk _ => allocuvm_range hp hle hk⟩

theorem touches_exactly_the_range_first : Shrinks 57342 PGSIZE 0 booted.vm ∧ Grows 57342 PGSIZE 10000 booted.vm := by
  have hpool := booted_exactly.pool
  refine ⟨(touches_exactly_the_range hpool PGSIZE 0).1 (by decide) (by decide),
    (touches_exactly_the_range hpool PGSIZE 10000).2 (by decide) (by decide) (by decide) fun w hw hle => ?_⟩
  rw [← Option.not_isSome_iff_eq_none, booted_exactly.pages w hw, Nat.not_lt]
  exact hle

end Xv6.Vm
