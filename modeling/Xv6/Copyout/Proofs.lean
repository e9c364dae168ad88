import Mathlib
import Xv6.Copyout.Code
import Xv6.Vm.Tables

/-!
# `copyout` is exact where there are page tables

Up to the first page without a table `copyout` does what it should. At that page it reads through a null pointer.
-/

open Lib

namespace Xv6.Copyout

open Vm (Entry Contents PGROUNDDOWN userPage PDX PTX NPTENTRIES)

variable {bytes : Bytes} {d x : Page} {a b va : Nat} {s s' : Phys} {null : Phys → Except Vm.Panic (Option Page)}
    {buf : List Byte}

def userAt (bytes : Bytes) (d : Page) (a : Nat) : Option Page := (Vm.pte (view bytes) d a).bind userPage

/-- The pages of an address space are apart, and the kernel's part is not for the user. -/
structure Space (bytes : Bytes) (d : Page) : Prop where
  nodup : (Vm.dirPages (view bytes) d).Nodup
  kernel : Vm.KernelOnly (Vm.tables (view bytes) d)

theorem pte_tables (mem : Page → Contents) (d : Page) (a : Nat) :
    Vm.pte mem d a = (Vm.tables mem d (PDX a)).map fun c => c (PTX a) := by
  unfold Vm.pte Vm.tables
  split_ifs <;> rfl

theorem pte_page {mem : Page → Contents} (h : a / PGSIZE = b / PGSIZE) : Vm.pte mem d a = Vm.pte mem d b := by
  unfold PGSIZE at h
  have hdir : PDX a = PDX b := by
    unfold PDX
    congr 1
    omega
  have htab : PTX a = PTX b := by
    unfold PTX
    congr 1
  rw [pte_tables, pte_tables, hdir, htab]

theorem userAt_page (h : a / PGSIZE = b / PGSIZE) : userAt bytes d a = userAt bytes d b := by
  unfold userAt
  rw [pte_page h]

/-- A page of the user is in the lower half, and not a table. -/
structure Seen (bytes : Bytes) (d : Page) (a : Nat) (x : Page) : Prop where
  low : (PDX a).val < 512
  dir : (view bytes d (PDX a)).p = true
  tab : (view bytes (view bytes d (PDX a)).page (PTX a)).p = true
  page : (view bytes (view bytes d (PDX a)).page (PTX a)).page = x

theorem Space.seen (hs : Space bytes d) (h : userAt bytes d a = some x) : Seen bytes d a x := by
  unfold userAt Vm.pte at h
  split_ifs at h with hdir
  · rw [Option.bind_some, userPage] at h
    split_ifs at h with hp
    refine ⟨Nat.lt_of_not_le fun hhigh => ?_, hdir, hp.1, Option.some.inj h⟩
    have hkernel := hs.kernel _ hhigh _ (Vm.tables_some hdir) _ hp.1
    rw [hp.2] at hkernel
    cases hkernel
  · cases h

theorem Space.unique (hs : Space bytes d) (ha : a < 2 ^ 32) (hb : b < 2 ^ 32) (hxa : userAt bytes d a = some x)
    (hxb : userAt bytes d b = some x) : a / PGSIZE = b / PGSIZE := by
  obtain ⟨hlow, hdir, htab, hpage⟩ := hs.seen hxa
  obtain ⟨hlow', hdir', htab', hpage'⟩ := hs.seen hxb
  have hPDX := Vm.slot_eq hs.nodup (hpage ▸ Vm.user_mem_slot hlow hdir htab)
    (hpage' ▸ Vm.user_mem_slot hlow' hdir' htab')
  rw [← hPDX] at htab' hpage'
  have htable := nodup_of_total (Multiset.nodup_add.mp hs.nodup).2.1 (PDX a)
  rw [Vm.slotPages, if_pos hdir, Vm.userPages, if_pos hlow] at htable
  have hmem : ∀ {j}, (view bytes (view bytes d (PDX a)).page j).p = true →
      (view bytes (view bytes d (PDX a)).page j).page ∈ (view bytes (view bytes d (PDX a)).page j).pages := by
    intro j hj
    rw [Entry.pages, if_pos hj]
    exact Multiset.mem_singleton_self _
  have hPTX := eq_of_mem_total (Multiset.nodup_add.mp htable).2.1 (hpage ▸ hmem htab) (hpage' ▸ hmem htab')
  rw [PDX, PDX, Fin.ext_iff, Fin.val_ofNat, Fin.val_ofNat] at hPDX
  rw [PTX, PTX, Fin.ext_iff, Fin.val_ofNat, Fin.val_ofNat] at hPTX
  unfold NPTENTRIES at hPDX hPTX
  unfold PGSIZE
  omega

theorem view_of_ne {y : Page} (h : y ≠ x) (o : Nat) (src : List Byte) :
    view (store bytes x o src) y = view bytes y := by
  unfold view word
  rw [store_of_ne h]

theorem Space.store (hs : Space bytes d) (hx : userAt bytes d a = some x) (o : Nat) (src : List Byte) :
    Space (store bytes x o src) d ∧ ∀ b, Vm.pte (view (Lib.store bytes x o src)) d b = Vm.pte (view bytes) d b := by
  obtain ⟨hlow, hdir, htab, rfl⟩ := hs.seen hx
  have hself : view (Lib.store bytes _ o src) d = view bytes d :=
    view_of_ne (Vm.slot_ne_dir hs.nodup (Vm.user_mem_slot hlow hdir htab)).symm o src
  obtain ⟨hpages, htables⟩ := Vm.space_congr hself fun k hk =>
    view_of_ne (Vm.user_ne_table hs.nodup hlow hdir htab hk) o src
  refine ⟨⟨by rw [hpages]; exact hs.nodup, by rw [htables]; exact hs.kernel⟩, fun b => ?_⟩
  rw [pte_tables, pte_tables, htables]

def pageTr (bytes : Bytes) (d : Page) (v : Nat) : Option Page :=
  if v < 2 ^ 20 then userAt bytes d (v * PGSIZE) else none

theorem pageTr_div (ha : a < 2 ^ 32) : pageTr bytes d (a / PGSIZE) = userAt bytes d a := by
  unfold pageTr
  rw [if_pos (by unfold PGSIZE; omega)]
  exact userAt_page (Nat.mul_div_cancel _ (by decide))

theorem pageTr_congr {bytes' : Bytes} (h : ∀ a, Vm.pte (view bytes') d a = Vm.pte (view bytes) d a) :
    pageTr bytes' d = pageTr bytes d := by
  funext v
  unfold pageTr userAt
  rw [h]

theorem Space.separate (hs : Space bytes d) : Separate (pageTr bytes d) := by
  intro v w x hv hw
  unfold pageTr at hv hw
  split_ifs at hv hw with h1 h2
  have := hs.unique (by unfold PGSIZE; omega) (by unfold PGSIZE; omega) hv hw
  rwa [Nat.mul_div_cancel _ (by decide), Nat.mul_div_cancel _ (by decide)] at this

def chunk (va len : Nat) : Nat := min (PGSIZE - va % PGSIZE) len

theorem offset_eq (va : Nat) : va - PGROUNDDOWN va = va % PGSIZE := by
  have := Nat.div_add_mod va PGSIZE
  unfold PGROUNDDOWN
  rw [Nat.mul_comm]
  omega

theorem chunk_page (hva : va < 2 ^ 32) {i len : Nat} (hi : i < chunk va len) :
    (va + i) % 2 ^ 32 / PGSIZE = va / PGSIZE := by
  unfold chunk PGSIZE at hi
  unfold PGSIZE
  omega

theorem chunk_rest {len : Nat} (hlt : chunk va len < len) (i : Nat) :
    ((PGROUNDDOWN va + PGSIZE) % 2 ^ 32 + i) % 2 ^ 32 = (va + (chunk va len + i)) % 2 ^ 32 := by
  unfold chunk PGSIZE at hlt ⊢
  unfold PGROUNDDOWN PGSIZE
  omega

theorem chunk_le (va len : Nat) : chunk va len ≤ len := Nat.min_le_right _ _

theorem chunk_pos {len : Nat} (h : 0 < len) : 0 < chunk va len := by
  unfold chunk PGSIZE
  omega

section

variable {Q : Bool → Phys → Prop} {E : Vm.Panic → Phys → Prop} {fuel : Nat}

theorem wp_uva2ka {Q : Option Page → Phys → Prop} {e : Entry} (hp : Vm.pte (view s.bytes) d a = some e) :
    Cmd.wp (uva2ka null d a) Q E s ↔ Q (userPage e) s := by
  unfold Cmd.wp uva2ka
  rw [hp]

theorem wp_uva2ka_null {Q : Option Page → Phys → Prop} (hp : Vm.pte (view s.bytes) d a = none)
    (hok : ∀ r, Q r { s with nulls := s.nulls + 1 }) (herr : ∀ e, E e { s with nulls := s.nulls + 1 }) :
    Cmd.wp (uva2ka null d a) Q E s := by
  unfold Cmd.wp uva2ka
  rw [hp]
  rcases null s with e | r
  · exact herr e
  · exact hok r

theorem wp_turn (hbuf : buf ≠ []) : Cmd.wp (copyoutFrom null d (fuel + 1) va buf) Q E s ↔
    Cmd.wp (uva2ka null d (PGROUNDDOWN va)) (fun r s₁ => r.elim (Q false s₁) fun x =>
      Cmd.wp (copyoutFrom null d fuel ((PGROUNDDOWN va + PGSIZE) % 2 ^ 32) (buf.drop (chunk va buf.length))) Q E
        { s₁ with bytes := store s₁.bytes x (va % PGSIZE) (buf.take (chunk va buf.length)) }) E s := by
  rw [copyoutFrom, if_neg hbuf, Cmd.wp_bind, offset_eq]
  refine iff_of_eq (congrArg (fun K => Cmd.wp _ K E s) (funext fun r => funext fun s₁ => ?_))
  rcases r with _ | x
  · rfl
  · rfl

theorem nulls_le (fuel va : Nat) (buf : List Byte) (s : Phys) :
    Cmd.wp (copyoutFrom null d fuel va buf) (fun _ s' => s.nulls ≤ s'.nulls) (fun _ s' => s.nulls ≤ s'.nulls) s := by
  induction fuel generalizing va buf s with
  | zero =>
    rw [copyoutFrom]
    split_ifs <;> exact le_refl s.nulls
  | succ fuel ih =>
    rcases eq_or_ne buf [] with rfl | hbuf
    · rw [copyoutFrom, if_pos rfl]
      exact le_rfl
    · rw [wp_turn hbuf]
      have huva : Cmd.wp (uva2ka null d (PGROUNDDOWN va)) (fun _ s₁ => s.nulls ≤ s₁.nulls)
        (fun _ s₁ => s.nulls ≤ s₁.nulls) s := by
        rcases hp : Vm.pte (view s.bytes) d (PGROUNDDOWN va) with _ | e
        · exact wp_uva2ka_null hp (fun _ => Nat.le_succ _) fun _ => Nat.le_succ _
        · rw [wp_uva2ka hp]
      refine Cmd.wp_mono _ _ _ _ _ _ huva (fun r s₁ h₁ => ?_) fun _ _ h => h
      rcases r with _ | x
      · exact h₁
      · exact Cmd.wp_mono _ _ _ _ _ _ (ih _ _ _) (fun _ _ h => h₁.trans h) fun _ _ h => h₁.trans h

/-- Every page that `copyout` comes to has a table: all of the range, or those up to the first that is not for the
user. -/
def Reached (bytes : Bytes) (d : Page) (va len : Nat) : Prop :=
  ∀ i < len, (∀ j < i, userAt bytes d ((va + j) % 2 ^ 32) ≠ none) → Vm.pte (view bytes) d ((va + i) % 2 ^ 32) ≠ none

structure Copied (d : Page) (va : Nat) (buf : List Byte) (s : Phys) (r : Bool) (s' : Phys) : Prop where
  nulls : s'.nulls = s.nulls
  result : r = true ↔ ∀ i < buf.length, userAt s.bytes d ((va + i) % 2 ^ 32) ≠ none
  wrote : r = true → Lib.Wrote PGSIZE (pageTr s.bytes d) va buf s.bytes s'.bytes
  space : Space s'.bytes d
  tables : ∀ a, Vm.pte (view s'.bytes) d a = Vm.pte (view s.bytes) d a

theorem Copied.nil (hs : Space s.bytes d) : Copied d va [] s true s :=
  ⟨rfl, iff_of_true rfl fun _ hi => absurd hi (Nat.not_lt_zero _), fun _ => .nil va, hs, fun _ => rfl⟩

theorem forall_chunk (hva : va < 2 ^ 32) (hbuf : buf ≠ []) (P : Nat → Prop) (hpage : ∀ a b, a / PGSIZE = b / PGSIZE →
    (P a ↔ P b)) : (∀ i < buf.length, P ((va + i) % 2 ^ 32)) ↔ P va ∧
      ∀ i < (buf.drop (chunk va buf.length)).length, P (((PGROUNDDOWN va + PGSIZE) % 2 ^ 32 + i) % 2 ^ 32) := by
  have hpos : 0 < buf.length := List.length_pos_iff.mpr hbuf
  rw [List.length_drop]
  constructor
  · intro h
    refine ⟨?_, fun i hi => ?_⟩
    · have h0 := h 0 hpos
      rwa [Nat.add_zero, Nat.mod_eq_of_lt hva] at h0
    · have hlt : chunk va buf.length < buf.length := by omega
      rw [chunk_rest hlt]
      exact h _ (by omega)
  · rintro ⟨hfirst, hrest⟩ i hi
    by_cases hlt : i < chunk va buf.length
    · exact (hpage _ _ (chunk_page hva hlt)).mpr hfirst
    · have h := hrest (i - chunk va buf.length) (by omega)
      have hless : chunk va buf.length < buf.length := by omega
      rwa [chunk_rest hless, Nat.add_sub_cancel' (by omega)] at h

theorem userAt_congr {bytes' : Bytes} (h : ∀ a, Vm.pte (view bytes') d a = Vm.pte (view bytes) d a) (a : Nat) :
    userAt bytes' d a = userAt bytes d a := by
  unfold userAt
  rw [h]

theorem userAt_ne_page (h : a / PGSIZE = b / PGSIZE) : userAt bytes d a ≠ none ↔ userAt bytes d b ≠ none := by
  rw [userAt_page h]

theorem Reached.rest {bytes' : Bytes} (hr : Reached bytes d va buf.length) (hva : va < 2 ^ 32)
    (hfirst : userAt bytes d va ≠ none) (htables : ∀ a, Vm.pte (view bytes') d a = Vm.pte (view bytes) d a) :
    Reached bytes' d ((PGROUNDDOWN va + PGSIZE) % 2 ^ 32) (buf.drop (chunk va buf.length)).length := by
  intro i hi hall
  rw [List.length_drop] at hi
  have hlt : chunk va buf.length < buf.length := by omega
  rw [htables, chunk_rest hlt]
  refine hr _ (by omega) fun j hj => ?_
  by_cases hchunk : j < chunk va buf.length
  · exact (userAt_ne_page (chunk_page hva hchunk)).mpr hfirst
  · have h := hall (j - chunk va buf.length) (by omega)
    rwa [userAt_congr htables, chunk_rest hlt, Nat.add_sub_cancel' (by omega)] at h

theorem Space.low (hs : Space bytes d) (ha : a < 2 ^ 32) (h : userAt bytes d a ≠ none) : a < KERNBASE := by
  obtain ⟨x, hx⟩ := Option.ne_none_iff_exists'.mp h
  have hlow := (hs.seen hx).low
  rw [PDX, Fin.val_ofNat] at hlow
  unfold NPTENTRIES at hlow
  unfold KERNBASE
  omega

theorem Copied.turn (hs : Space s.bytes d) (hva : va < 2 ^ 32) (hbuf : buf ≠ []) (hx : userAt s.bytes d va = some x)
    {r : Bool}
    (htables : ∀ a, Vm.pte (view (store s.bytes x (va % PGSIZE) (buf.take (chunk va buf.length)))) d a =
      Vm.pte (view s.bytes) d a)
    (h : Copied d ((PGROUNDDOWN va + PGSIZE) % 2 ^ 32) (buf.drop (chunk va buf.length))
      { s with bytes := store s.bytes x (va % PGSIZE) (buf.take (chunk va buf.length)) } r s') :
      Copied d va buf s r s' := by
  have hfirst : userAt s.bytes d va ≠ none := by simp [hx]
  have htake : (buf.take (chunk va buf.length)).length = chunk va buf.length := by
    rw [List.length_take, Nat.min_eq_left (chunk_le ..)]
  refine ⟨h.nulls, ?_, fun hr => ?_, h.space, fun a => (h.tables a).trans (htables a)⟩
  · rw [h.result, forall_chunk hva hbuf (fun a => userAt s.bytes d a ≠ none) fun _ _ => userAt_ne_page]
    simp only [userAt_congr htables]
    exact (and_iff_right hfirst).symm
  · have hpage : Lib.Wrote PGSIZE (pageTr s.bytes d) va (buf.take (chunk va buf.length)) s.bytes _ :=
      wrote_page ((pageTr_div hva).trans hx) (by rw [htake]; unfold chunk PGSIZE; omega)
    have hrest := h.wrote hr
    rw [pageTr_congr htables] at hrest
    rw [← List.take_append_drop (chunk va buf.length) buf]
    refine hpage.append hs.separate ?_
    rw [htake]
    rcases (chunk_le va buf.length).eq_or_lt with heq | hlt
    · rw [List.drop_of_length_le heq.ge] at hrest ⊢
      exact ⟨fun _ hi => absurd hi (Nat.not_lt_zero _), fun y o _ => hrest.old y o
        fun _ hi => absurd hi (Nat.not_lt_zero _)⟩
    · have hlow := hs.low hva hfirst
      have haddr : (PGROUNDDOWN va + PGSIZE) % 2 ^ 32 = va + chunk va buf.length := by
        unfold chunk PGSIZE at hlt ⊢
        unfold KERNBASE at hlow
        unfold PGROUNDDOWN PGSIZE
        omega
      rwa [haddr] at hrest

theorem copyoutFrom_copied (fuel : Nat) (hva : va < 2 ^ 32) (hfuel : buf.length ≤ fuel) (hs : Space s.bytes d)
    (hr : Reached s.bytes d va buf.length) : Cmd.wp (copyoutFrom null d fuel va buf) (Copied d va buf s)
      (fun _ _ => False) s := by
  induction fuel generalizing va buf s with
  | zero =>
    obtain rfl := List.length_eq_zero_iff.mp (Nat.le_zero.mp hfuel)
    rw [copyoutFrom, if_pos rfl]
    exact .nil hs
  | succ fuel ih =>
    rcases eq_or_ne buf [] with rfl | hbuf
    · rw [copyoutFrom, if_pos rfl]
      exact .nil hs
    have hpos : 0 < buf.length := List.length_pos_iff.mpr hbuf
    have hfirst := hr 0 hpos fun _ hj => absurd hj (Nat.not_lt_zero _)
    rw [Nat.add_zero, Nat.mod_eq_of_lt hva] at hfirst
    obtain ⟨e, he⟩ := Option.ne_none_iff_exists'.mp hfirst
    have hpte : Vm.pte (view s.bytes) d (PGROUNDDOWN va) = some e := by
      rw [← he]
      exact pte_page (Nat.mul_div_cancel _ (by decide))
    have huser : userAt s.bytes d va = userPage e := by rw [userAt, he, Option.bind_some]
    rw [wp_turn hbuf, wp_uva2ka hpte]
    rcases hx : userPage e with _ | x
    · refine ⟨rfl, iff_of_false (by simp) fun h => ?_, nofun, hs, fun _ => rfl⟩
      have h0 := h 0 hpos
      rw [Nat.add_zero, Nat.mod_eq_of_lt hva] at h0
      exact h0 (huser.trans hx)
    · rw [hx] at huser
      obtain ⟨hs₁, htables⟩ := hs.store huser (va % PGSIZE) (buf.take (chunk va buf.length))
      have hk : 0 < chunk va buf.length := chunk_pos hpos
      have hnext : (PGROUNDDOWN va + PGSIZE) % 2 ^ 32 < 2 ^ 32 := Nat.mod_lt _ (Nat.two_pow_pos 32)
      have hless : (buf.drop (chunk va buf.length)).length ≤ fuel := by
        rw [List.length_drop]
        omega
      have hreached := hr.rest hva (by simp [huser]) htables
      have hrest := ih (s := { s with bytes := store s.bytes x (va % PGSIZE) (buf.take (chunk va buf.length)) }) hnext
        hless hs₁ hreached
      rw [Option.elim_some]
      refine Cmd.wp_mono _ _ _ _ _ _ hrest ?_ fun _ _ h => h
      intro r s' h
      exact Copied.turn hs hva hbuf huser htables h

theorem Reached.of_rest {bytes' : Bytes} (hva : va < 2 ^ 32) (hfirst : Vm.pte (view bytes) d va ≠ none)
    (htables : ∀ a, Vm.pte (view bytes') d a = Vm.pte (view bytes) d a)
    (hr : Reached bytes' d ((PGROUNDDOWN va + PGSIZE) % 2 ^ 32) (buf.drop (chunk va buf.length)).length) :
    Reached bytes d va buf.length := by
  intro i hi hall
  by_cases hchunk : i < chunk va buf.length
  · rwa [pte_page (chunk_page hva hchunk)]
  · have hlt : chunk va buf.length < buf.length := by omega
    have h := hr (i - chunk va buf.length) (by rw [List.length_drop]; omega) fun j hj => by
      rw [userAt_congr htables, chunk_rest hlt]
      exact hall _ (by omega)
    rwa [htables, chunk_rest hlt, Nat.add_sub_cancel' (by omega)] at h

theorem copyoutFrom_null (fuel : Nat) (hva : va < 2 ^ 32) (hfuel : buf.length ≤ fuel) (hs : Space s.bytes d)
    (hr : ¬ Reached s.bytes d va buf.length) :
    Cmd.wp (copyoutFrom null d fuel va buf) (fun _ s' => s.nulls < s'.nulls) (fun _ s' => s.nulls < s'.nulls) s := by
  have hbuf : buf ≠ [] := by
    rintro rfl
    exact hr fun _ hi => absurd hi (Nat.not_lt_zero _)
  have hpos : 0 < buf.length := List.length_pos_iff.mpr hbuf
  induction fuel generalizing va buf s with
  | zero => omega
  | succ fuel ih =>
    have hdown : Vm.pte (view s.bytes) d (PGROUNDDOWN va) = Vm.pte (view s.bytes) d va :=
      pte_page (Nat.mul_div_cancel _ (by decide))
    rw [wp_turn hbuf]
    rcases hp : Vm.pte (view s.bytes) d va with _ | e
    · refine wp_uva2ka_null (hdown.trans hp) (fun r => ?_) fun _ => Nat.lt_succ_self _
      rcases r with _ | x
      · exact Nat.lt_succ_self _
      · rw [Option.elim_some]
        refine Cmd.wp_mono _ _ _ _ _ _ (nulls_le _ _ _ _) ?_ ?_
        · exact fun _ _ h => h
        · exact fun _ _ h => h
    · have hne : Vm.pte (view s.bytes) d va ≠ none := by simp [hp]
      have huser : userAt s.bytes d va = userPage e := by rw [userAt, hp, Option.bind_some]
      rw [wp_uva2ka (hdown.trans hp)]
      rcases hx : userPage e with _ | x
      · refine absurd (fun i hi hall => ?_) hr
        rcases Nat.eq_zero_or_pos i with rfl | hipos
        · rwa [Nat.add_zero, Nat.mod_eq_of_lt hva]
        · have h0 := hall 0 hipos
          rw [Nat.add_zero, Nat.mod_eq_of_lt hva] at h0
          exact absurd (huser.trans hx) h0
      · rw [hx] at huser
        obtain ⟨hs₁, htables⟩ := hs.store huser (va % PGSIZE) (buf.take (chunk va buf.length))
        have hnot := mt (Reached.of_rest hva hne htables) hr
        have hnext : (PGROUNDDOWN va + PGSIZE) % 2 ^ 32 < 2 ^ 32 := Nat.mod_lt _ (Nat.two_pow_pos 32)
        have hrest : buf.drop (chunk va buf.length) ≠ [] := by
          intro hnil
          rw [hnil] at hnot
          exact hnot fun _ hi => absurd hi (Nat.not_lt_zero _)
        have hk : 0 < chunk va buf.length := chunk_pos hpos
        have hless : (buf.drop (chunk va buf.length)).length ≤ fuel := by
          rw [List.length_drop]
          omega
        rw [Option.elim_some]
        exact ih (s := { s with bytes := store s.bytes x (va % PGSIZE) (buf.take (chunk va buf.length)) }) hnext hless
          hs₁ hnot hrest (List.length_pos_iff.mpr hrest)

end

/-- No null pointer is read. A page that is absent or not for the user makes the call fail, and if there is none then
exactly the bytes of the range become those of `src`. -/
structure Exact (null : Phys → Except Vm.Panic (Option Page)) (d : Page) (va : Nat) (src : List Byte) (s : Phys) :
    Prop where
  nulls : (copyout null d va src s).2.nulls = s.nulls
  fails : (∃ i < src.length, userAt s.bytes d ((va + i) % 2 ^ 32) = none) → (copyout null d va src s).1 = .ok false
  copies : (∀ i < src.length, userAt s.bytes d ((va + i) % 2 ^ 32) ≠ none) → (copyout null d va src s).1 = .ok true ∧
    Lib.Wrote PGSIZE (pageTr s.bytes d) va src s.bytes (copyout null d va src s).2.bytes

theorem copyout_copied (null : Phys → Except Vm.Panic (Option Page)) (hs : Space s.bytes d) (hva : va < 2 ^ 32)
    (hr : Reached s.bytes d va buf.length) :
    ∃ r s', copyout null d va buf s = (.ok r, s') ∧ Copied d va buf s r s' :=
  Cmd.wp_total _ _ _ (copyoutFrom_copied _ hva le_rfl hs hr)

theorem exact_of_reached (hs : Space s.bytes d) (hva : va < 2 ^ 32) (hr : Reached s.bytes d va buf.length) :
    Exact null d va buf s := by
  obtain ⟨r, s', hrun, h⟩ := copyout_copied null hs hva hr
  constructor
  · rw [hrun]
    exact h.nulls
  · rintro ⟨i, hi, hnone⟩
    rw [hrun]
    have hfalse : r ≠ true := fun htrue => h.result.mp htrue i hi hnone
    rw [Bool.eq_false_iff.mpr hfalse]
  · intro hall
    rw [hrun]
    obtain rfl := h.result.mpr hall
    exact ⟨rfl, h.wrote rfl⟩

theorem copyout_null (null : Phys → Except Vm.Panic (Option Page)) (hs : Space s.bytes d) (hva : va < 2 ^ 32)
    (hr : ¬ Reached s.bytes d va buf.length) : s.nulls < (copyout null d va buf s).2.nulls := by
  have hnull : Cmd.wp (copyoutFrom null d buf.length va buf) _ _ s := copyoutFrom_null _ hva le_rfl hs hr
  unfold copyout
  unfold Cmd.wp at hnull
  split at hnull <;> rename_i heq <;> rw [heq] <;> exact hnull

theorem reached_of_exact (hs : Space s.bytes d) (hva : va < 2 ^ 32) (h : Exact null d va buf s) :
    Reached s.bytes d va buf.length := by
  by_contra hr
  exact absurd h.nulls (copyout_null null hs hva hr).ne'

end Xv6.Copyout
