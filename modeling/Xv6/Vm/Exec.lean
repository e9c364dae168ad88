import Mathlib
import Xv6.Vm.Image

/-!
# `exec`

The arguments are copied to the stack of the new image from the top down. `uva2ka` does not test
what `walkpgdir` returns, so an address without a table makes it read the word at address 0. There
is a table for each address of the image: the arguments must not be longer than the image.
-/

open Lib Function

namespace Xv6.Vm

variable {d : Page} {s s' : Mem} {w sz : Nat}

def argBytes (len : Nat) : Nat := (len + 4) / 4 * 4

def segmentsEnd : List (Option Proghdr) → Nat → Nat
  | [], sz => sz
  | none :: _, sz => sz
  | some ph :: phs, sz => segmentsEnd phs (if ph.load then max sz (ph.vaddr + ph.memsz) else sz)

def imageSize (phs : List (Option Proghdr)) : Nat := PGROUNDUP (segmentsEnd phs 0) + 2 * PGSIZE

def argsBytes (args : List Arg) : Nat := (args.map fun arg => argBytes arg.len).sum

/-- The arguments and the table of their addresses are not longer than the image. -/
def Program.Fits (prog : Program) : Prop :=
  ∀ phs, prog.phs = some phs → argsBytes prog.args + 4 * (prog.args.length + 4) ≤ imageSize phs

def Kept (d : Page) (s s' : Mem) : Prop :=
  Moves s (dirPages s.mem d) s' (dirPages s'.mem d) ∧ tables s'.mem d = tables s.mem d

theorem Kept.refl : Kept d s s := ⟨.refl, rfl⟩

theorem Kept.trans {s'' : Mem} (h : Kept d s s') (h' : Kept d s' s'') : Kept d s s'' := ⟨h.1.trans h'.1, h'.2.trans h.2⟩

theorem present_iff {mem : Page → Contents} : Present (tables mem d) w ↔
    (mem d (dirIx w)).p = true ∧ (mem (mem d (dirIx w)).page (tabIx w)).p = true := by
  unfold Present tables
  split_ifs with hp
  · exact ⟨fun ⟨c, hc, h⟩ => ⟨hp, by rwa [Option.some.inj hc]⟩, fun h => ⟨_, rfl, h.2⟩⟩
  · exact ⟨fun ⟨c, hc, _⟩ => absurd hc (by simp), fun h => absurd h.1 hp⟩

theorem write_user (ha : Apart s (dirPages s.mem d)) (hw : w < userEnd) (hp : Present (tables s.mem d) w)
    (c : Contents) :
    Kept d s { s with mem := update s.mem (s.mem (s.mem d (dirIx w)).page (tabIx w)).page c } := by
  obtain ⟨hdir, htab⟩ := present_iff.mp hp
  obtain ⟨hpages, htables⟩ := space_setUser ha.nodup (dirIx_lt hw) hdir htab c
  refine ⟨?_, htables⟩
  rw [hpages]
  exact setPage_moves c (slot_mem (user_mem_slot (dirIx_lt hw) hdir htab))

theorem walk_covered {β : Type} {f : Option (Page × Fin NPTENTRIES) → VmM β} {Q : β → Mem → Prop}
    (hp : Present (tables s.mem d) w) (h : Ends (f (some ((s.mem d (dirIx w)).page, tabIx w))) Q s) :
    Ends (walkpgdir d (w * PGSIZE) false >>= f) Q s := by
  rw [ends_walk, PDX_page, PTX_page, if_pos (present_iff.mp hp).1]
  exact h

theorem loadFrom_ends (ph : Proghdr) (hcov : Covered (tables s.mem d) sz) (hk : sz ≤ KERNBASE)
    (hv : ph.vaddr % PGSIZE = 0) (hfit : ph.vaddr + ph.filesz ≤ sz) (n k : Nat) (ha : Apart s (dirPages s.mem d)) :
    Ends (loadFrom d ph n k) (fun _ s' => Kept d s s') s := by
  induction n generalizing k s with
  | zero =>
    rw [loadFrom]
    split_ifs
    · exact ends_fail _
    · exact (ends_pure true).mpr .refl
  | succ n ih =>
    rw [loadFrom]
    split_ifs with hlt
    · have hpage : ph.vaddr + k * PGSIZE = (ph.vaddr / PGSIZE + k) * PGSIZE := by
        rw [Nat.add_mul, Nat.div_mul_cancel (Nat.dvd_of_mod_eq_zero hv)]
      have hin : (ph.vaddr / PGSIZE + k) * PGSIZE < sz := by omega
      rw [hpage]
      refine walk_covered (hcov _ hin) ?_
      rw [ends_get]
      rcases ph.pages k with _ | data
      · exact (ends_pure false).mpr .refl
      · rw [ends_setPage]
        have h₁ := write_user ha (page_lt hk hin) (hcov _ hin)
          (data (s.mem (s.mem (s.mem d (dirIx (ph.vaddr / PGSIZE + k))).page (tabIx (ph.vaddr / PGSIZE + k))).page))
        refine (ih (by rwa [h₁.2]) (k + 1) (h₁.1.apart ha)).mono fun _ s' h' => h₁.trans h'
    · exact (ends_pure true).mpr .refl

theorem copyoutFrom_ends (cur : Page) (data : Nat → Contents → Contents) (hcov : Covered (tables s.mem d) sz)
    (hk : sz ≤ KERNBASE) (n k va len : Nat) (hlen : len = 0 ∨ va + len ≤ sz) (ha : Apart s (dirPages s.mem d)) :
    Ends (copyoutFrom cur d data n k va len) (fun _ s' => Kept d s s') s := by
  induction n generalizing k va len s with
  | zero =>
    rw [copyoutFrom]
    split_ifs
    · exact (ends_pure true).mpr .refl
    · exact ends_fail _
  | succ n ih =>
    rw [copyoutFrom]
    split_ifs with hzero
    · exact (ends_pure true).mpr .refl
    · have hfit := hlen.resolve_left hzero
      have hmod : PGROUNDDOWN va ≤ va := Nat.div_mul_le_self va PGSIZE
      have hin : va / PGSIZE * PGSIZE < sz := by
        unfold PGROUNDDOWN at hmod
        omega
      refine Ends.seq (P := fun r s' => s' = s ∧ (r = none ∨
        r = some (s.mem (s.mem d (dirIx (va / PGSIZE))).page (tabIx (va / PGSIZE))).page)) ?_ ?_
      · unfold uva2ka PGROUNDDOWN
        refine walk_covered (hcov _ hin) ?_
        rw [ends_get, ends_pure]
        refine ⟨rfl, ?_⟩
        unfold userPage
        split_ifs
        · exact .inr rfl
        · exact .inl rfl
      · rintro r s₁ ⟨rfl, rfl | rfl⟩
        · exact (ends_pure false).mpr .refl
        · rw [ends_get, ends_setPage]
          have h₁ := write_user ha (page_lt hk hin) (hcov _ hin)
            (data k (s₁.mem (s₁.mem (s₁.mem d (dirIx (va / PGSIZE))).page (tabIx (va / PGSIZE))).page))
          refine (ih (by rwa [h₁.2]) (k + 1) _ _ ?_ (h₁.1.apart ha)).mono fun _ s' h' => h₁.trans h'
          have hsmall : (PGROUNDDOWN va + PGSIZE) % 2 ^ 32 = PGROUNDDOWN va + PGSIZE := by
            refine Nat.mod_eq_of_lt ?_
            have : KERNBASE + PGSIZE < 2 ^ 32 := by decide
            unfold PGROUNDDOWN at hmod ⊢
            omega
          rw [hsmall]
          omega

theorem loadSegments_ends (phs : List (Option Proghdr)) (sz : Nat) (hcov : Covered (tables s.mem d) sz)
    (hk : sz < KERNBASE) (ha : Apart s (dirPages s.mem d)) :
    Ends (loadSegments d phs sz) (fun r s' => Moves s (dirPages s.mem d) s' (dirPages s'.mem d) ∧
      (∀ k, 512 ≤ k.val → tables s'.mem d k = tables s.mem d k) ∧
      ∀ sz', r = some sz' → sz' = segmentsEnd phs sz ∧ sz' < KERNBASE ∧ Covered (tables s'.mem d) sz') s := by
  induction phs generalizing sz s with
  | nil =>
    rw [loadSegments, ends_pure]
    refine ⟨.refl, fun _ _ => rfl, ?_⟩
    rintro sz' ⟨⟩
    exact ⟨rfl, hk, hcov⟩
  | cons ph phs ih =>
    rcases ph with _ | ph
    · rw [loadSegments, ends_pure]
      exact ⟨.refl, fun _ _ => rfl, nofun⟩
    · rw [loadSegments, segmentsEnd]
      split_ifs with hload hbad
      · rw [ends_pure]
        exact ⟨.refl, fun _ _ => rfl, nofun⟩
      · refine (allocuvm_ends ha sz (ph.vaddr + ph.memsz)).seq fun r s₁ h₁ => ?_
        split_ifs with hr
        · rw [ends_pure]
          exact ⟨h₁.1, h₁.2.1, nofun⟩
        · rw [not_or, not_not] at hr
          obtain ⟨hmax, hnew, hcov₁⟩ := h₁.2.2 hr.1
          have hr' : r < KERNBASE := by omega
          have hfit : ph.vaddr + ph.filesz ≤ r := by omega
          refine (loadFrom_ends ph (hcov₁ hcov) hr'.le hr.2 hfit _ 0 (h₁.1.apart ha)).seq fun b s₂ h₂ => ?_
          have hmoves := h₁.1.trans h₂.1
          rcases b with _ | _
          · rw [if_neg (by simp), ends_pure]
            exact ⟨hmoves, fun k hk => by rw [h₂.2, h₁.2.1 k hk], nofun⟩
          · rw [if_pos rfl, ← hmax]
            refine (ih r (by rw [h₂.2]; exact hcov₁ hcov) hr' (hmoves.apart ha)).mono fun r' s' h' => ?_
            exact ⟨hmoves.trans h'.1, fun k hk => by rw [h'.2.1 k hk, h₂.2, h₁.2.1 k hk], h'.2.2⟩
      · exact ih sz hcov hk ha

theorem clearpteu_ends (ha : Apart s (dirPages s.mem d)) (hw : w < userEnd) (hp : Present (tables s.mem d) w) :
    Ends (clearpteu d (w * PGSIZE)) (fun _ s' => Moves s (dirPages s.mem d) s' (dirPages s'.mem d) ∧
      (∀ k, 512 ≤ k.val → tables s'.mem d k = tables s.mem d k) ∧
      ∀ sz, Covered (tables s.mem d) sz → Covered (tables s'.mem d) sz) s := by
  unfold clearpteu
  refine walk_covered hp ?_
  rw [ends_get, ends_setEntry_last]
  obtain ⟨hdir, htab⟩ := present_iff.mp hp
  generalize hc : update (s.mem (s.mem d (dirIx w)).page) (tabIx w)
    { s.mem (s.mem d (dirIx w)).page (tabIx w) with u := false } = c
  obtain ⟨hpages, htables⟩ := space_setTable ha.nodup hdir c
  have hsame : userPages c (dirIx w) = userPages (s.mem (s.mem d (dirIx w)).page) (dirIx w) := by
    have := userPages_set (dirIx_lt hw) (s.mem (s.mem d (dirIx w)).page) (tabIx w)
      { s.mem (s.mem d (dirIx w)).page (tabIx w) with u := false }
    rw [hc] at this
    exact add_right_cancel this
  rw [hsame] at hpages
  refine ⟨?_, fun k hk => ?_, fun sz hcov v hv => ?_⟩
  · rw [add_right_cancel hpages]
    exact setPage_moves c (table_mem hdir)
  · rw [htables, update_of_ne]
    rintro rfl
    exact absurd (dirIx_lt hw) (by omega)
  · obtain ⟨c', hc', hp'⟩ := hcov v hv
    unfold Present
    rw [htables, update_apply]
    split_ifs with hvw
    · refine ⟨c, rfl, ?_⟩
      rw [hvw, tables_some hdir] at hc'
      rw [← hc, update_apply]
      split_ifs with htv
      · exact htab
      · rwa [Option.some.inj hc']
    · exact ⟨c', hc', hp'⟩

theorem argBytes_le (len : Nat) : len + 1 ≤ argBytes len := by
  unfold argBytes
  omega

theorem push_eq {sp len : Nat} (hsp : sp < KERNBASE) (halign : sp % 4 = 0) (hfit : argBytes len ≤ sp) :
    (sp + (2 ^ 32 - (len + 1) % 2 ^ 32)) % 2 ^ 32 / 4 * 4 = sp - argBytes len := by
  unfold argBytes at hfit ⊢
  unfold KERNBASE at hsp
  omega

theorem pushArgs_ends (cur : Page) (args : List Arg) (argc sp : Nat) (hcov : Covered (tables s.mem d) sz)
    (hk : sz < KERNBASE)
    (hsp : sp ≤ sz) (halign : sp % 4 = 0) (hfit : argsBytes args ≤ sp) (ha : Apart s (dirPages s.mem d)) :
    Ends (pushArgs cur d args argc sp) (fun r s' => Kept d s s' ∧
      ∀ argc' sp', r = some (argc', sp') → argc' = argc + args.length ∧ sp' = sp - argsBytes args) s := by
  induction args generalizing argc sp s with
  | nil =>
    rw [pushArgs, ends_pure]
    refine ⟨.refl, ?_⟩
    rintro _ _ ⟨⟩
    exact ⟨rfl, rfl⟩
  | cons arg args ih =>
    have hsum : argsBytes (arg :: args) = argBytes arg.len + argsBytes args := by simp [argsBytes]
    rw [hsum] at hfit ⊢
    have hlen := argBytes_le arg.len
    rw [pushArgs]
    split_ifs with hmax
    · rw [ends_pure]
      exact ⟨.refl, nofun⟩
    · rw [push_eq (by omega) halign (by omega)]
      unfold copyout
      refine (copyoutFrom_ends cur arg.data hcov hk.le _ 0 _ _ (.inr (by omega)) ha).seq fun r s₁ h₁ => ?_
      rcases r with _ | _
      · rw [if_neg (by simp), ends_pure]
        exact ⟨h₁, nofun⟩
      · rw [if_pos rfl]
        have halign' : (sp - argBytes arg.len) % 4 = 0 := by
          unfold argBytes
          omega
        refine (ih (argc + 1) (sp - argBytes arg.len) (by rwa [h₁.2]) (by omega) halign' (by omega)
          (h₁.1.apart ha)).mono
          fun r s' h' => ⟨h₁.trans h'.1, fun argc' sp' hr => ?_⟩
        obtain ⟨hargc, hsp'⟩ := h'.2 argc' sp' hr
        rw [List.length_cons]
        omega

theorem covered_roundup {tb : Tables} (hcov : Covered tb sz) : Covered tb (PGROUNDUP sz) := by
  intro v hv
  refine hcov v ?_
  rw [PGROUNDUP_eq] at hv
  have hlt : v < (sz + PGSIZE - 1) / PGSIZE := Nat.lt_of_mul_lt_mul_right hv
  have := (Nat.le_div_iff_mul_le (by decide)).mp (Nat.succ_le_of_lt hlt)
  rw [Nat.succ_mul] at this
  have hpos : 0 < PGSIZE := by decide
  omega

theorem buildStack_ends (cur : Page) (args : List Arg) (ustack : Nat → Contents → Contents) (sz : Nat)
    (hcov : Covered (tables s.mem d) sz) (hfit : argsBytes args + 4 * (args.length + 4) ≤ PGROUNDUP sz + 2 * PGSIZE)
    (ha : Apart s (dirPages s.mem d)) :
    Ends (buildStack cur d args ustack sz) (fun r s' => Moves s (dirPages s.mem d) s' (dirPages s'.mem d) ∧
      (∀ k, 512 ≤ k.val → tables s'.mem d k = tables s.mem d k) ∧ ∀ sz', r = some sz' → sz' < KERNBASE) s := by
  unfold buildStack
  refine (allocuvm_ends ha _ _).seq fun r s₁ h₁ => ?_
  split_ifs with hr
  · rw [ends_pure]
    exact ⟨h₁.1, h₁.2.1, nofun⟩
  · obtain ⟨hmax, hk, hcov₁⟩ := h₁.2.2 hr
    have hr' : r = PGROUNDUP sz + 2 * PGSIZE := by omega
    have hcov₁ := hcov₁ (covered_roundup hcov)
    have hguard : r - 2 * PGSIZE = (sz + PGSIZE - 1) / PGSIZE * PGSIZE := by
      rw [hr', Nat.add_sub_cancel]
      rfl
    have hin : (sz + PGSIZE - 1) / PGSIZE * PGSIZE < r := by
      rw [← hguard]
      have : 0 < PGSIZE := by decide
      omega
    rw [hguard]
    refine (clearpteu_ends (h₁.1.apart ha) (page_lt (by omega) hin) (hcov₁ _ hin)).seq fun _ s₂ h₂ => ?_
    have h₂' := h₁.1.trans h₂.1
    have halign : r % 4 = 0 := by
      rw [hr', PGROUNDUP_eq]
      unfold PGSIZE
      omega
    refine (pushArgs_ends cur args 0 r (h₂.2.2 r hcov₁) (by omega) le_rfl halign (by omega) (h₂'.apart ha)).seq
      fun q s₃ h₃ => ?_
    have h₃' := h₂'.trans h₃.1.1
    have hkernel : ∀ k, 512 ≤ k.val → tables s₃.mem d k = tables s.mem d k := fun k hk => by
      rw [h₃.1.2, h₂.2.1 k hk, h₁.2.1 k hk]
    rcases q with _ | ⟨argc, sp⟩
    · exact (ends_pure none).mpr ⟨h₃', hkernel, nofun⟩
    · obtain ⟨rfl, rfl⟩ := h₃.2 argc sp rfl
      dsimp only
      have hsp : (r - argsBytes args + (2 ^ 32 - (3 + (0 + args.length) + 1) * 4)) % 2 ^ 32 =
          r - argsBytes args - (3 + (0 + args.length) + 1) * 4 := by
        unfold KERNBASE at hk
        omega
      rw [hsp]
      unfold copyout
      have hcov₃ : Covered (tables s₃.mem d) r := by
        rw [h₃.1.2]
        exact h₂.2.2 r hcov₁
      refine (copyoutFrom_ends cur ustack hcov₃ (by omega) _ 0 _ _ (.inr (by omega)) (h₃'.apart ha)).seq
        fun b s₄ h₄ => ?_
      have h₄' := h₃'.trans h₄.1
      have hkernel' : ∀ k, 512 ≤ k.val → tables s₄.mem d k = tables s.mem d k := fun k hk => by rw [h₄.2, hkernel k hk]
      rcases b with _ | _
      · rw [if_neg (by simp), ends_pure]
        exact ⟨h₄', hkernel', nofun⟩
      · rw [if_pos rfl, ends_pure]
        refine ⟨h₄', hkernel', ?_⟩
        rintro sz' ⟨⟩
        omega

theorem buildImage_ends (hl : Linked s) (ha : Apart s 0) (cur : Page) (prog : Program) (hfit : prog.Fits) :
    Ends (buildImage cur prog) (fun r s' => (r = none → Moves s 0 s' 0) ∧ ∀ d sz, r = some (d, sz) →
      Moves s 0 s' (dirPages s'.mem d) ∧ KernelOnly (tables s'.mem d) ∧ sz < KERNBASE) s := by
  unfold buildImage
  rcases hphs : prog.phs with _ | phs
  · exact (ends_pure none).mpr ⟨fun _ => .refl, nofun⟩
  · have hfit := hfit phs hphs
    unfold imageSize at hfit
    refine (setupkvm_ends hl ha).seq fun r s₁ h₁ => ?_
    rcases r with _ | d
    · exact (ends_pure none).mpr ⟨fun _ => h₁, nofun⟩
    · obtain ⟨h₁, hkernel, -⟩ := h₁
      refine (loadSegments_ends phs 0 (fun _ h => absurd h (Nat.not_lt_zero _)) (by decide) (h₁.apart ha)).seq
        fun r s₂ h₂ => ?_
      have h₂' := h₁.trans h₂.1
      rcases r with _ | sz
      · exact (freevm_back ha h₂').seq fun _ s' h' => (ends_pure none).mpr ⟨fun _ => h', nofun⟩
      · obtain ⟨rfl, -, hcov⟩ := h₂.2.2 sz rfl
        refine (buildStack_ends cur prog.args prog.ustack _ hcov hfit (h₂'.apart ha)).seq fun r s₃ h₃ => ?_
        have h₃' := h₂'.trans h₃.1
        rcases r with _ | sz
        · exact (freevm_back ha h₃').seq fun _ s' h' => (ends_pure none).mpr ⟨fun _ => h', nofun⟩
        · rw [ends_pure]
          refine ⟨nofun, ?_⟩
          rintro d' sz' ⟨⟩
          exact ⟨h₃', (hkernel.of_same h₂.2.1).of_same h₃.2.1, h₃.2.2 sz rfl⟩

end Xv6.Vm
