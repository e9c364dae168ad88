import Mathlib
import Xv6.Exec.Code
import Xv6.Sys.Balance
import Xv6.Vm.Sbrk

/-!
# `exec` survives every file

Whatever the bytes of the file are and wherever `kalloc` fails, loading ends without a panic of `vm.c`. When
`exec` fails, the process is as it was, the inode is put and the transaction is closed.
-/

open Lib Function

namespace Xv6.Exec

open Sys (Slot readAll num)
open Vm (Contents Shifts Pool Linked dirPages tables ExactPages)

variable {dev : Blocks.Dev} {p : Fin NPROC} {m m' m₀ : Machine} {l : Sys.Local} {A : Multiset Page} {α β : Type}

/-- The operation leaves the tables of processes and files alone. -/
def quiet : Sys.Op → Bool
  | .filealloc | .fdalloc _ | .clearFd _ | .filedup _ | .fileclose _ | .setFile _ _ _ _ | .addOff _ _ |
      .setCwd _ => false
  | .allocproc _ | .unalloc _ | .childFd _ _ _ | .start _ _ | .exit _ | .wait => false
  | _ => true

def quietRules : Prog.Rules Unit Sys.Op Sys.Res := ⟨fun _ a => quiet a = true, fun _ _ _ => True, fun _ _ _ _ => True⟩

def Quiet (x : Sys.P α) : Prop := Prog.Safe quietRules x (fun _ _ => True) ()

theorem quiet_bind {x : Sys.P α} {f : α → Sys.P β} (hx : Quiet x) (hf : ∀ a, Quiet (f a)) : Quiet (x >>= f) := by
  unfold Quiet
  rw [Prog.safe_bind]
  exact hx.mono fun a _ _ => hf a

theorem quiet_op {a : Sys.Op} (ha : quiet a = true) : Quiet (Sys.op a) := ⟨ha, fun _ _ => ⟨(), trivial, trivial⟩⟩

theorem quiet_pure (a : α) : Quiet (pure a) := trivial

def SameTables (s s' : Sys.Kernel) : Prop := s'.proc = s.proc ∧ s'.file = s.file

theorem sameTables_onInode {s s' : Sys.Kernel} {i : Slot} {f : Nat → Blocks.Dinode → Blocks.FsM (α × Blocks.Dinode)}
    {r : α} (hp : Sys.Kernel.onInode i f s = (.ok r, s')) : SameTables s s' := by
  unfold Sys.Kernel.onInode at hp
  split at hp <;> cases hp
  exact ⟨rfl, rfl⟩

theorem sameTables_onDisk {s s' : Sys.Kernel} {f : Blocks.FsM α} {r : α} (hp : Sys.Kernel.onDisk f s = (.ok r, s')) :
    SameTables s s' := by
  unfold Sys.Kernel.onDisk at hp
  split at hp <;> cases hp
  exact ⟨rfl, rfl⟩

theorem act_quiet {s s' : Sys.Kernel} (a : Sys.Op) (ha : quiet a = true) {r : Sys.Res a}
    (hp : a.act dev p s = (.ok r, s')) :
    SameTables s s' := by
  cases a <;> first | cases ha; done | skip
  case itrunc | readi | writei | scan | insert | erase | isdirempty =>
    rw [Sys.Op.act] at hp
    exact sameTables_onInode hp
  case iupdate | ialloc =>
    rw [Sys.Op.act] at hp
    exact sameTables_onDisk hp
  case begin_op =>
    simp only [Sys.Op.act, Sys.Kernel.begin_op] at hp
    split_ifs at hp <;> cases hp
    exact ⟨rfl, rfl⟩
  case iget =>
    simp only [Sys.Op.act, Sys.Kernel.iget] at hp
    split at hp
    · cases hp
      exact ⟨rfl, rfl⟩
    · split at hp <;> cases hp
      exact ⟨rfl, rfl⟩
  case idup | cwd =>
    simp only [Sys.Op.act] at hp
    split at hp <;> cases hp
    exact ⟨rfl, rfl⟩
  case load =>
    simp only [Sys.Op.act, Sys.Kernel.load] at hp
    split_ifs at hp <;> cases hp
    · exact ⟨rfl, rfl⟩
    · exact ⟨rfl, rfl⟩
  case ilock | acquiresleep | iunlock =>
    simp only [Sys.Op.act, Sys.Kernel.acquire, Sys.Kernel.release] at hp
    split_ifs at hp <;> cases hp
    exact ⟨rfl, rfl⟩
  case panic => cases hp
  all_goals
    cases hp
    exact ⟨rfl, rfl⟩

theorem run_quiet (dev : Blocks.Dev) (p : Fin NPROC) (x : Sys.P α) (hx : Quiet x) (s : Sys.Kernel) :
    Cmd.wp (Prog.run (Sys.Op.perform dev p) x) (fun _ => SameTables s) (fun _ _ => True) s := by
  induction x generalizing s with
  | ret r => exact ⟨rfl, rfl⟩
  | act a k ih =>
    rw [Prog.run, Cmd.wp_bind]
    unfold Cmd.wp Sys.Op.perform
    split_ifs
    · rcases hact : a.act dev p s with ⟨e | r, s₁⟩
      · trivial
      · have h₁ := act_quiet a hx.1 hact
        obtain ⟨_, -, hk⟩ := hx.2 r trivial
        refine Cmd.wp_mono _ _ _ _ _ _ (ih r hk s₁) ?_ fun _ _ _ => trivial
        rintro _ s' ⟨hproc, hfile⟩
        exact ⟨hproc.trans h₁.1, hfile.trans h₁.2⟩
    · trivial

theorem ilock_quiet (ip : Slot) : Quiet (Sys.ilock ip) := quiet_bind (quiet_op rfl) fun _ => quiet_op rfl

theorem freeUnlinked_quiet (ip : Slot) : Quiet (Sys.freeUnlinked ip) := by
  unfold Sys.freeUnlinked
  refine quiet_bind (quiet_op rfl) fun r => ?_
  split_ifs
  · refine quiet_bind (quiet_op rfl) fun _ => quiet_bind (quiet_op rfl) fun _ => quiet_bind (quiet_op rfl) fun _ => ?_
    exact quiet_op rfl
  · exact quiet_pure ()

theorem iput_quiet (ip : Slot) : Quiet (Sys.iput ip) := by
  unfold Sys.iput
  refine quiet_bind (quiet_op rfl) fun _ => quiet_bind (quiet_op rfl) fun ⟨valid, d⟩ => ?_
  refine quiet_bind ?_ fun _ => quiet_bind (quiet_op rfl) fun _ => quiet_op rfl
  split_ifs
  · exact freeUnlinked_quiet ip
  · exact quiet_pure ()

theorem iunlockput_quiet (ip : Slot) : Quiet (Sys.iunlockput ip) := quiet_bind (quiet_op rfl) fun _ => iput_quiet ip

theorem dirlookup_quiet (dp : Slot) (name : Name) : Quiet (Sys.dirlookup dp name) := by
  unfold Sys.dirlookup
  refine quiet_bind (quiet_op rfl) ?_
  rintro (_ | ⟨inum, off⟩)
  · exact quiet_pure none
  · refine quiet_bind (quiet_op rfl) fun ⟨dev, _⟩ => quiet_bind (quiet_op rfl) fun ip => ?_
    exact quiet_pure _

theorem namexFrom_quiet (parent : Bool) (names : List Name) (ip : Slot) : Quiet (Sys.namexFrom parent ip names) := by
  have hput : ∀ ip, Quiet (do Sys.iunlockput ip; pure (none : Option (Slot × Name))) := fun ip =>
    quiet_bind (iunlockput_quiet ip) fun _ => quiet_pure none
  induction names generalizing ip with
  | nil =>
    unfold Sys.namexFrom
    split_ifs
    · exact quiet_bind (iput_quiet ip) fun _ => quiet_pure none
    · exact quiet_pure _
  | cons name rest ih =>
    unfold Sys.namexFrom
    refine quiet_bind (ilock_quiet ip) fun _ => quiet_bind (quiet_op rfl) ?_
    rintro ⟨_, d⟩
    dsimp only
    split_ifs
    · exact hput ip
    · exact quiet_bind (quiet_op rfl) fun _ => quiet_pure _
    · refine quiet_bind (dirlookup_quiet ip name) ?_
      rintro (_ | ⟨next, off⟩)
      · exact hput ip
      · exact quiet_bind (iunlockput_quiet ip) fun _ => ih next

theorem namei_quiet (path : List Char) : Quiet (Sys.namei path) := by
  unfold Sys.namei Sys.namex
  refine quiet_bind (quiet_bind ?_ fun ip => namexFrom_quiet _ _ ip) fun _ => quiet_pure _
  split_ifs
  · exact quiet_op rfl
  · exact quiet_op rfl

theorem readAll_quiet (ip : Slot) (off n : Nat) : Quiet (readAll ip off n) :=
  quiet_bind (quiet_op rfl) fun _ => quiet_pure _

/-- Since `m₀` the process has come to have what `l` says. -/
structure Calm (p : Fin NPROC) (m₀ : Machine) (l : Sys.Local) (m : Machine) : Prop where
  inv : Sys.Inv m.fs (update (fun _ => .idle) p l)
  tables : SameTables m₀.fs m.fs
  user : m.user = m₀.user

/-- Also the pages `A` of a new address space, and no other page has been written. -/
structure Begun (p : Fin NPROC) (m₀ : Machine) (l : Sys.Local) (A : Multiset Page) (m : Machine) :
    Prop extends Calm p m₀ l m where
  pages : Shifts m₀.vm 0 m.vm A

def OnlyFs (e : Stop) : Prop := ∃ e', e = .fs e' ∧ e' ≠ .nested

theorem Begun.fs (h : Begun p m₀ l A m) {x : Sys.P α} {Q : α → Sys.Local → Prop} (hx : Sys.Obeys x Q l) (hq : Quiet x) :
    Cmd.wp (onFs dev p x) (fun r m' => ∃ l', Q r l' ∧ Begun p m₀ l' A m' ∧ m'.vm = m.vm) (fun e _ => OnlyFs e) m := by
  have hself : update (fun _ => Sys.Local.idle) p l p = l := update_self ..
  have hinv : Cmd.wp (Prog.run (Sys.Op.perform dev p) x) _ _ m.fs := Sys.run_inv x (by rwa [hself]) h.inv
  have htables := run_quiet dev p x hq m.fs
  unfold onFs
  rw [Cmd.wp_zoom]
  unfold Cmd.wp at hinv htables ⊢
  split <;> rename_i heq
  · rw [heq] at hinv htables
    obtain ⟨l', hQ, hl'⟩ := hinv
    rw [update_idem] at hl'
    exact ⟨l', hQ, ⟨⟨hl', ⟨htables.1.trans h.tables.1, htables.2.trans h.tables.2⟩, h.user⟩, h.pages⟩, rfl⟩
  · rw [heq] at hinv
    exact ⟨_, rfl, hinv⟩

theorem Begun.vm (h : Begun p m₀ l A m) {x : Vm.VmM α} {A' : α → Vm.Mem → Multiset Page} {P : α → Vm.Mem → Prop}
    {E : Stop → Machine → Prop} (hx : Vm.Does x (fun r v => Shifts m.vm A v (A' r v) ∧ P r v) m.vm) :
    Cmd.wp (onVm x) (fun r m' => Begun p m₀ l (A' r m'.vm) m' ∧ P r m'.vm) E m := by
  obtain ⟨r, v, hrun, hs, hP⟩ := hx.run
  unfold onVm
  rw [Cmd.wp_zoom]
  unfold Cmd.wp
  rw [hrun]
  exact ⟨⟨⟨h.inv, h.tables, h.user⟩, h.pages.trans hs⟩, hP⟩

theorem Calm.vm (h : Calm p m₀ l m) (x : Vm.VmM α) :
    Cmd.wp (onVm x) (fun _ m' => Calm p m₀ l m') (fun _ _ => True) m := by
  unfold onVm
  rw [Cmd.wp_zoom]
  unfold Cmd.wp
  split
  · exact ⟨h.inv, h.tables, h.user⟩
  · trivial

section

variable {d : Page} {v : Vm.Mem} {sz : Nat}

theorem allocuvm_grows (hp : Pool v (dirPages v.mem d)) (hk : sz < KERNBASE) (hu : ExactPages (tables v.mem d) sz)
    (newsz : Nat) :
    Vm.Does (Vm.allocuvm d sz newsz) (fun r v' => Shifts v (dirPages v.mem d) v' (dirPages v'.mem d) ∧
      (r ≠ 0 → r = max sz newsz ∧ r < KERNBASE ∧ ExactPages (tables v'.mem d) r)) v := by
  by_cases hle : sz ≤ newsz
  · refine (Vm.allocuvm_exact hp hu hle).mono fun r v' ⟨hs, hor⟩ => ⟨hs, fun hr => ?_⟩
    rcases hor with ⟨h0, -⟩ | ⟨hlt, rfl, hexact⟩
    · exact absurd h0 hr
    · exact ⟨(Nat.max_eq_right hle).symm, hlt, hexact⟩
  · rw [Nat.not_le] at hle
    unfold Vm.allocuvm
    rw [if_neg (by omega), if_pos hle, Vm.does_pure]
    exact ⟨.refl, fun _ => ⟨(Nat.max_eq_left hle.le).symm, hk, hu⟩⟩

theorem fill_does (hp : Pool v (dirPages v.mem d)) (hk : sz ≤ KERNBASE) (hu : ExactPages (tables v.mem d) sz) {w : Nat}
    (hw : w * PGSIZE < sz) (bytesIn : List Byte → Contents → Contents) (bytes : List Byte) :
    Vm.Does (fill bytesIn (v.mem d (Vm.dirIx w)).page (Vm.tabIx w) bytes) (fun _ v' =>
      Shifts v (dirPages v.mem d) v' (dirPages v'.mem d) ∧ tables v'.mem d = tables v.mem d) v := by
  unfold fill
  rw [Vm.does_get]
  have hkept := Vm.write_user hp.apart (Vm.page_lt hk hw) (hu.covered hk w hw)
  rw [Vm.does_setPage_last]
  exact ⟨⟨(hkept _).1, rfl⟩, (hkept _).2⟩

theorem roundup_exact (hu : ExactPages (tables v.mem d) sz) : ExactPages (tables v.mem d) (Vm.PGROUNDUP sz) := by
  intro w hw
  rw [hu w hw, Vm.PGROUNDUP_eq, ← not_iff_not, Nat.not_lt, Nat.not_lt, ← Vm.pagesOf_le]
  exact (Nat.mul_le_mul_right_iff (by decide)).symm

theorem clearpteu_does (hp : Pool v (dirPages v.mem d)) (hk : sz ≤ KERNBASE) (hu : ExactPages (tables v.mem d) sz)
    {w : Nat} (hw : w * PGSIZE < sz) :
    Vm.Does (Vm.clearpteu d (w * PGSIZE)) (fun _ v' => Shifts v (dirPages v.mem d) v' (dirPages v'.mem d) ∧
      (∀ k, 512 ≤ k.val → tables v'.mem d k = tables v.mem d k) ∧
      ∀ sz, Vm.Covered (tables v.mem d) sz → Vm.Covered (tables v'.mem d) sz) v := by
  have hpresent := hu.covered hk w hw
  have hret : Vm.Does (Vm.clearpteu d (w * PGSIZE)) (fun _ v' => v'.kend = v.kend) v := by
    unfold Vm.clearpteu
    rw [Vm.does_walk, Vm.PDX_page, Vm.PTX_page, if_pos (Vm.present_iff.mp hpresent).1]
    rw [Vm.does_get, Vm.does_setEntry_last]
  refine (hret.and (Vm.clearpteu_ends hp.apart (Vm.page_lt hk hw) hpresent)).mono fun _ v' ⟨hkend, hm, hrest⟩ => ?_
  exact ⟨⟨hm, hkend⟩, hrest⟩

theorem stackPages_does (hp : Pool v (dirPages v.mem d)) (hu : ExactPages (tables v.mem d) sz) :
    Vm.Does (stackPages d sz) (fun r v' => Shifts v (dirPages v.mem d) v' (dirPages v'.mem d) ∧
      ∀ sz', r = some sz' → sz' < KERNBASE ∧ sz' % 4 = 0 ∧ Vm.Covered (tables v'.mem d) sz') v := by
  unfold stackPages
  refine (Vm.allocuvm_exact hp (roundup_exact hu) (Nat.le_add_right _ _)).seq fun r v₁ ⟨h₁, hor⟩ => ?_
  split_ifs with hr
  · exact (Vm.does_pure none).mpr ⟨h₁, nofun⟩
  · obtain ⟨hlt, rfl, hu₁⟩ := hor.resolve_left fun h => hr h.1
    have hguard : Vm.PGROUNDUP sz + 2 * PGSIZE - 2 * PGSIZE = (sz + PGSIZE - 1) / PGSIZE * PGSIZE :=
      Nat.add_sub_cancel ..
    have hin : (sz + PGSIZE - 1) / PGSIZE * PGSIZE < Vm.PGROUNDUP sz + 2 * PGSIZE :=
      Nat.lt_add_of_pos_right (by decide)
    rw [hguard]
    refine (clearpteu_does (hp.shifts h₁) hlt.le hu₁ hin).seq fun _ v₂ ⟨h₂, _, hcov⟩ => ?_
    rw [Vm.does_pure]
    refine ⟨h₁.trans h₂, ?_⟩
    rintro _ ⟨⟩
    refine ⟨hlt, ?_, hcov _ (hu₁.covered hlt.le)⟩
    rw [Vm.PGROUNDUP_eq]
    unfold PGSIZE
    omega

end

-- Sizes in its body are not computed when a goal that contains it is unfolded.
attribute [local irreducible] stackPages

/-- The new address space `d` has exactly the pages of its first `sz` bytes. -/
structure Loading (p : Fin NPROC) (m₀ : Machine) (l : Sys.Local) (d : Page) (sz : Nat) (m : Machine) : Prop where
  begun : Begun p m₀ l (dirPages m.vm.mem d) m
  size : sz < KERNBASE
  exact : ExactPages (tables m.vm.mem d) sz

section

variable {d : Page} {sz : Nat} {ip : Slot} (bytesIn : List Byte → Contents → Contents)

theorem Loading.pool (h : Loading p m₀ l d sz m) (hp : Pool m₀.vm 0) : Pool m.vm (dirPages m.vm.mem d) :=
  hp.shifts h.begun.pages

theorem Loading.same (h : Loading p m₀ l d sz m) (hb : Begun p m₀ l (dirPages m.vm.mem d) m') (hvm : m'.vm = m.vm) :
    Loading p m₀ l d sz m' := by
  rw [← hvm] at hb
  exact ⟨hb, h.size, by rw [hvm]; exact h.exact⟩

theorem Loading.readAll (h : Loading p m₀ l d sz m) (hlock : l.lock ip = some .clean) (off n : Nat) :
    Cmd.wp (onFs dev p (readAll ip off n)) (fun _ m' => Loading p m₀ l d sz m' ∧ m'.vm = m.vm)
      (fun e _ => OnlyFs e) m := by
  refine Cmd.wp_mono _ _ _ _ _ _ (h.begun.fs (Sys.readAll_obeys off n hlock) (readAll_quiet ip off n)) ?_
    fun _ _ he => he
  rintro r m' ⟨_, rfl, hb, hvm⟩
  exact ⟨h.same hb hvm, hvm⟩

theorem wp_walk {f : Option (Page × Fin Vm.NPTENTRIES) → ExecM β} {Q : β → Machine → Prop} {E : Stop → Machine → Prop}
    (va : Nat) :
    Cmd.wp (onVm (Vm.walkpgdir d va false) >>= f) Q E m ↔
      Cmd.wp (f (if (m.vm.mem d (Vm.PDX va)).p then some ((m.vm.mem d (Vm.PDX va)).page, Vm.PTX va)
        else none)) Q E m := by
  unfold onVm
  rw [Cmd.wp_bind, Cmd.wp_zoom]
  unfold Cmd.wp
  rw [Vm.walkpgdir_get]

theorem loadFrom_wp (hp : Pool m₀.vm 0) (hlock : l.lock ip = some .clean) {addr offset filesz : Nat}
    (halign : addr % PGSIZE = 0)
    (hfit : addr + filesz ≤ sz) (fuel k : Nat) (hk : k * PGSIZE < filesz + PGSIZE)
    (hfuel : filesz + PGSIZE ≤ (k + fuel) * PGSIZE) (h : Loading p m₀ l d sz m) :
    Cmd.wp (loadFrom dev p bytesIn d addr ip offset filesz fuel (k * PGSIZE)) (fun _ m' => Loading p m₀ l d sz m')
      (fun e _ => OnlyFs e) m := by
  induction fuel generalizing k m with
  | zero =>
    rw [Nat.add_zero] at hfuel
    omega
  | succ fuel ih =>
    have hsize := h.size
    have htop : KERNBASE + PGSIZE < 2 ^ 32 := by decide
    rw [loadFrom]
    split_ifs with hlt
    · have haddr : (addr + k * PGSIZE) % 2 ^ 32 = (addr / PGSIZE + k) * PGSIZE := by
        rw [Nat.add_mul, Nat.div_mul_cancel (Nat.dvd_of_mod_eq_zero halign)]
        exact Nat.mod_eq_of_lt (by omega)
      have hin : (addr / PGSIZE + k) * PGSIZE < sz := by
        rw [Nat.add_mul, Nat.div_mul_cancel (Nat.dvd_of_mod_eq_zero halign)]
        omega
      have hpresent := h.exact.covered hsize.le _ hin
      rw [wp_walk, haddr, Vm.PDX_page, Vm.PTX_page, if_pos (Vm.present_iff.mp hpresent).1]
      refine Cmd.wp_seq (h.readAll hlock _ _) fun r m₁ ⟨h₁, hvm⟩ => ?_
      rcases r with _ | bytes
      · exact h₁
      · have hfill := fill_does (h₁.pool hp) hsize.le h₁.exact hin bytesIn bytes
        rw [← hvm]
        refine Cmd.wp_seq (h₁.begun.vm hfill) ?_
        rintro _ m₂ ⟨hb, htables⟩
        have hnext : (k * PGSIZE + PGSIZE) % 2 ^ 32 = (k + 1) * PGSIZE := by
          rw [Nat.succ_mul]
          exact Nat.mod_eq_of_lt (by omega)
        rw [hnext]
        refine ih (k + 1) (by rw [Nat.succ_mul]; omega) (by rwa [Nat.add_assoc, Nat.add_comm 1]) ⟨hb, hsize, ?_⟩
        rw [htables]
        exact h₁.exact
    · exact h

theorem loaduvm_wp (hp : Pool m₀.vm 0) (hlock : l.lock ip = some .clean) {addr offset filesz : Nat}
    (halign : addr % PGSIZE = 0) (hfit : addr + filesz ≤ sz) (h : Loading p m₀ l d sz m) :
    Cmd.wp (loaduvm dev p bytesIn d addr ip offset filesz) (fun _ m' => Loading p m₀ l d sz m')
      (fun e _ => OnlyFs e) m := by
  unfold loaduvm
  rw [if_neg (not_not.mpr halign)]
  have hsize := h.size
  have hfuel : filesz + PGSIZE ≤ (0 + (2 ^ 20 + 1)) * PGSIZE := by
    have : KERNBASE + PGSIZE ≤ (0 + (2 ^ 20 + 1)) * PGSIZE := by decide
    omega
  have hstart : Cmd.wp (loadFrom dev p bytesIn d addr ip offset filesz _ (0 * PGSIZE)) _ _ m :=
    loadFrom_wp bytesIn hp hlock halign hfit (2 ^ 20 + 1) 0
      (by rw [Nat.zero_mul]; exact Nat.add_pos_right _ (by decide)) hfuel h
  rwa [Nat.zero_mul] at hstart

def Segments (p : Fin NPROC) (m₀ : Machine) (l : Sys.Local) (d : Page) : Option Nat → Machine → Prop
  | none, m => Begun p m₀ l (dirPages m.vm.mem d) m
  | some sz, m => Loading p m₀ l d sz m

theorem num_lt (bytes : List Byte) (off : Nat) : num bytes off 4 < 2 ^ 32 := leVal_lt _ 4

theorem loadSegments_wp (hp : Pool m₀.vm 0) (hlock : l.lock ip = some .clean) (n off sz : Nat)
    (h : Loading p m₀ l d sz m) :
    Cmd.wp (loadSegments dev p bytesIn d ip n off sz) (Segments p m₀ l d) (fun e _ => OnlyFs e) m := by
  induction n generalizing off sz m with
  | zero => exact h
  | succ n ih =>
    rw [loadSegments]
    refine Cmd.wp_seq (h.readAll hlock off 32) fun r m₁ ⟨h₁, _⟩ => ?_
    rcases r with _ | ph
    · exact h₁.begun
    dsimp only
    split
    · exact ih _ _ h₁
    split
    · exact h₁.begun
    split
    · exact h₁.begun
    rename_i hmem hwrap
    have hmemsz := num_lt ph 20
    have hend : (num ph 8 4 + num ph 20 4) % 2 ^ 32 = num ph 8 4 + num ph 20 4 := by omega
    rw [hend]
    refine Cmd.wp_seq (h₁.begun.vm (allocuvm_grows (h₁.pool hp) h₁.size h₁.exact _)) ?_
    rintro r m₂ ⟨h₂, hsize⟩
    split_ifs with hr halign
    · exact h₂
    · exact h₂
    obtain ⟨hmax, hlt, hexact⟩ := hsize hr
    refine Cmd.wp_seq (loaduvm_wp bytesIn hp hlock (not_not.mp halign) (by omega) ⟨h₂, hlt, hexact⟩) fun b m₃ h₃ => ?_
    rcases b with _ | _
    · exact h₃.begun
    · exact ih _ _ h₃

end

def reading (ip : Slot) : Sys.Local := (Sys.Local.idle.enter.mode ip (some .clean)).gain ip

section

variable {d : Page} {ip : Slot} {sz : Nat} (bytesIn : List Byte → Contents → Contents)

theorem Begun.put (h : Begun p m₀ (reading ip) A m) :
    Cmd.wp (onFs dev p (Sys.iunlockput ip)) (fun _ m' => Begun p m₀ Sys.Local.idle.enter A m' ∧ m'.vm = m.vm)
      (fun e _ => OnlyFs e) m := by
  refine Cmd.wp_mono _ _ _ _ _ _ (h.fs (Sys.put_obeys ip le_rfl rfl) (iunlockput_quiet ip)) ?_ fun _ _ he => he
  rintro _ m' ⟨_, rfl, h', hvm⟩
  exact ⟨h', hvm⟩

theorem Begun.close (h : Begun p m₀ Sys.Local.idle.enter A m) :
    Cmd.wp (onFs dev p (Sys.op .end_op)) (fun _ m' => Begun p m₀ .idle A m' ∧ m'.vm = m.vm)
      (fun e _ => OnlyFs e) m := by
  have hend : Sys.Obeys (Sys.op .end_op) (fun _ l' => l' = Sys.Local.idle) Sys.Local.idle.enter :=
    Sys.obeys_last rfl fun _ _ => ⟨_, rfl, rfl⟩
  refine Cmd.wp_mono _ _ _ _ _ _ (h.fs hend (quiet_op rfl)) ?_ fun _ _ he => he
  rintro _ m' ⟨_, rfl, h', hvm⟩
  exact ⟨h', hvm⟩

theorem Begun.leave (h : Begun p m₀ (reading ip) A m) :
    Cmd.wp (onFs dev p (Sys.iunlockput ip) >>= fun _ => onFs dev p (Sys.op .end_op))
      (fun _ m' => Begun p m₀ .idle A m') (fun e _ => OnlyFs e) m := by
  refine Cmd.wp_seq h.put fun _ m₁ h₁ => ?_
  refine Cmd.wp_mono _ _ _ _ _ _ h₁.1.close ?_ fun _ _ he => he
  rintro _ m' ⟨h', -⟩
  exact h'

theorem Begun.free {E : Stop → Machine → Prop} (hp : Pool m₀.vm 0) (h : Begun p m₀ l (dirPages m.vm.mem d) m) :
    Cmd.wp (onVm (Vm.freevm d)) (fun _ m' => Begun p m₀ l 0 m') E m := by
  have hfree := (Vm.freevm_does (hp.shifts h.pages)).mono fun _ v hs => (⟨hs, trivial⟩ : Shifts m.vm _ v 0 ∧ True)
  refine Cmd.wp_mono _ _ _ _ _ _ (h.vm hfree) ?_ fun _ _ he => he
  rintro _ m' ⟨h', -⟩
  exact h'

def Undone (p : Fin NPROC) (m₀ : Machine) (r : Option α) (m : Machine) : Prop := r = none ∧ Begun p m₀ .idle 0 m

theorem bad_reading (h : Begun p m₀ (reading ip) 0 m) :
    Cmd.wp (bad dev p none (some ip)) (Undone (α := α) p m₀) (fun e _ => OnlyFs e) m := by
  unfold bad
  refine Cmd.wp_seq (P := fun _ m' => m' = m) rfl ?_
  rintro _ _ rfl
  exact Cmd.wp_seq h.leave fun _ m' h' => ⟨rfl, h'⟩

theorem bad_segments (hp : Pool m₀.vm 0) (h : Begun p m₀ (reading ip) (dirPages m.vm.mem d) m) :
    Cmd.wp (bad dev p (some d) (some ip)) (Undone (α := α) p m₀) (fun e _ => OnlyFs e) m := by
  unfold bad
  refine Cmd.wp_seq (h.free hp) fun _ m₁ h₁ => ?_
  exact Cmd.wp_seq h₁.leave fun _ m' h' => ⟨rfl, h'⟩

theorem bad_stack (hp : Pool m₀.vm 0) (h : Begun p m₀ .idle (dirPages m.vm.mem d) m) :
    Cmd.wp (bad dev p (some d) none) (Undone (α := α) p m₀) (fun e _ => OnlyFs e) m := by
  unfold bad
  refine Cmd.wp_seq (h.free hp) fun _ m₁ h₁ => ?_
  exact ⟨rfl, h₁⟩

structure Ready (dev : Blocks.Dev) (p : Fin NPROC) (m : Machine) : Prop where
  files : (Sys.system dev).Reach m.fs
  linked : Linked m.vm
  pool : Pool m.vm (dirPages m.vm.mem (m.user p).pgdir)

def Loads (p : Fin NPROC) (m₀ : Machine) : Option (Page × Nat × Nat) → Machine → Prop
  | none, m => Begun p m₀ .idle 0 m
  | some (d, sz, _), m => Begun p m₀ .idle (dirPages m.vm.mem d) m ∧ sz < KERNBASE ∧ sz % 4 = 0 ∧
      Vm.Covered (tables m.vm.mem d) sz

theorem undone_loads {E : Stop → Machine → Prop} {x : ExecM (Option (Page × Nat × Nat))}
    (h : Cmd.wp x (Undone p m₀) E m) :
    Cmd.wp x (Loads p m₀) E m := by
  refine Cmd.wp_mono _ _ _ _ _ _ h ?_ fun _ _ he => he
  rintro _ m' ⟨rfl, h'⟩
  exact h'

theorem Ready.begun (h : Ready dev p m) : Begun p m .idle 0 m := by
  refine ⟨⟨?_, ⟨rfl, rfl⟩, rfl⟩, .refl⟩
  rw [update_eq_self]
  exact Sys.reach_idle h.files

theorem loadStack_wp (hp : Pool m₀.vm 0) (h : Loading p m₀ .idle d sz m) (entry : Nat) :
    Cmd.wp (loadStack dev p d sz entry) (Loads p m₀) (fun e _ => OnlyFs e) m := by
  unfold loadStack
  refine Cmd.wp_seq (h.begun.vm (stackPages_does (h.pool hp) h.exact)) ?_
  rintro r m₁ ⟨h₁, hsome⟩
  rcases r with _ | sz'
  · exact undone_loads (bad_stack hp h₁)
  · exact ⟨h₁, hsome sz' rfl⟩

theorem loadImage_wp (hp : Pool m₀.vm 0) (h : Loading p m₀ (reading ip) d 0 m) (elf : List Byte) :
    Cmd.wp (loadImage dev p bytesIn ip elf d) (Loads p m₀) (fun e _ => OnlyFs e) m := by
  have hlock : (reading ip).lock ip = some .clean := Sys.Local.lock_mode_self
  unfold loadImage
  refine Cmd.wp_seq (loadSegments_wp bytesIn hp hlock _ _ 0 h) fun r m₁ h₁ => ?_
  rcases r with _ | sz
  · exact undone_loads (bad_segments hp h₁)
  · refine Cmd.wp_seq h₁.begun.put fun _ m₂ ⟨h₂, hvm₂⟩ => ?_
    refine Cmd.wp_seq h₂.close fun _ m₃ ⟨h₃, hvm₃⟩ => ?_
    have hvm := hvm₃.trans hvm₂
    refine loadStack_wp hp ⟨?_, h₁.size, ?_⟩ _
    · rwa [hvm]
    · rw [hvm]
      exact h₁.exact

def Sets (p : Fin NPROC) (m₀ : Machine) (l : Sys.Local) : Option Page → Machine → Prop
  | none, m => Begun p m₀ l 0 m
  | some d, m => Loading p m₀ l d 0 m

theorem setupkvm_wp {E : Stop → Machine → Prop} (hl : Linked m₀.vm) (hp : Pool m₀.vm 0) (h : Begun p m₀ l 0 m)
    (hvm : m.vm = m₀.vm) :
    Cmd.wp (onVm Vm.setupkvm) (Sets p m₀ l) E m := by
  have hsetup := Vm.setupkvm_does hl hp
  rw [← hvm] at hsetup
  obtain ⟨r, v, hrun, hkend, hmakes⟩ := hsetup.run
  unfold onVm
  rw [Cmd.wp_zoom]
  unfold Cmd.wp
  rw [hrun]
  rcases r with _ | d
  · exact ⟨⟨h.inv, h.tables, h.user⟩, h.pages.trans ⟨hmakes, hkend⟩⟩
  · obtain ⟨hmoves, -, hnone⟩ := hmakes
    refine ⟨⟨⟨h.inv, h.tables, h.user⟩, h.pages.trans ⟨hmoves, hkend⟩⟩, by decide, fun w hw => ?_⟩
    have hfree : Vm.mapped (tables v.mem d) w = none := by rw [Vm.mapped, hnone _ (Vm.dirIx_lt hw), Option.bind_none]
    show (Vm.mapped (tables v.mem d) w).isSome = true ↔ _
    rw [hfree]
    exact iff_of_false (by simp) (Nat.not_lt_zero _)

theorem load_wp (h : Ready dev p m) (path : List Char) :
    Cmd.wp (load dev p bytesIn path) (Loads p m) (fun e _ => OnlyFs e) m := by
  have hp : Pool m.vm 0 := h.pool.of_le (Multiset.zero_le _)
  have hbegin : Sys.Obeys (Sys.op .begin_op) (fun _ l' => l' = Sys.Local.idle.enter) Sys.Local.idle :=
    Sys.obeys_last rfl fun _ _ => ⟨_, rfl, rfl⟩
  unfold load
  refine Cmd.wp_seq (h.begun.fs hbegin (quiet_op rfl)) ?_
  rintro _ m₁ ⟨_, rfl, h₁, hvm₁⟩
  refine Cmd.wp_seq (h₁.fs (Sys.namei_obeys path le_rfl) (namei_quiet path)) ?_
  rintro (_ | ip) m₂ ⟨l₂, ⟨hnone, hsome⟩, h₂, hvm₂⟩
  · rw [hnone rfl] at h₂
    refine Cmd.wp_seq h₂.close ?_
    rintro _ m₃ ⟨h₃, -⟩
    exact h₃
  rw [hsome ip rfl] at h₂
  have hlocked := Sys.ilock_obeys ip (.inl (Sys.Local.owns_gain (l := Sys.Local.idle.enter) (i := ip) le_rfl))
  refine Cmd.wp_seq (h₂.fs hlocked (ilock_quiet ip)) ?_
  rintro _ m₃ ⟨_, ⟨-, rfl⟩, h₃, hvm₃⟩
  have hreading : Begun p m (reading ip) 0 m₃ := h₃
  have hlock : (reading ip).lock ip = some .clean := Sys.Local.lock_mode_self
  refine Cmd.wp_seq (hreading.fs (Sys.readAll_obeys 0 52 hlock) (readAll_quiet ip 0 52)) ?_
  rintro r m₄ ⟨_, rfl, h₄, hvm₄⟩
  have hbad : Cmd.wp (bad dev p none (some ip)) (Loads p m) (fun e _ => OnlyFs e) m₄ := undone_loads (bad_reading h₄)
  rcases r with _ | elf
  · exact hbad
  dsimp only
  split_ifs with hmagic
  · exact hbad
  have hvm : m₄.vm = m.vm := hvm₄.trans (hvm₃.trans (hvm₂.trans hvm₁))
  refine Cmd.wp_seq (setupkvm_wp h.linked hp h₄ hvm) fun r m₅ h₅ => ?_
  rcases r with _ | d
  · exact undone_loads (bad_reading h₅)
  · exact loadImage_wp bytesIn hp h₅ elf

end

section

variable {d cur : Page} {v : Vm.Mem} {sz : Nat}

theorem pushAll_ends (args : List Vm.Arg) (ustack : Nat → Contents → Contents) (hcov : Vm.Covered (tables v.mem d) sz)
    (hk : sz < KERNBASE) (halign : sz % 4 = 0) (hfit : Vm.argsBytes args + 4 * (args.length + 4) ≤ sz)
    (ha : Vm.Apart v (dirPages v.mem d)) : Vm.Ends (pushAll cur d args ustack sz) (fun _ v' => Vm.Kept d v v') v := by
  unfold pushAll
  refine (Vm.pushArgs_ends cur args 0 sz hcov hk le_rfl halign (by omega) ha).seq fun q v₁ ⟨h₁, hsome⟩ => ?_
  rcases q with _ | ⟨argc, sp⟩
  · exact (Vm.ends_pure none).mpr h₁
  · obtain ⟨rfl, rfl⟩ := hsome argc sp rfl
    dsimp only
    have hsp : (sz - Vm.argsBytes args + (2 ^ 32 - (3 + (0 + args.length) + 1) * 4)) % 2 ^ 32 =
        sz - Vm.argsBytes args - (3 + (0 + args.length) + 1) * 4 := by
      unfold KERNBASE at hk
      omega
    rw [hsp]
    unfold Vm.copyout
    refine (Vm.copyoutFrom_ends cur ustack (by rwa [h₁.2]) hk.le _ 0 _ _ (.inr (by omega)) (h₁.1.apart ha)).seq
      fun b v₂ h₂ => ?_
    split_ifs
    · exact (Vm.ends_pure _).mpr (h₁.trans h₂)
    · exact (Vm.ends_pure none).mpr (h₁.trans h₂)

end

/-- The process, its files, the counts of `icache` and the transactions are the same. -/
structure Unchanged (m m' : Machine) : Prop where
  user : m'.user = m.user
  proc : m'.fs.proc = m.fs.proc
  file : m'.fs.file = m.fs.file
  ref : ∀ e, (m'.fs.entry e).ref = (m.fs.entry e).ref
  lock : ∀ e, (m'.fs.entry e).lock = none
  inOp : m'.fs.inOp = m.fs.inOp
  outstanding : m'.fs.outstanding = m.fs.outstanding

theorem Calm.unchanged (h : Ready dev p m) (hc : Calm p m .idle m') : Unchanged m m' := by
  have hold := Sys.reach_idle h.files
  have hnew := hc.inv
  rw [update_eq_self] at hnew
  obtain ⟨hbal, hout⟩ := Sys.balanced_of_idle hold
  obtain ⟨hbal', hout'⟩ := Sys.balanced_of_idle hnew
  refine ⟨hc.user, hc.tables.1, hc.tables.2, fun e => ?_, hbal'.lock, ?_, hout'.trans hout.symm⟩
  · rw [hbal.ref, hbal'.ref, Sys.refs, Sys.refs, hc.tables.1, hc.tables.2]
  · funext q
    rw [hold.ops.op, hnew.ops.op]

/-- No page but free ones has been written, and the same pages are free. -/
def SameMemory (v v' : Vm.Mem) : Prop := Vm.Moves v 0 v' 0

/-- The arguments and the table of their addresses are not longer than the image that is loaded. -/
def Request.Fits (dev : Blocks.Dev) (p : Fin NPROC) (r : Request) (m : Machine) : Prop :=
  ∀ d sz entry m', load dev p r.bytesIn r.path m = (.ok (some (d, sz, entry)), m') →
    Vm.argsBytes r.args + 4 * (r.args.length + 4) ≤ sz

theorem commit_wp (path : List Char) (d : Page) (sz entry sp : Nat) {Q : Int → Machine → Prop} (hQ : ∀ m', Q 0 m') :
    Cmd.wp (commit p path d sz entry sp) Q (fun _ _ => True) m := by
  unfold commit
  rw [Cmd.wp_bind, Cmd.wp_get, Cmd.wp_bind, Cmd.wp_modify]
  refine Cmd.wp_seq (P := fun _ _ => True) ?_ fun _ m' _ => hQ m'
  unfold Cmd.wp
  split <;> trivial

theorem runImage_calm (h : Ready dev p m₀) (hc : Calm p m₀ .idle m) (r : Request) (d : Page) (sz entry : Nat) :
    Cmd.wp (runImage dev p r d sz entry) (fun k m' => k = -1 → Unchanged m₀ m') (fun _ _ => True) m := by
  unfold runImage
  rw [Cmd.wp_bind, Cmd.wp_get]
  refine Cmd.wp_seq (hc.vm _) fun q m₁ h₁ => ?_
  rcases q with _ | sp
  · unfold bad
    refine Cmd.wp_seq (P := fun _ m' => Calm p m₀ .idle m') ?_ fun _ m' h' _ => h'.unchanged h
    exact Cmd.wp_seq (h₁.vm _) fun _ _ h₂ => h₂
  · exact commit_wp r.path d sz entry sp fun _ h0 => absurd h0 (by decide)

theorem wp_onVm {x : Vm.VmM α} {P : α → Vm.Mem → Prop} (hx : Vm.Ends x P m.vm) :
    Cmd.wp (onVm x) (fun r m' => P r m'.vm) (fun _ _ => True) m := by
  unfold onVm
  rw [Cmd.wp_zoom]
  unfold Vm.Ends at hx
  exact hx

theorem runImage_memory (hp : Pool m₀.vm 0) {d : Page} {sz entry : Nat} (h : Loads p m₀ (some (d, sz, entry)) m)
    (r : Request) (hfit : Vm.argsBytes r.args + 4 * (r.args.length + 4) ≤ sz) :
    Cmd.wp (runImage dev p r d sz entry) (fun k m' => k = -1 → SameMemory m₀.vm m'.vm) (fun _ _ => True) m := by
  obtain ⟨hb, hk, halign, hcov⟩ := h
  have ha : Vm.Apart m.vm (dirPages m.vm.mem d) := (hp.shifts hb.pages).apart
  unfold runImage
  rw [Cmd.wp_bind, Cmd.wp_get]
  refine Cmd.wp_seq (wp_onVm (pushAll_ends r.args r.ustack hcov hk halign hfit ha)) fun q m₁ h₁ => ?_
  rcases q with _ | sp
  · unfold bad
    have hmoves := hb.pages.moves.trans h₁.1
    refine Cmd.wp_seq (P := fun _ m' => SameMemory m₀.vm m'.vm) ?_ fun _ m' h' _ => h'
    refine Cmd.wp_seq (wp_onVm (Vm.freevm_ends (h₁.1.apart ha))) fun _ m₂ h₂ => ?_
    exact hmoves.trans h₂
  · exact commit_wp r.path d sz entry sp fun _ h0 => absurd h0 (by decide)

theorem load_run (h : Ready dev p m) (bytesIn : List Byte → Contents → Contents) (path : List Char) :
    Cmd.wp (load dev p bytesIn path) (fun q m₁ => load dev p bytesIn path m = (.ok q, m₁) ∧ Loads p m q m₁)
      (fun e _ => OnlyFs e) m := by
  have hload := load_wp bytesIn h path
  unfold Cmd.wp at hload ⊢
  split <;> rename_i heq
  · rw [heq] at hload
    exact ⟨heq, hload⟩
  · rwa [heq] at hload

theorem exec_fails (h : Ready dev p m) (r : Request) :
    Cmd.wp (exec dev p r) (fun k m' => k = -1 → Unchanged m m' ∧ (r.Fits dev p m → SameMemory m.vm m'.vm))
      (fun _ _ => True) m := by
  have hp : Pool m.vm 0 := h.pool.of_le (Multiset.zero_le _)
  unfold exec
  refine Cmd.wp_seq (Cmd.wp_mono _ _ _ _ _ _ (load_run h r.bytesIn r.path) (fun _ _ hl => hl) fun _ _ _ => trivial) ?_
  rintro (_ | ⟨d, sz, entry⟩) m₁ ⟨heq, h₁⟩
  · exact fun _ => ⟨h₁.toCalm.unchanged h, fun _ => h₁.pages.moves⟩
  · have hcalm := runImage_calm h h₁.1.toCalm r d sz entry
    by_cases hfit : r.Fits dev p m
    · have hmem : Cmd.wp (runImage dev p r d sz entry) _ _ m₁ := runImage_memory hp h₁ r (hfit d sz entry m₁ heq)
      dsimp only
      unfold Cmd.wp at hcalm hmem ⊢
      split <;> rename_i hrun
      · rw [hrun] at hcalm hmem
        exact fun hk => ⟨hcalm hk, fun _ => hmem hk⟩
      · trivial
    · exact Cmd.wp_mono _ _ _ _ _ _ hcalm (fun _ _ hu hk => ⟨hu hk, fun hf => absurd hf hfit⟩) fun _ _ he => he

/-- **`exec` survives every file.** Loading is stopped by nothing but the file system. After a failure the process, its
files and the transactions are as before, and so is memory unless an argument is longer than the new image. -/
theorem exec_survives (h : Ready dev p m) (r : Request) :
    (∀ e m', load dev p r.bytesIn r.path m = (.error e, m') → OnlyFs e) ∧
    ∀ m', exec dev p r m = (.ok (-1), m') → Unchanged m m' ∧ (r.Fits dev p m → SameMemory m.vm m'.vm) := by
  constructor
  · intro e m' hrun
    have hload := load_wp r.bytesIn h r.path
    unfold Cmd.wp at hload
    rwa [hrun] at hload
  · intro m' hrun
    exact Cmd.wp_ok _ _ _ _ _ _ (exec_fails h r) hrun rfl

def emptyRoot : Blocks.Disk := ⟨fun b i => if b = 32 ∧ (i.val = 64 ∨ i.val = 70) then 1 else 0, []⟩

/-- A process after boot whose page directory is that of `s`. -/
def firstUser (s : Vm.State 1) (d : Page) : Machine :=
  ⟨Sys.boot emptyRoot, s.vm, fun _ => ⟨d, PGSIZE, ⟨0, PGSIZE⟩, "initcode".toList⟩⟩

theorem firstUser_ready {s : Vm.State 1} {i : Vm.Image} (h : Vm.Exactly s 0 i) (dev : Blocks.Dev) (p : Fin NPROC) :
    Ready dev p (firstUser s i.pgdir) := by
  unfold firstUser
  exact ⟨.init _ ⟨_, rfl⟩, h.linked, h.pool⟩

def rootDev : Blocks.Dev := ⟨⟨1000, 941, 200, 32, 58⟩, fun _ => none, fun _ => none⟩

def execRoot : Request := ⟨['/'], [], fun _ c => c, fun _ c => c⟩

theorem execRoot_fails : (exec rootDev Sys.initProc execRoot (firstUser Vm.booted 57342)).1 = .ok (-1) := by
  decide +kernel

theorem exec_survives_root : ∃ m', exec rootDev Sys.initProc execRoot (firstUser Vm.booted 57342) = (.ok (-1), m') ∧
    Unchanged (firstUser Vm.booted 57342) m' := by
  have hrun := Cmd.returns_of_fst execRoot_fails
  exact ⟨_, hrun, ((exec_survives (firstUser_ready Vm.booted_exactly rootDev Sys.initProc) execRoot).2 _ hrun).1⟩

end Xv6.Exec
