import Xv6.Lib.Count
import Xv6.Sys.Rules

/-!
# What all processes have together

A count of `icache` is the number of references that the processes have, those of their current
directories and those of open files. Locks, transactions and files are accounted for in the same way.
Every operation that obeys the rules keeps this.
-/

open Lib Function

namespace Xv6.Sys

open Blocks (Dev)

variable {dev : Dev} {s s' : Kernel} {L L' : Fin NPROC → Local} {p : Fin NPROC} {l' : Local}

def cwdRef (v : Proc) (e : Slot) : Int := if v.cwd = some e then 1 else 0

def share (l : Local) (v : Proc) (e : Slot) : Int := l.own e + cwdRef v e

def ipRef (v : File) (e : Slot) : Int := if v.ip = some e then 1 else 0

def fdRef (v : Proc) (f : Fin NFILE) : Int := ∑ fd, if v.ofile fd = some f then 1 else 0

def fshare (l : Local) (v : Proc) (f : Fin NFILE) : Int := l.fown f + fdRef v f

theorem cwdRef_nonneg (v : Proc) (e : Slot) : 0 ≤ cwdRef v e := by
  unfold cwdRef
  split_ifs <;> omega

theorem ipRef_nonneg (v : File) (e : Slot) : 0 ≤ ipRef v e := by
  unfold ipRef
  split_ifs <;> omega

theorem fdRef_nonneg (v : Proc) (f : Fin NFILE) : 0 ≤ fdRef v f :=
  Finset.sum_nonneg fun fd _ => by split_ifs <;> omega

theorem fdRef_pos {v : Proc} {fd : Fin NOFILE} {f : Fin NFILE} (h : v.ofile fd = some f) : 1 ≤ fdRef v f := by
  have := le_sum_of_nonneg (fun fd => if v.ofile fd = some f then (1 : Int) else 0)
    (fun fd => by split_ifs <;> omega) fd
  simp only [h, if_true] at this
  exact this

theorem fdRef_update (v : Proc) (fd : Fin NOFILE) (x : Option (Fin NFILE)) (f : Fin NFILE) :
    fdRef { v with ofile := update v.ofile fd x } f + (if v.ofile fd = some f then 1 else 0) =
      fdRef v f + if x = some f then 1 else 0 :=
  sum_update (fun x : Option (Fin NFILE) => if x = some f then (1 : Int) else 0) v.ofile fd x

theorem share_congr {l l' : Local} {v v' : Proc} (ho : l'.own = l.own) (hc : v'.cwd = v.cwd) (e : Slot) :
    share l' v' e = share l v e := by
  unfold share cwdRef
  rw [ho, hc]

theorem fshare_congr {l l' : Local} {v v' : Proc} (ho : l'.fown = l.fown) (hf : v'.ofile = v.ofile) (f : Fin NFILE) :
    fshare l' v' f = fshare l v f := by
  unfold fshare fdRef
  rw [ho, hf]

structure Refs (s : Kernel) (L : Fin NPROC → Local) : Prop where
  ref : ∀ e, (s.entry e).ref = ∑ q, share (L q) (s.proc q) e + ∑ f, ipRef (s.file f) e
  share : ∀ q e, 0 ≤ share (L q) (s.proc q) e
  root : ∀ e, 0 < (s.entry e).ref → (s.entry e).dev = ROOTDEV

structure Locks (s : Kernel) (L : Fin NPROC → Local) : Prop where
  lock : ∀ e q, (s.entry e).lock = some q ↔ (L q).lock e ≠ none
  held : ∀ q e, (L q).lock e ≠ none → 0 < Sys.share (L q) (s.proc q) e ∨ ∃ f, (L q).ip = some (f, e)

structure Ops (s : Kernel) (L : Fin NPROC → Local) : Prop where
  op : ∀ q, s.inOp q = (L q).inOp
  outstanding : s.outstanding = ∑ q, if s.inOp q then 1 else 0

structure Files (s : Kernel) (L : Fin NPROC → Local) : Prop where
  fref : ∀ f, ∑ q, fshare (L q) (s.proc q) f ≤ (s.file f).ref
  fshare : ∀ q f, 0 ≤ Sys.fshare (L q) (s.proc q) f
  closed : ∀ f, (s.file f).ref = 0 → (s.file f).ip = none
  desc : ∀ q fd f, (L q).desc = some (fd, f) → (s.proc q).ofile fd = some f
  ip : ∀ q f e, (L q).ip = some (f, e) → 0 < Sys.fshare (L q) (s.proc q) f ∧ (s.file f).ip = some e
  fresh : ∀ q f, (L q).fresh = some f → 0 < Sys.fshare (L q) (s.proc q) f ∧ (s.file f).ip = none
  inj : ∀ q q' f, (L q).fresh = some f → (L q').fresh = some f → q = q'

structure Procs (s : Kernel) (L : Fin NPROC → Local) : Prop where
  cwd : ∀ q v, (L q).cwd = some v → (s.proc q).cwd = v
  child : ∀ q np, (L q).child = some np → (s.proc np).state = .embryo ∧ (s.proc np).cwd = none
  inj : ∀ q q' np, (L q).child = some np → (L q').child = some np → q = q'
  dead : ∀ q, (s.proc q).state = .unused ∨ (s.proc q).state = .zombie → (s.proc q).cwd = none
  idle : ∀ q, (s.proc q).state ≠ .alive → L q = .idle

structure Inv (s : Kernel) (L : Fin NPROC → Local) : Prop where
  refs : Refs s L
  locks : Locks s L
  ops : Ops s L
  files : Files s L
  procs : Procs s L

theorem update_same {α : Type} (g : Local → α) (h : g l' = g (L p)) (q : Fin NPROC) :
    g (update L p l' q) = g (L q) := by
  rcases eq_or_ne q p with rfl | hq
  · rw [update_self, h]
  · rw [update_of_ne hq]

theorem Refs.frame (h : Refs s L) (href : ∀ e, (s'.entry e).ref = (s.entry e).ref)
    (hdev : ∀ e, (s'.entry e).dev = (s.entry e).dev) (hip : ∀ f, (s'.file f).ip = (s.file f).ip)
    (hcwd : ∀ q, (s'.proc q).cwd = (s.proc q).cwd) (hown : ∀ q, (L' q).own = (L q).own) : Refs s' L' := by
  have hshare : ∀ q e, Sys.share (L' q) (s'.proc q) e = Sys.share (L q) (s.proc q) e :=
    fun q e => share_congr (hown q) (hcwd q) e
  refine ⟨fun e => ?_, fun q e => ?_, fun e he => ?_⟩
  · rw [href, h.ref e]
    congr 1
    · exact Finset.sum_congr rfl fun q _ => (hshare q e).symm
    · exact Finset.sum_congr rfl fun f _ => by rw [ipRef, ipRef, hip]
  · rw [hshare]
    exact h.share q e
  · rw [hdev]
    exact h.root e (by rwa [← href])

theorem Locks.frame (h : Locks s L) (hlock : ∀ e, (s'.entry e).lock = (s.entry e).lock)
    (hL : ∀ q e, (L' q).lock e = none ↔ (L q).lock e = none)
    (hshare : ∀ q e, (L q).lock e ≠ none → Sys.share (L q) (s.proc q) e ≤ Sys.share (L' q) (s'.proc q) e)
    (hip : ∀ q, (L' q).ip = (L q).ip) : Locks s' L' := by
  refine ⟨fun e q => ?_, fun q e he => ?_⟩
  · rw [hlock, h.lock e q, not_iff_not, hL]
  · have he' : (L q).lock e ≠ none := fun hn => he ((hL q e).mpr hn)
    rcases h.held q e he' with hs | hf
    · exact .inl (lt_of_lt_of_le hs (hshare q e he'))
    · exact .inr (by rwa [hip])

theorem Ops.frame (h : Ops s L) (hop : s'.inOp = s.inOp) (hout : s'.outstanding = s.outstanding)
    (hL : ∀ q, (L' q).inOp = (L q).inOp) : Ops s' L' := by
  refine ⟨fun q => ?_, ?_⟩
  · rw [hop, hL, h.op]
  · rw [hout, hop, h.outstanding]

theorem Files.frame (h : Files s L) (href : ∀ f, (s'.file f).ref = (s.file f).ref)
    (hip : ∀ f, (s'.file f).ip = (s.file f).ip)
    (hofile : ∀ q, (s'.proc q).ofile = (s.proc q).ofile) (hown : ∀ q, (L' q).fown = (L q).fown)
    (hdesc : ∀ q, (L' q).desc = (L q).desc) (hLip : ∀ q, (L' q).ip = (L q).ip)
    (hfresh : ∀ q, (L' q).fresh = (L q).fresh) :
    Files s' L' := by
  have hshare : ∀ q f, Sys.fshare (L' q) (s'.proc q) f = Sys.fshare (L q) (s.proc q) f :=
    fun q f => fshare_congr (hown q) (hofile q) f
  constructor
  · intro f
    rw [href, Finset.sum_congr rfl fun q _ => hshare q f]
    exact h.fref f
  · intro q f
    rw [hshare]
    exact h.fshare q f
  · intro f
    rw [href, hip]
    exact h.closed f
  · intro q fd f
    rw [hdesc, hofile]
    exact h.desc q fd f
  · intro q f e
    rw [hLip, hshare, hip]
    exact h.ip q f e
  · intro q f
    rw [hfresh, hshare, hip]
    exact h.fresh q f
  · intro q q' f
    rw [hfresh, hfresh]
    exact h.inj q q' f

theorem Procs.frame (h : Procs s L) (hstate : ∀ q, (s'.proc q).state = (s.proc q).state)
    (hcwd : ∀ q, (s'.proc q).cwd = (s.proc q).cwd) (hL : ∀ q, (L' q).cwd = (L q).cwd)
    (hchild : ∀ q, (L' q).child = (L q).child) (hidle : ∀ q, (s.proc q).state ≠ .alive → L' q = L q) : Procs s' L' := by
  constructor
  · intro q v
    rw [hL, hcwd]
    exact h.cwd q v
  · intro q np
    rw [hchild, hstate, hcwd]
    exact h.child q np
  · intro q q' np
    rw [hchild, hchild]
    exact h.inj q q' np
  · intro q
    rw [hstate, hcwd]
    exact h.dead q
  · intro q hq
    rw [hstate] at hq
    rw [hidle q hq]
    exact h.idle q hq

theorem idle_update (halive : (s.proc p).state = .alive) (q : Fin NPROC) (hq : (s.proc q).state ≠ .alive) :
    update L p l' q = L q := by
  apply update_of_ne
  rintro rfl
  exact hq halive

theorem Inv.of_refs_locks (h : Inv s L) (hfile : s'.file = s.file) (hproc : s'.proc = s.proc) (hop : s'.inOp = s.inOp)
    (hout : s'.outstanding = s.outstanding) (halive : (s.proc p).state = .alive)
    (hl : l' = { L p with own := l'.own, lock := l'.lock }) (hr : Refs s' (update L p l'))
    (hk : Locks s' (update L p l')) : Inv s' (update L p l') where
  refs := hr
  locks := hk
  ops := h.ops.frame hop hout (update_same Local.inOp (by rw [hl]))
  files := h.files.frame (fun f => by rw [hfile]) (fun f => by rw [hfile]) (fun q => by rw [hproc])
    (update_same Local.fown (by rw [hl])) (update_same Local.desc (by rw [hl])) (update_same Local.ip (by rw [hl]))
    (update_same Local.fresh (by rw [hl]))
  procs := h.procs.frame (fun q => by rw [hproc]) (fun q => by rw [hproc]) (update_same Local.cwd (by rw [hl]))
    (update_same Local.child (by rw [hl])) (idle_update halive)

structure Frame (s s' : Kernel) : Prop where
  ref : ∀ e, (s'.entry e).ref = (s.entry e).ref
  dev : ∀ e, (s'.entry e).dev = (s.entry e).dev
  lock : ∀ e, (s'.entry e).lock = (s.entry e).lock
  fref : ∀ f, (s'.file f).ref = (s.file f).ref
  ip : ∀ f, (s'.file f).ip = (s.file f).ip
  proc : s'.proc = s.proc
  inOp : s'.inOp = s.inOp
  outstanding : s'.outstanding = s.outstanding

theorem Frame.rfl : Frame s s :=
  ⟨fun _ => .refl _, fun _ => .refl _, fun _ => .refl _, fun _ => .refl _, fun _ => .refl _, .refl _, .refl _, .refl _⟩

theorem Frame.setEntry (d : Blocks.Disk) (i : Slot) (f : Entry → Entry) (href : ∀ v, (f v).ref = v.ref)
    (hdev : ∀ v, (f v).dev = v.dev)
    (hlock : ∀ v, (f v).lock = v.lock) : Frame s ({ s with disk := d }.setEntry i f) := by
  have h : ∀ {α : Type} (g : Entry → α), (∀ v, g (f v) = g v) → ∀ e,
      g ((Kernel.setEntry { s with disk := d } i f).entry e) = g (s.entry e) := by
    intro α g hg e
    show g (update s.entry i (f (s.entry i)) e) = _
    rcases eq_or_ne e i with rfl | he
    · rw [update_self, hg]
    · rw [update_of_ne he]
  exact ⟨h Entry.ref href, h Entry.dev hdev, h Entry.lock hlock, fun _ => .refl _, fun _ => .refl _, .refl _,
    .refl _, .refl _⟩

theorem frame_onInode {α : Type} {i : Slot} {f : Nat → Blocks.Dinode → Blocks.FsM (α × Blocks.Dinode)} {r : α}
    (hp : Kernel.onInode i f s = (.ok r, s')) : Frame s s' := by
  unfold Kernel.onInode at hp
  split at hp <;> cases hp
  exact Frame.setEntry _ i _ (fun _ => .refl _) (fun _ => .refl _) (fun _ => .refl _)

theorem frame_onDisk {α : Type} {f : Blocks.FsM α} {r : α} (hp : Kernel.onDisk f s = (.ok r, s')) : Frame s s' := by
  unfold Kernel.onDisk at hp
  split at hp <;> cases hp
  exact ⟨fun _ => rfl, fun _ => rfl, fun _ => rfl, fun _ => rfl, fun _ => rfl, rfl, rfl, rfl⟩

theorem Inv.frame (h : Inv s L) (hf : Frame s s') (halive : (s.proc p).state = .alive)
    (hl : l' = { L p with lock := l'.lock }) (hlock : ∀ e, l'.lock e = none ↔ (L p).lock e = none) :
    Inv s' (update L p l') where
  refs := h.refs.frame hf.ref hf.dev hf.ip (fun q => by rw [hf.proc]) (update_same Local.own (by rw [hl]))
  locks := by
    refine h.locks.frame hf.lock (fun q e => ?_) (fun q e _ => ?_) (update_same Local.ip (by rw [hl]))
    · rcases eq_or_ne q p with rfl | hq
      · rw [update_self, hlock]
      · rw [update_of_ne hq]
    · rw [share_congr (update_same Local.own (by rw [hl]) q) (by rw [hf.proc]) e]
  ops := h.ops.frame hf.inOp hf.outstanding (update_same Local.inOp (by rw [hl]))
  files := h.files.frame hf.fref hf.ip (fun q => by rw [hf.proc]) (update_same Local.fown (by rw [hl]))
    (update_same Local.desc (by rw [hl])) (update_same Local.ip (by rw [hl])) (update_same Local.fresh (by rw [hl]))
  procs := h.procs.frame (fun q => by rw [hf.proc]) (fun q => by rw [hf.proc]) (update_same Local.cwd (by rw [hl]))
    (update_same Local.child (by rw [hl])) (idle_update halive)

theorem share_pos (h : Refs s L) {e : Slot} (hs : 0 < share (L p) (s.proc p) e) : 0 < (s.entry e).ref := by
  have h1 := le_sum_of_nonneg (fun q => share (L q) (s.proc q) e) (fun q => h.share q e) p
  have h2 := Finset.sum_nonneg fun f (_ : f ∈ Finset.univ) => ipRef_nonneg (s.file f) e
  rw [h.ref e]
  omega

theorem ip_pos (h : Refs s L) {e : Slot} {f : Fin NFILE} (hf : (s.file f).ip = some e) : 0 < (s.entry e).ref := by
  have h1 := Finset.sum_nonneg fun q (_ : q ∈ Finset.univ) => h.share q e
  have h2 := le_sum_of_nonneg (fun f => ipRef (s.file f) e) (fun f => ipRef_nonneg _ _) f
  rw [h.ref e]
  have h3 : ipRef (s.file f) e = 1 := if_pos hf
  omega

theorem holds_pos (h : Inv s L) {e : Slot} (hh : (L p).Holds e) : 0 < (s.entry e).ref := by
  rcases hh with (hpos | ⟨hzero, hcwd⟩) | ⟨f, hf⟩
  · refine share_pos h.refs (p := p) ?_
    have := cwdRef_nonneg (s.proc p) e
    unfold share
    omega
  · refine share_pos h.refs (p := p) ?_
    unfold share cwdRef
    rw [hzero, if_pos (h.procs.cwd p _ hcwd)]
    omega
  · exact ip_pos h.refs (h.files.ip p f e hf).2

theorem owns_share (h : Inv s L) {e : Slot} (hh : (L p).Owns e) : 0 < share (L p) (s.proc p) e := by
  unfold share cwdRef
  rcases hh with hpos | ⟨hzero, hcwd⟩
  · split_ifs <;> omega
  · rw [hzero, if_pos (h.procs.cwd p _ hcwd)]
    omega

theorem share_gain (l : Local) (v : Proc) (i e : Slot) :
    share (l.gain i) v e = share l v e + if e = i then 1 else 0 := by
  unfold share Local.gain
  simp only [Pi.add_apply, Pi.single_apply]
  omega

theorem share_drop (l : Local) (v : Proc) (i e : Slot) :
    share (l.drop i) v e = share l v e - if e = i then 1 else 0 := by
  unfold share Local.drop
  simp only [Pi.sub_apply, Pi.single_apply]
  omega

theorem Refs.move (h : Refs s L) (hcwd : ∀ q, q ≠ p → (s'.proc q).cwd = (s.proc q).cwd)
    (href : ∀ e, (s'.entry e).ref + Sys.share (L p) (s.proc p) e + ∑ f, ipRef (s.file f) e =
      (s.entry e).ref + Sys.share l' (s'.proc p) e + ∑ f, ipRef (s'.file f) e)
    (hshare : ∀ e, 0 ≤ Sys.share l' (s'.proc p) e) (hroot : ∀ e, 0 < (s'.entry e).ref → (s'.entry e).dev = ROOTDEV) :
    Refs s' (update L p l') := by
  have hother : ∀ q, q ≠ p → ∀ e, Sys.share (update L p l' q) (s'.proc q) e = Sys.share (L q) (s.proc q) e := by
    intro q hq e
    rw [update_of_ne hq]
    exact share_congr rfl (hcwd q hq) e
  refine ⟨fun e => ?_, fun q e => ?_, hroot⟩
  · have hsum := sum_move (fun q => Sys.share (L q) (s.proc q) e)
      (fun q => Sys.share (update L p l' q) (s'.proc q) e) p (fun q hq => hother q hq e)
    have h1 := h.ref e
    have h2 := href e
    simp only [update_self] at hsum
    omega
  · rcases eq_or_ne q p with rfl | hq
    · rw [update_self]
      exact hshare e
    · rw [hother q hq]
      exact h.share q e

theorem entry_setEntry (s : Kernel) (i : Slot) (f : Entry → Entry) (e : Slot) :
    (s.setEntry i f).entry e = if e = i then f (s.entry i) else s.entry e := update_apply ..

theorem Refs.gain (h : Refs s L) (i : Slot) (f : Entry → Entry) (href : (f (s.entry i)).ref = (s.entry i).ref + 1)
    (hroot : (f (s.entry i)).dev = ROOTDEV) : Refs (s.setEntry i f) (update L p ((L p).gain i)) := by
  refine h.move (fun _ _ => rfl) (fun e => ?_) (fun e => ?_) (fun e he => ?_)
  · rw [share_gain, entry_setEntry]
    split_ifs with he
    · subst he
      simp only [Kernel.setEntry]
      omega
    · simp only [Kernel.setEntry]
      omega
  · have := h.share p e
    rw [share_gain]
    simp only [Kernel.setEntry]
    split_ifs <;> omega
  · rw [entry_setEntry] at he ⊢
    split_ifs with hi
    · exact hroot
    · rw [if_neg hi] at he
      exact h.root e he

theorem Refs.drop (h : Refs s L) (i : Slot) (hs : 0 < Sys.share (L p) (s.proc p) i) :
    Refs (s.setEntry i fun v => { v with ref := v.ref - 1 }) (update L p ((L p).drop i)) := by
  refine h.move (fun _ _ => rfl) (fun e => ?_) (fun e => ?_) (fun e he => ?_)
  · rw [share_drop, entry_setEntry]
    split_ifs with he
    · subst he
      simp only [Kernel.setEntry]
      omega
    · simp only [Kernel.setEntry]
      omega
  · have := h.share p e
    rw [share_drop]
    simp only [Kernel.setEntry]
    split_ifs with he
    · subst he
      omega
    · omega
  · rw [entry_setEntry] at he ⊢
    split_ifs with hi
    · subst hi
      rw [if_pos rfl] at he
      exact h.root e (by dsimp only at he; omega)
    · rw [if_neg hi] at he
      exact h.root e he

theorem Locks.refs (h : Locks s L) (hlock : ∀ e, (s'.entry e).lock = (s.entry e).lock) (hl : l'.lock = (L p).lock)
    (hip : l'.ip = (L p).ip) (hcwd : ∀ q, q ≠ p → (s'.proc q).cwd = (s.proc q).cwd)
    (hshare : ∀ e, (L p).lock e ≠ none → Sys.share (L p) (s.proc p) e ≤ Sys.share l' (s'.proc p) e) :
    Locks s' (update L p l') := by
  refine h.frame hlock (fun q e => by rw [update_same Local.lock hl]) (fun q e he => ?_) (update_same Local.ip hip)
  rcases eq_or_ne q p with rfl | hq
  · rw [update_self]
    exact hshare e he
  · rw [update_of_ne hq, share_congr rfl (hcwd q hq)]

theorem lock_setEntry (s : Kernel) (i : Slot) (f : Entry → Entry) (hf : ∀ v, (f v).lock = v.lock) (e : Slot) :
    ((s.setEntry i f).entry e).lock = (s.entry e).lock := by
  rw [entry_setEntry]
  split_ifs with he
  · rw [hf, he]
  · rfl

variable (h : Inv s L) (halive : (s.proc p).state = .alive)

section

include h halive

theorem inv_gain (i : Slot) (f : Entry → Entry)
    (href : (f (s.entry i)).ref = (s.entry i).ref + 1) (hroot : (f (s.entry i)).dev = ROOTDEV)
    (hlock : ∀ v, (f v).lock = v.lock) : Inv (s.setEntry i f) (update L p ((L p).gain i)) := by
  refine h.of_refs_locks rfl rfl rfl rfl halive rfl (h.refs.gain i f href hroot) ?_
  refine h.locks.refs (lock_setEntry s i f hlock) rfl rfl (fun _ _ => rfl) fun e _ => ?_
  rw [share_gain]
  simp only [Kernel.setEntry]
  split_ifs <;> omega

theorem inv_iget {inum : Nat} {i : Slot}
    (hp : Kernel.iget ROOTDEV inum s = (.ok i, s')) : Inv s' (update L p ((L p).gain i)) := by
  unfold Kernel.iget at hp
  split at hp
  · rename_i j hfind
    have hj := List.find?_some hfind
    simp only [decide_eq_true_eq] at hj
    cases hp
    exact inv_gain h halive _ _ rfl hj.2.1 fun _ => rfl
  · split at hp
    · rename_i j hfind
      have hj := List.find?_some hfind
      simp only [decide_eq_true_eq] at hj
      cases hp
      exact inv_gain h halive _ _ (by dsimp only; omega) rfl fun _ => rfl
    · cases hp

theorem inv_idup (hown : 0 ≤ (L p).own) {i : Slot} (hcwd : (s.proc p).cwd = some i) :
    Inv (s.setEntry i fun e => { e with ref := e.ref + 1 }) (update L p ((L p).gain i)) := by
  have hpos : 0 < share (L p) (s.proc p) i := by
    have := hown i
    unfold share cwdRef
    rw [if_pos hcwd]
    simp only [Pi.zero_apply] at this
    omega
  exact inv_gain h halive i _ rfl (h.refs.root i (share_pos h.refs hpos)) fun _ => rfl

theorem inv_decRef (i : Slot) (hlock : (L p).lock i = none) (hown : (L p).Owns i) :
    Inv (s.setEntry i fun e => { e with ref := e.ref - 1 }) (update L p ((L p).drop i)) := by
  refine h.of_refs_locks rfl rfl rfl rfl halive rfl (h.refs.drop i (owns_share h hown)) ?_
  refine h.locks.refs (lock_setEntry s i _ fun _ => rfl) rfl rfl (fun _ _ => rfl) fun e he => ?_
  have hne : e ≠ i := by
    rintro rfl
    exact he hlock
  rw [share_drop, if_neg hne]
  simp only [Kernel.setEntry]
  omega

end

theorem Locks.take (h : Inv s L) (i : Slot) (hfree : (s.entry i).lock = none) (hh : (L p).Holds i) (m : Mode) :
    Locks (s.setEntry i fun e => { e with lock := some p }) (update L p ((L p).mode i (some m))) := by
  refine ⟨fun e q => ?_, fun q e he => ?_⟩
  · have hl := h.locks.lock e q
    rw [entry_setEntry]
    rcases eq_or_ne q p with rfl | hq
    · rw [update_self]
      unfold Local.mode
      dsimp only
      rw [update_apply]
      split_ifs with he
      · simp
      · exact hl
    · rw [update_of_ne hq]
      split_ifs with he
      · subst he
        rw [hfree] at hl
        exact ⟨fun h' => absurd (Option.some.inj h').symm hq, fun h' => absurd (hl.mpr h') (by simp)⟩
      · exact hl
  · rcases eq_or_ne q p with rfl | hq
    · rw [update_self] at he ⊢
      rcases eq_or_ne e i with rfl | hne
      · rcases hh with hown | hf
        · exact .inl (owns_share h hown)
        · exact .inr hf
      · rw [Local.lock_mode_ne hne] at he
        exact h.locks.held q e he
    · rw [update_of_ne hq] at he ⊢
      exact h.locks.held q e he

section

include h halive

theorem inv_acquire {i : Slot} (hh : (L p).Holds i) {u : Unit} (hp : Kernel.acquire p i s = (.ok u, s')) :
    (L p).lock i = none ∧ Inv s' (update L p ((L p).mode i (some .raw))) := by
  unfold Kernel.acquire at hp
  split_ifs at hp with hfree <;> cases hp
  refine ⟨?_, h.of_refs_locks rfl rfl rfl rfl halive rfl ?_ (Locks.take h i hfree hh .raw)⟩
  · by_contra hne
    rw [(h.locks.lock i p).mpr hne] at hfree
    cases hfree
  · refine h.refs.frame (fun e => ?_) (fun e => ?_) (fun _ => rfl) (fun _ => rfl) (update_same Local.own rfl)
    all_goals
      rw [entry_setEntry]
      split_ifs with he
      · rw [he]
      · rfl

theorem inv_release {i : Slot} (hheld : (L p).lock i ≠ none) :
    Inv (s.setEntry i fun e => { e with lock := none }) (update L p ((L p).mode i none)) := by
  refine h.of_refs_locks rfl rfl rfl rfl halive rfl ?_ ⟨fun e q => ?_, fun q e he => ?_⟩
  · refine h.refs.frame (fun e => ?_) (fun e => ?_) (fun _ => rfl) (fun _ => rfl) (update_same Local.own rfl)
    all_goals
      rw [entry_setEntry]
      split_ifs with he
      · rw [he]
      · rfl
  · have hl := h.locks.lock e q
    rw [entry_setEntry]
    rcases eq_or_ne e i with rfl | hne
    · rw [if_pos rfl]
      rcases eq_or_ne q p with rfl | hq
      · simp
      · rw [update_of_ne hq]
        refine ⟨fun h' => (by cases h'), fun h' => ?_⟩
        have hp := (h.locks.lock e p).mpr hheld
        rw [hl.mpr h'] at hp
        exact absurd (Option.some.inj hp) hq
    · rw [if_neg hne, update_same (fun l => l.lock e) (Local.lock_mode_ne hne)]
      exact hl
  · rcases eq_or_ne q p with rfl | hq
    · rw [update_self] at he ⊢
      have hne : e ≠ i := by
        rintro rfl
        exact he Local.lock_mode_self
      rw [Local.lock_mode_ne hne] at he
      exact h.locks.held q e he
    · rw [update_of_ne hq] at he ⊢
      exact h.locks.held q e he

theorem inv_ops (b : Bool) (d : Blocks.Disk) (n : Int)
    (hn : n = s.outstanding + (if b then 1 else 0) - (if (L p).inOp then 1 else 0)) :
    Inv { s with disk := d, outstanding := n, inOp := update s.inOp p b }
      (update L p { L p with inOp := b }) where
  refs := h.refs.frame (fun _ => rfl) (fun _ => rfl) (fun _ => rfl) (fun _ => rfl) (update_same Local.own rfl)
  locks := h.locks.refs (fun _ => rfl) rfl rfl (fun _ _ => rfl) fun _ _ => le_rfl
  ops := by
    refine ⟨fun q => ?_, ?_⟩
    · show update s.inOp p b q = _
      rcases eq_or_ne q p with rfl | hq
      · rw [update_self, update_self]
      · rw [update_of_ne hq, update_of_ne hq]
        exact h.ops.op q
    · have hsum := sum_update (fun b : Bool => if b then (1 : Int) else 0) s.inOp p b
      have hout := h.ops.outstanding
      rw [h.ops.op p] at hsum
      show n = ∑ q, if update s.inOp p b q then 1 else 0
      omega
  files := h.files.frame (fun _ => rfl) (fun _ => rfl) (fun _ => rfl) (update_same Local.fown rfl)
    (update_same Local.desc rfl) (update_same Local.ip rfl) (update_same Local.fresh rfl)
  procs := h.procs.frame (fun _ => rfl) (fun _ => rfl) (update_same Local.cwd rfl) (update_same Local.child rfl)
    (idle_update halive)

end

end Xv6.Sys
