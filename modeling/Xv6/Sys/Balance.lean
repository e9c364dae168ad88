import Xv6.Lib.System
import Xv6.Sys.Obeys
import Xv6.Sys.Tables

/-!
# Reference and transaction balance

Every operation that obeys the rules keeps the invariant, so every call does. After a call the counts of
`icache` are those of open files and current directories, no inode is locked, and `outstanding` is as before.
-/

open Lib Function

namespace Xv6.Sys

open Blocks (Dev)

variable {dev : Dev} {s s' : Kernel} {L : Fin NPROC → Local} {p : Fin NPROC}

theorem inv_same (h : Inv s L) (halive : (s.proc p).state = .alive) (hf : Frame s s') : Inv s' (update L p (L p)) :=
  h.frame hf halive rfl fun _ => Iff.rfl

theorem inv_know (h : Inv s L) (halive : (s.proc p).state = .alive) (hf : Frame s s') {i : Slot}
    (hi : (L p).lock i ≠ none) (m : Mode) :
    Inv s' (update L p ((L p).mode i (some m))) := by
  refine h.frame hf halive rfl fun e => ?_
  rcases eq_or_ne e i with rfl | he
  · rw [Local.lock_mode_self]
    exact iff_of_false (by simp) hi
  · rw [Local.lock_mode_ne he]

theorem frame_setEntry (i : Slot) (f : Entry → Entry) (href : ∀ v, (f v).ref = v.ref) (hdev : ∀ v, (f v).dev = v.dev)
    (hlock : ∀ v, (f v).lock = v.lock) : Frame s (s.setEntry i f) := Frame.setEntry s.disk i f href hdev hlock

theorem frame_load {i : Slot} {u : Unit} (hp : Kernel.load dev i s = (.ok u, s')) : Frame s s' := by
  unfold Kernel.load at hp
  split_ifs at hp
  · cases hp
    exact .rfl
  · cases hp
  · cases hp
    exact frame_setEntry i _ (fun _ => rfl) (fun _ => rfl) fun _ => rfl

theorem frame_addOff (f : Fin NFILE) (n : Nat) :
    Frame s (s.setFile f { s.file f with off := ((s.file f).off + n) % 2 ^ 32 }) := by
  refine ⟨fun _ => rfl, fun _ => rfl, fun _ => rfl, fun g => ?_, ip_setFile f _ rfl, rfl, rfl, rfl⟩
  rw [file_setFile]
  split_ifs with hg
  · rw [hg]
  · rfl

/-- Operations on copies of inodes, the disk and offsets. -/
def Op.data : Op → Bool
  | .modify _ _ | .clearType _ | .invalidate _ | .load _ | .iupdate _ | .itrunc _ => true
  | .readi _ _ _ | .writei _ _ _ | .scan _ _ | .insert _ _ _ | .erase _ _ | .isdirempty _ => true
  | .readRef _ | .fields _ | .ninodes | .ialloc _ _ | .addOff _ _ | .myproc | .initproc => true
  | _ => false

theorem frame_act (a : Op) (ha : a.data = true) {r : Res a} (hp : a.act dev p s = (.ok r, s')) : Frame s s' := by
  cases a <;> first | cases ha; done | skip
  case itrunc | readi | writei | scan | insert | erase | isdirempty =>
    rw [Op.act] at hp
    exact frame_onInode hp
  case iupdate | ialloc =>
    rw [Op.act] at hp
    exact frame_onDisk hp
  case load =>
    rw [Op.act] at hp
    exact frame_load hp
  case readRef | fields | ninodes | myproc | initproc =>
    cases hp
    exact .rfl
  case addOff f n =>
    cases hp
    exact frame_addOff f n
  case modify | clearType | invalidate =>
    cases hp
    apply frame_setEntry
    all_goals
      intro
      rfl

theorem held {l : Local} {i : Slot} {m : Mode} (h : l.lock i = some m) : l.lock i ≠ none := by
  rw [h]
  simp

theorem locked {l : Local} {i : Slot} (h : l.lock i = some .clean ∨ l.lock i = some .raw) : l.lock i ≠ none := by
  rcases h with h | h
  · exact held h
  · exact held h

theorem inv_begin_op (h : Inv s L) (halive : (s.proc p).state = .alive) (hin : (L p).inOp = false) {u : Unit}
    (hp : Kernel.begin_op p s = (.ok u, s')) : Inv s' (update L p { L p with inOp := true }) := by
  unfold Kernel.begin_op at hp
  split_ifs at hp
  · cases hp
  · cases hp
  · cases hp
    exact inv_ops h halive true s.disk _ (by rw [hin]; simp)

theorem inv_act (h : Inv s L) (halive : (s.proc p).state = .alive) (a : Op) (hpre : a.pre (L p)) {r : Res a}
    (hp : a.act dev p s = (.ok r, s')) : Op.ok (L p) a r ∧ ∀ l', Op.next (L p) a r l' → Inv s' (update L p l') := by
  cases a with
  | begin_op =>
    refine ⟨trivial, ?_⟩
    rintro _ rfl
    exact inv_begin_op h halive hpre hp
  | end_op =>
    refine ⟨trivial, ?_⟩
    rintro _ rfl
    cases hp
    have hin : (L p).inOp = true := hpre
    exact inv_ops h halive false _ _ (by rw [hin]; simp)
  | iget dev inum =>
    obtain rfl : dev = ROOTDEV := hpre
    refine ⟨trivial, ?_⟩
    rintro _ rfl
    exact inv_iget h halive hp
  | idup =>
    refine ⟨trivial, ?_⟩
    rintro _ rfl
    dsimp only [Op.act] at hp
    split at hp <;> cases hp
    exact inv_idup h halive hpre ‹_›
  | decRef i =>
    refine ⟨trivial, ?_⟩
    rintro _ rfl
    cases hp
    exact inv_decRef h halive i hpre.1 hpre.2
  | ilock i =>
    dsimp only [Op.act] at hp
    split_ifs at hp
    · cases hp
    · obtain ⟨hfree, hinv⟩ := inv_acquire h halive hpre hp
      refine ⟨hfree, ?_⟩
      rintro _ rfl
      exact hinv
  | acquiresleep i =>
    obtain ⟨hfree, hinv⟩ := inv_acquire h halive hpre hp
    refine ⟨hfree, ?_⟩
    rintro _ rfl
    exact hinv
  | iunlock i =>
    refine ⟨trivial, ?_⟩
    rintro _ rfl
    dsimp only [Op.act] at hp
    split_ifs at hp
    · cases hp
    · cases hp
      exact inv_release h halive (locked hpre)
  | releasesleep i =>
    refine ⟨trivial, ?_⟩
    rintro _ rfl
    cases hp
    exact inv_release h halive (locked hpre)
  | id i =>
    cases hp
    refine ⟨h.refs.root i (holds_pos h hpre), ?_⟩
    rintro _ rfl
    exact inv_same h halive .rfl
  | fields i =>
    refine ⟨trivial, ?_⟩
    cases hp
    rintro _ (rfl | ⟨-, -, rfl⟩)
    · exact inv_same h halive .rfl
    · exact inv_know h halive .rfl hpre .clean
  | modify i f =>
    refine ⟨trivial, ?_⟩
    rintro _ rfl
    exact inv_know h halive (frame_act _ rfl hp) (held hpre.1) .dirty
  | clearType i =>
    refine ⟨trivial, ?_⟩
    rintro _ rfl
    exact inv_know h halive (frame_act _ rfl hp) (held hpre) .dead
  | invalidate i =>
    refine ⟨trivial, ?_⟩
    rintro _ rfl
    exact inv_know h halive (frame_act _ rfl hp) (held hpre) .raw
  | load i =>
    refine ⟨trivial, ?_⟩
    rintro _ rfl
    exact inv_know h halive (frame_act _ rfl hp) (held hpre) .clean
  | iupdate i =>
    refine ⟨trivial, ?_⟩
    rintro _ rfl
    have hi : (L p).lock i ≠ none := by
      rcases hpre with hi | hi
      · exact held hi
      · exact held hi
    split_ifs
    · exact inv_know h halive (frame_act _ rfl hp) hi .gone
    · exact inv_know h halive (frame_act _ rfl hp) hi .clean
  | itrunc i =>
    refine ⟨trivial, ?_⟩
    rintro _ rfl
    exact inv_know h halive (frame_act _ rfl hp) (held hpre) .trunc
  | readi | writei | scan | insert | erase | isdirempty | readRef | ninodes | myproc | initproc | ialloc | addOff =>
    refine ⟨trivial, ?_⟩
    rintro _ rfl
    exact inv_same h halive (frame_act _ rfl hp)
  | filealloc =>
    refine ⟨trivial, ?_⟩
    rintro _ rfl
    dsimp only [Op.act] at hp
    split at hp <;> cases hp
    · rename_i f hfind
      have hf := List.find?_some hfind
      exact inv_filealloc h halive (by simpa using hf)
    · exact inv_nofile h halive
  | fdalloc f =>
    refine ⟨trivial, ?_⟩
    rintro _ rfl
    dsimp only [Op.act] at hp
    split at hp <;> cases hp
    · rename_i fd hfind
      have hfd := List.find?_some hfind
      exact inv_fdalloc h halive f (by simpa using hfd)
    · simp only [Option.elim_none, sub_zero]
      exact inv_same h halive .rfl
  | ofile fd =>
    refine ⟨trivial, ?_⟩
    rintro _ rfl
    cases hp
    exact inv_ofile h halive fd
  | clearFd fd =>
    refine ⟨trivial, ?_⟩
    rintro _ ⟨f, hdesc, rfl⟩
    cases hp
    exact inv_clearFd h halive hdesc
  | filedup f =>
    refine ⟨trivial, ?_⟩
    rintro _ rfl
    dsimp only [Op.act] at hp
    split_ifs at hp
    · cases hp
    · cases hp
      exact inv_filedup h halive f
  | fileclose f =>
    obtain ⟨hnone, hinv⟩ := inv_fileclose h halive hpre.1 hpre.2 hp
    refine ⟨hnone, ?_⟩
    rintro _ rfl
    exact hinv
  | file f =>
    refine ⟨trivial, ?_⟩
    cases hp
    obtain ⟨hown, fd, hdesc⟩ := hpre
    rintro _ (rfl | ⟨hlock, rfl⟩)
    · exact inv_same h halive .rfl
    · exact inv_file h halive hown hdesc hlock
  | setFile f i readable writable =>
    refine ⟨trivial, ?_⟩
    rintro _ rfl
    cases hp
    exact inv_setFile h halive hpre.1 hpre.2.1 hpre.2.2 _ rfl rfl
  | cwd =>
    refine ⟨trivial, ?_⟩
    rintro _ rfl
    dsimp only [Op.act] at hp
    split at hp <;> cases hp
    exact inv_cwd h halive _ ‹_›
  | setCwd v =>
    refine ⟨trivial, ?_⟩
    rintro _ ⟨c, hc, rfl⟩
    cases hp
    exact inv_setCwd h halive hc v
  | allocproc kalloc =>
    refine ⟨trivial, ?_⟩
    rintro _ rfl
    exact inv_allocproc h halive hp
  | unalloc np =>
    refine ⟨trivial, ?_⟩
    rintro _ rfl
    cases hp
    exact inv_unalloc h halive hpre
  | childFd np fd f =>
    refine ⟨trivial, ?_⟩
    rintro _ rfl
    cases hp
    exact inv_childFd h halive hpre.1 hpre.2.1 hpre.2.2.1 hpre.2.2.2 rfl rfl
  | start np i =>
    refine ⟨trivial, ?_⟩
    rintro _ rfl
    cases hp
    exact inv_start h halive hpre.1 hpre.2.1 hpre.2.2 rfl rfl
  | exit status =>
    refine ⟨trivial, ?_⟩
    rintro _ rfl
    exact inv_exit h halive hpre.1 hpre.2 hp
  | wait =>
    refine ⟨trivial, ?_⟩
    rintro _ rfl
    exact inv_wait h halive hp
  | panic msg => cases hp

theorem act_nested (a : Op) (hp : a.act dev p s = (.error .nested, s')) : a = .begin_op ∧ s.inOp p = true := by
  cases a
  case begin_op =>
    simp only [Op.act, Kernel.begin_op] at hp
    split_ifs at hp with hin hroom
    · exact ⟨rfl, hin⟩
    · cases hp
    · cases hp
  case itrunc | readi | writei | scan | insert | erase | isdirempty =>
    rw [Op.act, Kernel.onInode] at hp
    split at hp <;> cases hp
  case iupdate | ialloc =>
    simp only [Op.act, Kernel.onDisk] at hp
    split at hp <;> cases hp
  case iget =>
    rw [Op.act, Kernel.iget] at hp
    split at hp
    · cases hp
    · split at hp <;> cases hp
  case idup | cwd | filealloc | fdalloc =>
    simp only [Op.act] at hp
    split at hp <;> cases hp
  case ilock =>
    simp only [Op.act, Kernel.acquire] at hp
    split_ifs at hp <;> cases hp
  case acquiresleep =>
    rw [Op.act, Kernel.acquire] at hp
    split_ifs at hp <;> cases hp
  case iunlock | filedup =>
    simp only [Op.act] at hp
    split_ifs at hp <;> cases hp
  case load =>
    rw [Op.act, Kernel.load] at hp
    split_ifs at hp <;> cases hp
  case fileclose =>
    rw [Op.act, Kernel.fileclose] at hp
    split_ifs at hp <;> cases hp
  case allocproc =>
    simp only [Op.act, Kernel.allocproc] at hp
    split at hp
    · cases hp
    · split_ifs at hp <;> cases hp
  case wait =>
    rw [Op.act, Kernel.wait] at hp
    split at hp
    · cases hp
    · split_ifs at hp <;> cases hp
  all_goals cases hp

theorem run_inv {α : Type} (x : P α) {Q : α → Local → Prop} (hx : Obeys x Q (L p)) (h : Inv s L) :
    Cmd.wp (Prog.run (Op.perform dev p) x) (fun r s' => ∃ l', Q r l' ∧ Inv s' (update L p l'))
      (fun e _ => e ≠ .nested) s := by
  induction x generalizing s L with
  | ret r =>
    refine ⟨L p, hx, ?_⟩
    rwa [update_eq_self]
  | act a k ih =>
    obtain ⟨hpre, hnext⟩ := hx
    rw [Prog.run, Cmd.wp_bind]
    unfold Cmd.wp Op.perform
    split_ifs with halive
    · rcases hact : a.act dev p s with ⟨e | r, s'⟩
      · rintro rfl
        obtain ⟨rfl, hin⟩ := act_nested a hact
        rw [h.ops.op p, show (L p).inOp = false from hpre] at hin
        cases hin
      · obtain ⟨hok, hinv⟩ := inv_act h halive a hpre hact
        obtain ⟨l', hl', hk⟩ := hnext r hok
        have hself : update L p l' p = l' := update_self ..
        have hrun := ih r (by rwa [hself]) (hinv l' hl')
        refine Cmd.wp_mono _ _ _ _ _ _ hrun ?_ fun _ _ he => he
        rintro v t ⟨l'', hq, ht⟩
        rw [update_idem] at ht
        exact ⟨l'', hq, ht⟩
    · exact fun he => by cases he

theorem call_inv (dev : Dev) (p : Fin NPROC) (c : Call) (h : Inv s fun _ => .idle) :
    Cmd.wp (c.run dev p) (fun _ s' => Inv s' fun _ => .idle) (fun e _ => e ≠ .nested) s := by
  refine Cmd.wp_mono _ _ _ _ _ _ (run_inv c.prog (call_obeys c) h) ?_ fun _ _ he => he
  rintro r s' ⟨l', hdone, hinv⟩
  have hself : update (fun _ => Local.idle) p l' p = l' := update_self ..
  have hidle := hinv.forget (by rwa [hself])
  rwa [update_idem, update_eq_self] at hidle

def rootSlot : Slot := ⟨0, by decide⟩

def initProc : Fin NPROC := ⟨0, by decide⟩

def boot (disk : Blocks.Disk) : Kernel where
  disk := disk
  outstanding := 0
  inOp _ := false
  entry i := if i = rootSlot then ⟨ROOTDEV, ROOTINO, 1, false, none, .zero⟩ else ⟨0, 0, 0, false, none, .zero⟩
  file _ := ⟨0, none, 0, false, false⟩
  proc q := if q = initProc then ⟨.alive, 1, none, some rootSlot, fun _ => none, 0⟩
  else ⟨.unused, 0, none, none, fun _ => none, 0⟩
  nextpid := 2
  initproc := initProc

def system (dev : Dev) : System Kernel (Fin NPROC × Call) where
  init s := ∃ disk, s = boot disk
  step s a :=
    match a.2.run dev a.1 s with
    | (.ok _, s') => some s'
    | (.error _, _) => none

theorem boot_inv (disk : Blocks.Disk) : Inv (boot disk) fun _ => .idle := by
  have hshare : ∀ q e, share .idle ((boot disk).proc q) e = if q = initProc ∧ e = rootSlot then 1 else 0 := by
    intro q e
    unfold share cwdRef boot Local.idle
    by_cases hq : q = initProc
    · simp [hq, eq_comm]
    · simp [hq]
  have hfd : ∀ q f, fshare .idle ((boot disk).proc q) f = 0 := by
    intro q f
    unfold fshare fdRef boot Local.idle
    by_cases hq : q = initProc <;> simp [hq]
  constructor
  · refine ⟨fun e => ?_, fun q e => ?_, fun e he => ?_⟩
    · have hip : ∀ f, ipRef ((boot disk).file f) e = 0 := fun _ => rfl
      simp only [hshare, hip, Finset.sum_const_zero, add_zero]
      by_cases he : e = rootSlot <;> simp [boot, he]
    · rw [hshare]
      split_ifs <;> omega
    · by_cases h0 : e = rootSlot <;> simp_all [boot]
  · refine ⟨fun e q => ?_, fun q e he => (he rfl).elim⟩
    by_cases h0 : e = rootSlot <;> simp [boot, h0, Local.idle]
  · exact ⟨fun _ => rfl, by simp [boot]⟩
  · refine ⟨fun f => ?_, fun q f => ?_, fun _ _ => rfl, ?_, ?_, ?_, ?_⟩
    · simp only [hfd, Finset.sum_const_zero]
      exact le_rfl
    · rw [hfd]
    all_goals
      intros
      contradiction
  · refine ⟨?_, ?_, ?_, fun q hq => ?_, fun _ _ => rfl⟩
    · intros
      contradiction
    · intros
      contradiction
    · intros
      contradiction
    · by_cases h0 : q = initProc <;> simp_all [boot]

theorem reach_idle (h : (system dev).Reach s) : Inv s fun _ => .idle := by
  refine (system dev).reach_inv (fun s => Inv s fun _ => .idle) ?_ ?_ s h
  · rintro _ ⟨disk, rfl⟩
    exact boot_inv disk
  · intro s a s' hs hstep
    have hcall := call_inv dev a.1 a.2 hs
    unfold Cmd.wp at hcall
    simp only [system] at hstep
    split at hstep
    · rename_i heq
      cases hstep
      rwa [heq] at hcall
    · cases hstep

def refs (s : Kernel) (e : Slot) : Nat :=
  (Finset.univ.filter fun f => 0 < (s.file f).ref ∧ (s.file f).ip = some e).card +
    (Finset.univ.filter fun q => (s.proc q).cwd = some e).card

structure Balanced (s : Kernel) : Prop where
  ref : ∀ e, (s.entry e).ref = refs s e
  lock : ∀ e, (s.entry e).lock = none

theorem balanced_of_idle (h : Inv s fun _ => .idle) : Balanced s ∧ s.outstanding = 0 := by
  refine ⟨⟨fun e => ?_, fun e => ?_⟩, ?_⟩
  · have hopen : ∀ f, (0 < (s.file f).ref ∧ (s.file f).ip = some e) ↔ (s.file f).ip = some e := by
      refine fun f => and_iff_right_of_imp fun hf => Nat.pos_of_ne_zero fun h0 => ?_
      rw [h.files.closed f h0] at hf
      cases hf
    rw [h.refs.ref e, refs, Finset.filter_congr fun f _ => hopen f]
    unfold share cwdRef ipRef Local.idle
    simp only [Pi.zero_apply, zero_add, Finset.sum_boole]
    push_cast
    ring
  · rcases hlock : (s.entry e).lock with _ | q
    · rfl
    · exact ((h.locks.lock e q).mp hlock rfl).elim
  · rw [h.ops.outstanding]
    refine Finset.sum_eq_zero fun q _ => ?_
    rw [h.ops.op q]
    rfl

/-- **Reference and transaction balance.** -/
theorem calls_balanced (h : (system dev).Reach s) :
    Balanced s ∧ ∀ p (c : Call), (∀ s', c.run dev p s ≠ (.error .nested, s')) ∧
      ∀ r s', c.run dev p s = (.ok r, s') → Balanced s' ∧ s'.outstanding = s.outstanding := by
  have hidle := reach_idle h
  refine ⟨(balanced_of_idle hidle).1, fun p c => ⟨fun s' hrun => ?_, fun r s' hrun => ?_⟩⟩
  all_goals
    have hcall := call_inv dev p c hidle
    unfold Cmd.wp at hcall
    rw [hrun] at hcall
  · exact hcall rfl
  · obtain ⟨hbal, hout⟩ := balanced_of_idle hcall
    exact ⟨hbal, hout.trans (balanced_of_idle hidle).2.symm⟩

theorem calls_balanced_fork : ∃ dev s, (system dev).Reach s ∧ (s.entry rootSlot).ref = 2 ∧ Balanced s := by
  let dev : Dev := ⟨⟨1000, 941, 200, 32, 58⟩, fun _ => none, fun _ => none⟩
  have hreach : (system dev).Reach ((Call.fork true true).run dev initProc (boot ⟨fun _ _ => 0, []⟩)).2 :=
    .step _ _ (initProc, .fork true true) (.init _ ⟨_, rfl⟩) rfl
  exact ⟨dev, _, hreach, rfl, (calls_balanced hreach).1⟩

end Xv6.Sys
