import Mathlib.Data.Finset.Basic
import Mathlib.Data.List.Count
import Xv6.Fs.Graph

/-!
# System calls one after the other

What each function does when no other process runs. `At` describes a state inside a call of
process `p`: `g` is on disk, `h` counts the references of current directories and open files,
`L` are the references and `K` the locks of the call.
-/

open Lib

namespace Xv6

variable {nproc : Nat}

def noType : Stop := .panic "ilock: no type"

/-- `x` run by `p` returns with `Q`, or stops for a reason in `F`. -/
def Does {α : Type} (p : Fin nproc) (F : Stop → Prop) (x : P α) (Q : α → Fs nproc → Prop) (s : Fs nproc) : Prop :=
  Cmd.wp (Prog.run (Op.perform p) x) Q (fun e _ => F e) s

section

variable {α β : Type} (p : Fin nproc) (F : Stop → Prop) (Q : β → Fs nproc → Prop) (s : Fs nproc)

@[simp]
theorem does_pure (x : β) : Does p F (pure x) Q s ↔ Q x s := Iff.rfl

@[simp]
theorem does_bind (x : P α) (f : α → P β) : Does p F (x >>= f) Q s ↔ Does p F x (fun a => Does p F (f a) Q) s :=
  Prog.wp_run_bind ..

end

theorem does_op {p : Fin nproc} {F : Stop → Prop} {s : Fs nproc} {a : Op} {Q : Res a → Fs nproc → Prop} :
    Does p F (op a) Q s ↔ Cmd.wp (Op.perform p a) Q (fun e _ => F e) s :=
  Prog.wp_run_lift ..

/-! One line for each operation. -/

section

variable (p : Fin nproc) (F : Stop → Prop) (s : Fs nproc) (i : Nat) (Q : Unit → Fs nproc → Prop)

theorem does_cwd (Q : Nat → Fs nproc → Prop) : Does p F (op .cwd) Q s ↔ Q (s.cwd p) s := Iff.rfl

theorem does_setCwd : Does p F (op (.setCwd i)) Q s ↔ Q () { s with cwd := Function.update s.cwd p i } := Iff.rfl

theorem does_iget : Does p F (op (.iget i)) Q s ↔
    if 0 < (s.inode i).ref then Q () (s.setInode i fun i => { i with ref := i.ref + 1 })
    else if NINODE ≤ s.active then F (.panic "iget: no inodes")
    else Q () (s.setInode i fun i => { i with ref := 1, valid := false }) := by
  refine does_op.trans ?_
  unfold Op.perform Cmd.wp
  dsimp only
  split_ifs <;> rfl

theorem does_idup : Does p F (op (.idup i)) Q s ↔ Q () (s.setInode i fun i => { i with ref := i.ref + 1 }) := Iff.rfl

theorem does_ilock : Does p F (op (.ilock i)) Q s ↔
    if (s.inode i).ref < 1 then F (.panic "ilock")
    else if (s.inode i).owner = none then Q () (s.setInode i fun i => { i with owner := some p }) else F .hang := by
  refine does_op.trans ?_
  unfold Op.perform Op.acquiresleep Cmd.wp
  dsimp only
  split_ifs <;> rfl

theorem does_load : Does p F (op (.load i)) Q s ↔
    if (s.inode i).valid then Q () s
    else if (s.dinode i).type = .free then F noType
    else Q () (s.setInode i fun i => { i with valid := true }) := by
  refine does_op.trans ?_
  unfold Op.perform Cmd.wp
  dsimp only
  split_ifs <;> rfl

theorem does_iunlock : Does p F (op (.iunlock i)) Q s ↔
    if (s.inode i).owner ≠ some p ∨ (s.inode i).ref < 1 then F (.panic "iunlock")
    else Q () (s.setInode i fun i => { i with owner := none }) := by
  refine does_op.trans ?_
  unfold Op.perform Cmd.wp
  dsimp only
  split_ifs <;> rfl

theorem does_iput : Does p F (op (.iput i)) Q s ↔
    if (s.inode i).owner = none then Q () (s.setInode i fun i => { i with owner := some p }) else F .hang := by
  refine does_op.trans ?_
  unfold Op.perform Op.acquiresleep Cmd.wp
  dsimp only
  split_ifs <;> rfl

theorem does_unlinked (Q : Bool → Fs nproc → Prop) :
    Does p F (op (.unlinked i)) Q s ↔ Q ((s.inode i).valid && (s.dinode i).nlink = 0) s := Iff.rfl

theorem does_readRef (Q : Nat → Fs nproc → Prop) : Does p F (op (.readRef i)) Q s ↔ Q (s.inode i).ref s := Iff.rfl

theorem does_free : Does p F (op (.free i)) Q s ↔
    Q () ((s.setDinode i fun d => { d with type := .free, ents := [] }).setInode i
      fun i => { i with valid := false }) :=
  Iff.rfl

theorem does_releasesleep :
    Does p F (op (.releasesleep i)) Q s ↔ Q () (s.setInode i fun i => { i with owner := none }) := Iff.rfl

theorem does_decRef : Does p F (op (.decRef i)) Q s ↔ Q () (s.setInode i fun i => { i with ref := i.ref - 1 }) :=
  Iff.rfl

theorem does_type (Q : FileType → Fs nproc → Prop) : Does p F (op (.type i)) Q s ↔ Q (s.dinode i).type s := Iff.rfl

theorem does_nlink (Q : Int → Fs nproc → Prop) : Does p F (op (.nlink i)) Q s ↔ Q (s.dinode i).nlink s := Iff.rfl

theorem does_addNlink (n : Int) :
    Does p F (op (.addNlink i n)) Q s ↔ Q () (s.setDinode i fun d => { d with nlink := d.nlink + n }) := Iff.rfl

theorem does_init (major minor : Int) : Does p F (op (.init i major minor)) Q s ↔
    Q () (s.setDinode i fun d => { d with major := major, minor := minor, nlink := 1 }) := Iff.rfl

theorem does_scan (name : Name) (Q : Option (Nat × Nat) → Fs nproc → Prop) : Does p F (op (.scan i name)) Q s ↔
    if (s.dinode i).type ≠ .dir then F (.panic "dirlookup not DIR") else Q (dirScan name (s.dinode i).ents 0) s := by
  refine does_op.trans ?_
  unfold Op.perform Cmd.wp
  dsimp only
  split_ifs <;> rfl

theorem does_insert (name : Name) (inum : Nat) : Does p F (op (.insert i name inum)) Q s ↔
    if MAXENTS < (dirInsert ⟨inum, name⟩ (s.dinode i).ents).length then F (.panic "dirlink")
    else Q () (s.setDinode i fun d => { d with ents := dirInsert ⟨inum, name⟩ d.ents }) := by
  refine does_op.trans ?_
  unfold Op.perform Cmd.wp
  dsimp only
  split_ifs <;> rfl

theorem does_erase (off : Nat) :
    Does p F (op (.erase i off)) Q s ↔ Q () (s.setDinode i fun d => { d with ents := d.ents.set off ⟨0, []⟩ }) :=
    Iff.rfl

theorem does_isdirempty (Q : Bool → Fs nproc → Prop) :
    Does p F (op (.isdirempty i)) Q s ↔ Q (dirEmpty (s.dinode i).ents) s := Iff.rfl

theorem does_ninodes (Q : Nat → Fs nproc → Prop) : Does p F (op .ninodes) Q s ↔ Q s.ninodes s := Iff.rfl

theorem does_ialloc (t : FileType) (Q : Bool → Fs nproc → Prop) : Does p F (op (.ialloc i t)) Q s ↔
    if (s.dinode i).type = .free then
      Q true (s.setDinode i fun _ => { type := t, major := 0, minor := 0, nlink := 0, ents := [] })
    else Q false s := by
  refine does_op.trans ?_
  unfold Op.perform Cmd.wp
  dsimp only
  split_ifs <;> rfl

theorem does_filealloc (Q : Option (Fin NFILE) → Fs nproc → Prop) : Does p F (op .filealloc) Q s ↔
    match (List.finRange NFILE).find? fun f => (s.file f).ref = 0 with
    | some f => Q (some f) (s.setFile f ⟨1, (s.file f).ip⟩)
    | none => Q none s := by
  refine does_op.trans ?_
  unfold Op.perform Cmd.wp
  dsimp only
  rcases (List.finRange NFILE).find? fun f => (s.file f).ref = 0 with _ | f <;> rfl

theorem does_fdalloc (f : Fin NFILE) (Q : Option Nat → Fs nproc → Prop) : Does p F (op (.fdalloc f)) Q s ↔
    match (List.range NOFILE).find? fun fd => s.ofile p fd = none with
    | some fd => Q (some fd) (s.setOfile p fd (some f))
    | none => Q none s := by
  refine does_op.trans ?_
  unfold Op.perform Cmd.wp
  dsimp only
  rcases (List.range NOFILE).find? fun fd => s.ofile p fd = none with _ | f <;> rfl

theorem does_setIp (f : Fin NFILE) :
    Does p F (op (.setIp f i)) Q s ↔ Q () (s.setFile f ⟨(s.file f).ref, some i⟩) := Iff.rfl

theorem does_argfd (fd : Nat) (Q : Option (Fin NFILE) → Fs nproc → Prop) :
    Does p F (op (.argfd fd)) Q s ↔ Q (if fd < NOFILE then s.ofile p fd else none) s := Iff.rfl

theorem does_clearFd (fd : Nat) : Does p F (op (.clearFd fd)) Q s ↔ Q () (s.setOfile p fd none) := Iff.rfl

theorem does_fileclose (f : Fin NFILE) (Q : Option Nat → Fs nproc → Prop) : Does p F (op (.fileclose f)) Q s ↔
    if (s.file f).ref < 1 then F (.panic "fileclose")
    else if 1 < (s.file f).ref then Q none (s.setFile f ⟨(s.file f).ref - 1, (s.file f).ip⟩)
    else Q (s.file f).ip (s.setFile f ⟨0, none⟩) := by
  refine does_op.trans ?_
  unfold Op.perform Cmd.wp
  dsimp only
  split_ifs <;> rfl

theorem does_panic {α : Type} (msg : String) (Q : α → Fs nproc → Prop) : Does p F (panic msg) Q s ↔ F (.panic msg) := by
  unfold panic
  rw [does_bind]
  rfl

theorem does_expect (ok : Bool) (msg : String) :
    Does p F (expect ok msg) Q s ↔ if ok then Q () s else F (.panic msg) := by
  unfold expect
  split_ifs
  · rfl
  · exact does_panic p F s msg Q

end

theorem Does.mono {α : Type} {p : Fin nproc} {F : Stop → Prop} {x : P α} {Q Q' : α → Fs nproc → Prop} {s : Fs nproc}
    (h : Does p F x Q s) (hq : ∀ a s, Q a s → Q' a s) : Does p F x Q' s :=
  Cmd.wp_mono _ _ _ _ _ _ h hq fun _ _ h => h

def Fs.tables (s : Fs nproc) : Nat × (Fin nproc → Nat) × (Fin NFILE → File) × (Fin nproc → Nat → Option (Fin NFILE)) :=
  (s.ninodes, s.cwd, s.file, s.ofile)

structure At (b : Fs nproc) (p : Fin nproc) (g : Graph) (h : Nat → Nat) (L : List Nat) (K : Finset Nat)
    (s : Fs nproc) : Prop where
  dinode : s.dinode = g
  ref : ∀ i, (s.inode i).ref = h i + L.count i
  owner : ∀ i, (s.inode i).owner = if i ∈ K then some p else none
  locked : ∀ i ∈ K, (s.inode i).valid = true ∧ 0 < h i + L.count i
  valid : ∀ i, (s.inode i).valid = true → (g i).type ≠ .free
  unlinked : ∀ i, (g i).type ≠ .free → (g i).nlink = 0 → (s.inode i).valid = true ∧ 0 < h i + L.count i
  tables : s.tables = b.tables

namespace At

variable {b : Fs nproc} {p : Fin nproc} {g : Graph} {h : Nat → Nat} {L L' : List Nat} {K K' : Finset Nat} {s : Fs nproc}

variable (hs : At b p g h L K s)

section

include hs

theorem perm (hp : L.Perm L') : At b p g h L' K s := by
  have hc := fun i => hp.count_eq i
  refine ⟨hs.dinode, fun i => ?_, hs.owner, fun i hi => ?_, hs.valid, fun i h1 h2 => ?_, hs.tables⟩
  · rw [hs.ref, hc]
  · rw [← hc]; exact hs.locked i hi
  · rw [← hc]; exact hs.unlinked i h1 h2

theorem ninodes : s.ninodes = b.ninodes := congrArg (·.1) hs.tables

theorem cwd : s.cwd = b.cwd := congrArg (·.2.1) hs.tables

end

theorem hold_iff (c : Nat) : At b p g (hold h c) L K s ↔ At b p g h (c :: L) K s := by
  have hc : ∀ i, hold h c i + L.count i = h i + (c :: L).count i := by
    intro i
    unfold hold
    rw [List.count_cons]
    by_cases hi : c = i
    · subst hi; simp; omega
    · simp [hi, Ne.symm hi]
  constructor
  · intro hs
    refine ⟨hs.dinode, fun i => ?_, hs.owner, fun i hi => ?_, hs.valid, fun i h1 h2 => ?_, hs.tables⟩
    · rw [hs.ref, hc]
    · rw [← hc]; exact hs.locked i hi
    · rw [← hc]; exact hs.unlinked i h1 h2
  · intro hs
    refine ⟨hs.dinode, fun i => ?_, hs.owner, fun i hi => ?_, hs.valid, fun i h1 h2 => ?_, hs.tables⟩
    · rw [hs.ref, hc]
    · rw [hc]; exact hs.locked i hi
    · rw [hc]; exact hs.unlinked i h1 h2

section

include hs

theorem change {g' : Graph} {s' : Fs nproc} (i : Nat) (hd : s'.dinode = g')
    (ht : s'.tables = s.tables) (hg : ∀ j, j ≠ i → g' j = g j) (hj : ∀ j, j ≠ i → s'.inode j = s.inode j)
    (hL : ∀ j, j ≠ i → L'.count j = L.count j) (hK : ∀ j, j ≠ i → (j ∈ K' ↔ j ∈ K))
    (href : (s'.inode i).ref = h i + L'.count i) (howner : (s'.inode i).owner = if i ∈ K' then some p else none)
    (hlocked : i ∈ K' → (s'.inode i).valid = true ∧ 0 < h i + L'.count i)
    (hvalid : (s'.inode i).valid = true → (g' i).type ≠ .free)
    (hunlinked : (g' i).type ≠ .free → (g' i).nlink = 0 → (s'.inode i).valid = true ∧ 0 < h i + L'.count i) :
    At b p g' h L' K' s' := by
  refine ⟨hd, fun j => ?_, fun j => ?_, fun j => ?_, fun j => ?_, fun j => ?_, ht.trans hs.tables⟩ <;>
    by_cases hji : j = i
  · subst hji; exact href
  · rw [hj j hji, hL j hji, hs.ref]
  · subst hji; exact howner
  · rw [hj j hji, hs.owner]; simp only [hK j hji]
  · subst hji; exact hlocked
  · rw [hj j hji, hL j hji, hK j hji]; exact hs.locked j
  · subst hji; exact hvalid
  · rw [hj j hji, hg j hji]; exact hs.valid j
  · subst hji; exact hunlinked
  · rw [hj j hji, hg j hji, hL j hji]; exact hs.unlinked j

theorem setInode (i : Nat) (f : Inode nproc → Inode nproc)
    (hL : ∀ j, j ≠ i → L'.count j = L.count j) (hK : ∀ j, j ≠ i → (j ∈ K' ↔ j ∈ K))
    (href : (f (s.inode i)).ref = h i + L'.count i) (howner : (f (s.inode i)).owner = if i ∈ K' then some p else none)
    (hlocked : i ∈ K' → (f (s.inode i)).valid = true ∧ 0 < h i + L'.count i)
    (hvalid : (f (s.inode i)).valid = true → (g i).type ≠ .free)
    (hunlinked : (g i).type ≠ .free → (g i).nlink = 0 → (f (s.inode i)).valid = true ∧ 0 < h i + L'.count i) :
    At b p g h L' K' (s.setInode i f) := by
  have hi := s.setInode_inode_self i f
  exact hs.change i hs.dinode rfl (fun _ _ => rfl) (fun j => s.setInode_inode_ne i f j) hL hK (hi ▸ href) (hi ▸ howner)
    (hi ▸ hlocked) (hi ▸ hvalid) (hi ▸ hunlinked)

theorem setDinode (i : Nat) (f : Dinode → Dinode) (hvalid : (s.inode i).valid = true → (f (g i)).type ≠ .free)
    (hunlinked : (f (g i)).type ≠ .free → (f (g i)).nlink = 0 → (s.inode i).valid = true ∧ 0 < h i + L.count i) :
    At b p (g.modify i f) h L K (s.setDinode i f) := by
  have hi := g.modify_self i f
  refine hs.change i ?_ rfl (fun j hj => g.modify_ne i f j hj) (fun _ _ => rfl) (fun _ _ => rfl) (fun _ _ => Iff.rfl)
    (hs.ref i) (hs.owner i) (hs.locked i) (hi ▸ hvalid) (hi ▸ hunlinked)
  unfold Fs.setDinode Graph.modify
  rw [hs.dinode]

end

theorem reap (i : Nat) (hs : At b p g h (i :: L) K s) (hi : i ∉ K) (h0 : h i + L.count i = 0)
    (f : Inode nproc → Inode nproc) (href : (f (s.inode i)).ref = 0) (hvalid : (f (s.inode i)).valid = false)
    (howner : (f (s.inode i)).owner = none) :
    At b p (g.reap i) h L K ((s.setDinode i fun d => { d with type := .free, ents := [] }).setInode i f) := by
  have hset := (s.setDinode i fun d => { d with type := .free, ents := [] }).setInode_inode_self i f
  have htype : ((g.reap i) i).type = .free := by rw [Graph.reap, Graph.modify_self]
  refine hs.change i ?_ rfl (fun j hj => g.modify_ne i _ j hj) (fun j => Fs.setInode_inode_ne _ i f j)
    (fun j hj => (List.count_cons_of_ne (Ne.symm hj)).symm) (fun _ _ => Iff.rfl) ?_ ?_ (fun h => absurd h hi) ?_ ?_
  · unfold Fs.setInode Fs.setDinode Graph.reap Graph.modify
    rw [hs.dinode]
  · rw [hset, h0]; exact href
  · rw [hset, if_neg hi]; exact howner
  · rw [hset]; intro hv; rw [Fs.setDinode_inode, hvalid] at hv; cases hv
  · intro ht; exact absurd htype ht

end At

section

variable {F : Stop → Prop} (hF : ∀ e, e ≠ noType → F e) {b : Fs nproc} {p : Fin nproc} {g : Graph} {h : Nat → Nat}
  {L : List Nat} {K : Finset Nat} {s : Fs nproc}

include hF

omit hF in
theorem iget_returns (i : Nat) (hs : At b p g h L K s) (hfull : NINODE ≤ s.active → F (.panic "iget: no inodes")) :
    Does p F (op (.iget i)) (fun _ => At b p g h (i :: L) K) s := by
  have hcount : ∀ j, j ≠ i → (i :: L).count j = L.count j := fun j hj => List.count_cons_of_ne (Ne.symm hj)
  have href := hs.ref i
  rw [does_iget]
  split_ifs with h0 h1
  · refine hs.setInode i _ hcount (fun _ _ => Iff.rfl) ?_ (hs.owner i) (fun hi => ?_) (hs.valid i) fun h1 h2 => ?_
    · simp; omega
    · simp only [List.count_cons_self]; exact ⟨(hs.locked i hi).1, by omega⟩
    · simp only [List.count_cons_self]; exact ⟨(hs.unlinked i h1 h2).1, by omega⟩
  · exact hfull h1
  · refine hs.setInode i _ hcount (fun _ _ => Iff.rfl) ?_ (hs.owner i) (fun hi => ?_) (by simp) fun h1 h2 => ?_
    · simp; omega
    · have := (hs.locked i hi).2; omega
    · have := (hs.unlinked i h1 h2).2; omega

theorem iget_spec (i : Nat) (hs : At b p g h L K s) : Does p F (op (.iget i)) (fun _ => At b p g h (i :: L) K) s :=
  iget_returns i hs fun _ => hF _ (by decide)

omit hF in
theorem idup_spec (i : Nat) (hs : At b p g h L K s) : Does p F (op (.idup i)) (fun _ => At b p g h (i :: L) K) s := by
  have hcount : ∀ j, j ≠ i → (i :: L).count j = L.count j := fun j hj => List.count_cons_of_ne (Ne.symm hj)
  have href := hs.ref i
  rw [does_idup]
  refine hs.setInode i _ hcount (fun _ _ => Iff.rfl) ?_ (hs.owner i) (fun hi => ?_) (hs.valid i) fun h1 h2 => ?_
  · simp; omega
  · simp only [List.count_cons_self]; exact ⟨(hs.locked i hi).1, by omega⟩
  · simp only [List.count_cons_self]; exact ⟨(hs.unlinked i h1 h2).1, by omega⟩

omit hF in
theorem ilock_returns (i : Nat) (hs : At b p g h L K s) (hK : i ∉ K) (href : 0 < h i + L.count i)
    (hi : (g i).type = .free → F noType) :
    Does p F (ilock i) (fun _ s' => At b p g h L (insert i K) s' ∧ (g i).type ≠ .free) s := by
  unfold ilock
  rw [does_bind, does_ilock, if_neg (by rw [hs.ref]; omega), if_pos (by rw [hs.owner, if_neg hK])]
  have hins : ∀ j, j ≠ i → (j ∈ insert i K ↔ j ∈ K) := fun j hj => by simp [hj]
  rw [does_load, Fs.setInode_inode_self, Fs.setInode_dinode, hs.dinode, Fs.setInode_setInode]
  split_ifs with hv ht
  · exact ⟨hs.setInode i _ (fun _ _ => rfl) hins (hs.ref i) (by simp) (fun _ => ⟨hv, href⟩) (hs.valid i)
      fun _ _ => ⟨hv, href⟩, hs.valid i hv⟩
  · exact hi ht
  · exact ⟨hs.setInode i _ (fun _ _ => rfl) hins (hs.ref i) (by simp) (fun _ => ⟨rfl, href⟩) (fun _ => ht)
      fun _ _ => ⟨rfl, href⟩, ht⟩

theorem ilock_spec (i : Nat) (hs : At b p g h L K s) (hi : (g i).type = .free → F noType) :
    Does p F (ilock i) (fun _ s' => At b p g h L (insert i K) s' ∧ i ∉ K ∧ (g i).type ≠ .free) s := by
  by_cases hok : 0 < h i + L.count i ∧ i ∉ K
  · exact (ilock_returns i hs hok.2 hok.1 hi).mono fun _ _ hs => ⟨hs.1, hok.2, hs.2⟩
  · unfold ilock
    rw [does_bind, does_ilock]
    split_ifs with h0 h1
    · exact hF _ (by decide)
    · have hpos : 0 < h i + L.count i := by rw [← hs.ref]; omega
      refine absurd ⟨hpos, fun hK => ?_⟩ hok
      rw [hs.owner, if_pos hK] at h1
      cases h1
    · exact hF _ (by decide)

omit hF in
theorem iunlock_returns (i : Nat) (hs : At b p g h L K s) (hi : i ∈ K) :
    Does p F (iunlock i) (fun _ => At b p g h L (K.erase i)) s := by
  have hok : ¬ ((s.inode i).owner ≠ some p ∨ (s.inode i).ref < 1) := by
    rw [hs.owner, if_pos hi, hs.ref]
    have := (hs.locked i hi).2
    simp only [ne_eq, not_true_eq_false, false_or]
    omega
  unfold iunlock
  rw [does_iunlock, if_neg hok]
  have hins : ∀ j, j ≠ i → (j ∈ K.erase i ↔ j ∈ K) := fun j hj => by simp [hj]
  exact hs.setInode i _ (fun _ _ => rfl) hins (hs.ref i) (by simp) (by simp) (hs.valid i) (hs.unlinked i)

theorem iunlock_spec (i : Nat) (hs : At b p g h L K s) :
    Does p F (iunlock i) (fun _ s' => At b p g h L (K.erase i) s' ∧ i ∈ K) s := by
  by_cases hi : i ∈ K
  · exact (iunlock_returns i hs hi).mono fun _ _ hs => ⟨hs, hi⟩
  · unfold iunlock
    rw [does_iunlock, if_pos (.inl (by rw [hs.owner, if_neg hi]; simp))]
    exact hF _ (by decide)

omit hF in
theorem iput_returns (i : Nat) (hs : At b p g h (i :: L) K s) (hi : i ∉ K) :
    Does p F (iput i) (fun _ => At b p (g.settle i (h i + L.count i)) h L K) s := by
  have href : (s.inode i).ref = h i + L.count i + 1 := by rw [hs.ref, List.count_cons_self]; omega
  have hcount : ∀ j, j ≠ i → L.count j = (i :: L).count j := fun j hj => (List.count_cons_of_ne (Ne.symm hj)).symm
  have hkept : ¬ ((g i).type ≠ .free ∧ (g i).nlink = 0 ∧ h i + L.count i = 0) →
    At b p (g.settle i (h i + L.count i)) h L K
      (s.setInode i fun i => { i with ref := i.ref - 1, owner := none }) := by
    intro hg
    rw [Graph.settle, if_neg hg]
    refine hs.setInode i _ hcount (fun _ _ => Iff.rfl) (by simp [href]) (by simp [hi]) (fun h => absurd h hi)
      (hs.valid i) fun h1 h2 => ⟨(hs.unlinked i h1 h2).1, ?_⟩
    by_contra h0
    exact hg ⟨h1, h2, by omega⟩
  unfold iput freeUnlinked
  rw [does_bind, does_iput, if_pos (by rw [hs.owner, if_neg hi]), does_bind, does_unlinked, Fs.setInode_inode_self,
    Fs.setInode_dinode, hs.dinode, does_bind]
  by_cases hu : ((s.inode i).valid && (g i).nlink = 0) = true
  · have hv : (s.inode i).valid = true ∧ (g i).nlink = 0 := by simpa using hu
    rw [if_pos hu, does_bind, does_readRef, Fs.setInode_inode_self]
    by_cases h1 : (s.inode i).ref = 1
    · rw [if_pos h1, does_free, does_bind, does_releasesleep, does_decRef, Fs.setInode_setDinode,
        Fs.setInode_setInode, Fs.setInode_setInode, Fs.setInode_setInode, Graph.settle,
        if_pos ⟨hs.valid i hv.1, hv.2, by omega⟩]
      exact hs.reap i hi (by omega) _ (by simp [h1]) (by simp) (by simp)
    · rw [if_neg h1, does_pure, does_bind, does_releasesleep, does_decRef, Fs.setInode_setInode, Fs.setInode_setInode]
      exact hkept fun hg => h1 (by omega)
  · rw [if_neg hu, does_pure, does_bind, does_releasesleep, does_decRef, Fs.setInode_setInode, Fs.setInode_setInode]
    refine hkept fun hg => hu ?_
    simp [(hs.unlinked i hg.1 hg.2.1).1, hg.2.1]

theorem iput_spec (i : Nat) (hs : At b p g h (i :: L) K s) :
    Does p F (iput i) (fun _ => At b p (g.settle i (h i + L.count i)) h L K) s := by
  by_cases hi : i ∈ K
  · unfold iput
    rw [does_bind, does_iput, if_neg (by rw [hs.owner, if_pos hi]; simp)]
    exact hF _ (by decide)
  · exact iput_returns i hs hi

theorem iunlockput_spec (i : Nat) (hs : At b p g h (i :: L) K s) :
    Does p F (iunlockput i) (fun _ => At b p (g.settle i (h i + L.count i)) h L (K.erase i)) s := by
  unfold iunlockput
  rw [does_bind]
  exact (iunlock_spec hF i hs).mono fun _ s hs => iput_spec hF i hs.1

theorem iput_kept_spec (i : Nat) (hs : At b p g h (i :: L) K s) (ht : g.Tidy h) :
    Does p F (iput i) (fun _ => At b p g h L K) s := by
  have hi := iput_spec hF i hs
  rwa [ht.settle] at hi

theorem iunlockput_kept_spec (i : Nat) (hs : At b p g h (i :: L) K s) (ht : g.Tidy h) :
    Does p F (iunlockput i) (fun _ => At b p g h L (K.erase i)) s := by
  have hi := iunlockput_spec hF i hs
  rwa [ht.settle] at hi

omit hF in
theorem iput_kept_returns (i : Nat) (hs : At b p g h (i :: L) K s) (ht : g.Tidy h) (hi : i ∉ K) :
    Does p F (iput i) (fun _ => At b p g h L K) s := by
  have hp : Does p F (iput i) (fun _ => At b p (g.settle i (h i + L.count i)) h L K) s := iput_returns i hs hi
  rwa [ht.settle] at hp

omit hF in
theorem iunlockput_returns (i : Nat) (hs : At b p g h (i :: L) K s) (ht : g.Tidy h) (hi : i ∈ K) :
    Does p F (iunlockput i) (fun _ => At b p g h L (K.erase i)) s := by
  unfold iunlockput
  rw [does_bind]
  exact (iunlock_returns i hs hi).mono fun _ s hs => iput_kept_returns i hs ht (Finset.notMem_erase i K)

theorem dirlookup_spec (dp : Nat) (name : Name) (hs : At b p g h L K s) :
    Does p F (dirlookup dp name) (fun r s' => r = dirScan name (g dp).ents 0 ∧ (g dp).type = .dir ∧
      At b p g h (withRef r L) K s') s := by
  unfold dirlookup
  rw [does_bind, does_scan, hs.dinode]
  split_ifs with hd
  · exact hF _ (by decide)
  · rw [ne_eq, not_not] at hd
    rcases dirScan name (g dp).ents 0 with _ | ⟨i, off⟩
    · exact ⟨rfl, hd, hs⟩
    · rw [does_bind]
      exact (iget_spec hF i hs).mono fun _ s hs => ⟨rfl, hd, hs⟩

theorem dirlink_spec (dp : Nat) (name : Name) (i : Nat) (hs : At b p g h L K s)
    (ht : dirScan name (g dp).ents 0 ≠ none → g.Tidy h) :
    Does p F (dirlink dp name i) (fun r s' => (g dp).type = .dir ∧
      if r then dirScan name (g dp).ents 0 = none ∧ At b p (g.insert dp name i) h L K s' else At b p g h L K s') s := by
  unfold dirlink
  rw [does_bind]
  refine (dirlookup_spec hF dp name hs).mono ?_
  rintro r s ⟨hr, hd, hs⟩
  rcases r with _ | ⟨j, off⟩
  · rw [does_bind, does_insert]
    split_ifs with hm
    · exact hF _ (by decide)
    · exact ⟨hd, hr.symm, hs.setDinode dp _ (hs.valid dp) (hs.unlinked dp)⟩
  · rw [does_bind]
    exact (iput_kept_spec hF j hs (ht (by rw [← hr]; simp))).mono fun _ s hs => ⟨hd, hs⟩

theorem namexFrom_spec (parent : Bool) (names : List Name) (ip : Nat) (hs : At b p g h (ip :: L) ∅ s) (ht : g.Tidy h)
    (hip : (g ip).type = .free → F noType)
    (hnamed : ∀ d, (g d).type = .dir → ∀ e ∈ (g d).ents, e.inum ≠ 0 → (g e.inum).type = .free → F noType) :
    Does p F (namexFrom parent ip names) (fun r s' => r = g.lookup parent ip names ∧
      At b p g h (withRef r L) ∅ s') s := by
  induction names generalizing ip s with
  | nil =>
    unfold namexFrom Graph.lookup
    split_ifs with hp
    · rw [does_bind]
      exact (iput_kept_spec hF ip hs ht).mono fun _ s hs => ⟨rfl, hs⟩
    · exact ⟨rfl, hs⟩
  | cons name rest ih =>
    unfold namexFrom Graph.lookup
    rw [does_bind]
    refine (ilock_spec hF ip hs hip).mono ?_
    rintro _ s ⟨hs, -, -⟩
    have herase : (insert ip (∅ : Finset Nat)).erase ip = ∅ := by simp
    rw [does_bind, does_type, hs.dinode]
    split_ifs with hd hp
    · rw [does_bind]
      refine (iunlockput_kept_spec hF ip hs ht).mono fun _ s hs => ⟨rfl, ?_⟩
      rwa [herase] at hs
    · rw [does_bind]
      refine (iunlock_spec hF ip hs).mono fun _ s hs => ⟨rfl, ?_⟩
      rw [herase] at hs
      exact hs.1
    · rw [does_bind]
      refine (dirlookup_spec hF ip name hs).mono ?_
      rintro r s ⟨hr, -, hs⟩
      rw [← hr]
      rcases r with _ | ⟨next, off⟩
      · rw [does_bind]
        refine (iunlockput_kept_spec hF ip hs ht).mono fun _ s hs => ⟨rfl, ?_⟩
        rwa [herase] at hs
      · rw [does_bind]
        refine (iunlockput_kept_spec hF ip (hs.perm (List.Perm.swap ip next L)) ht).mono fun _ s hs => ?_
        rw [herase] at hs
        refine ih next hs ?_
        obtain ⟨e, he, rfl, h0, -⟩ := dirScan_mem _ _ _ _ _ hr.symm
        exact hnamed ip (by simpa using hd) e he h0

theorem namex_spec (parent : Bool) (path : List Char) (hs : At b p g h L ∅ s) (ht : g.Tidy h)
    (hg : ¬ F noType → g.Sound h) (hcwd : 0 < h (b.cwd p)) :
    Does p F (namex path parent) (fun r s' =>
      r = g.lookup parent (Graph.start (b.cwd p) path) (elems path) ∧ At b p g h (withRef r L) ∅ s') s := by
  have hnamed : ∀ d, (g d).type = .dir → ∀ e ∈ (g d).ents, e.inum ≠ 0 → (g e.inum).type = .free → F noType := by
    intro d hd e he h0 hfree
    by_contra hn
    exact (hg hn).named d hd e he h0 hfree
  have hstart : (g (Graph.start (b.cwd p) path)).type = .free → F noType := by
    intro hfree
    by_contra hn
    exact (hg hn).start _ hcwd path hfree
  revert hstart
  unfold namex startInode Graph.start
  intro hstart
  rw [does_bind]
  split_ifs with hp
  · rw [if_pos hp] at hstart
    rw [does_bind]
    exact (iget_spec hF ROOTINO hs).mono fun _ s hs => namexFrom_spec hF parent _ ROOTINO hs ht hstart hnamed
  · rw [if_neg hp] at hstart
    rw [does_bind, does_cwd, hs.cwd, does_bind]
    exact (idup_spec (b.cwd p) hs).mono fun _ s hs => namexFrom_spec hF parent _ (b.cwd p) hs ht hstart hnamed

theorem namei_spec (path : List Char) (hs : At b p g h L ∅ s) (ht : g.Tidy h) (hg : ¬ F noType → g.Sound h)
    (hcwd : 0 < h (b.cwd p)) :
    Does p F (namei path) (fun r s' => r = g.namei (b.cwd p) path ∧ (∀ i ∈ r, (g i).type = .free → F noType) ∧
      At b p g h (r.toList ++ L) ∅ s') s := by
  unfold namei
  rw [does_bind]
  refine (namex_spec hF false path hs ht hg hcwd).mono ?_
  rintro r s ⟨hr, hs⟩
  refine ⟨congrArg (Option.map (·.1)) hr, ?_, hs⟩
  intro i hi hfree
  obtain ⟨r', rfl, rfl⟩ := Option.map_eq_some_iff.mp hi
  by_contra hn
  exact (hg hn).lookup false _ _ ((hg hn).start _ hcwd path) r' hr.symm hfree

theorem nameiparent_spec (path : List Char) (hs : At b p g h L ∅ s) (ht : g.Tidy h) (hg : ¬ F noType → g.Sound h)
    (hcwd : 0 < h (b.cwd p)) :
    Does p F (nameiparent path) (fun r s' => r = g.parent (b.cwd p) path ∧ At b p g h (withRef r L) ∅ s') s :=
  namex_spec hF true path hs ht hg hcwd

theorem fresh_inode_spec (i : Nat) (t : FileType) (major minor : Int) (hs : At b p g h L K s) (ht : t ≠ .free)
    (hfree : (g i).type = .free) (Q : Fs nproc → Prop) (hQ : ∀ s', i ∉ K →
      At b p (g.modify i fun _ => { type := t, major, minor, nlink := 1, ents := [] }) h (i :: L)
        (insert i K) s' → Q s') :
    Does p F (op (.iget i)) (fun _ => Does p F (ilock i) fun _ => Does p F (op (.init i major minor)) fun _ => Q)
      (s.setDinode i fun _ => { type := t, major := 0, minor := 0, nlink := 0, ents := [] }) := by
  have hvalid : (s.inode i).valid = false := by
    by_contra hv
    exact hs.valid i (by simpa using hv) hfree
  have hK : i ∉ K := by
    intro hi
    rw [(hs.locked i hi).1] at hvalid
    cases hvalid
  have hown : (s.inode i).owner = none := by rw [hs.owner, if_neg hK]
  have key : ∀ f : Inode nproc → Inode nproc, f (s.inode i) = ⟨(s.inode i).ref + 1, false, none⟩ →
      Does p F (ilock i) (fun _ => Does p F (op (.init i major minor)) fun _ => Q)
        ((s.setDinode i fun _ => { type := t, major := 0, minor := 0, nlink := 0, ents := [] }).setInode i f) := by
    intro f hf
    unfold ilock
    rw [does_bind, does_ilock, Fs.setInode_inode_self, Fs.setDinode_inode, hf, if_neg (by simp), if_pos rfl, does_load,
      Fs.setInode_setInode, Fs.setInode_inode_self, Fs.setInode_dinode, Fs.setDinode_inode, Function.comp_apply, hf,
      if_neg (by simp), Fs.setDinode_dinode_self, if_neg ht, does_init, Fs.setInode_setInode, Fs.setInode_setDinode,
      Fs.setDinode_setDinode]
    refine hQ _ hK (hs.change i ?_ rfl (fun j hj => g.modify_ne i _ j hj) (fun j => Fs.setInode_inode_ne _ i _ j)
      (fun j hj => List.count_cons_of_ne (Ne.symm hj)) (fun j hj => by simp [hj]) ?_ ?_ ?_ ?_ ?_)
    · unfold Fs.setInode Fs.setDinode Graph.modify
      rw [hs.dinode]
      rfl
    all_goals simp [hf, hs.ref, ht]
    omega
  rw [does_iget, Fs.setDinode_inode]
  split_ifs with h0 h1
  · exact key _ (by rw [hvalid, hown])
  · exact hF _ (by decide)
  · exact key _ (by rw [hown]; congr 1; omega)

theorem fresh_spec (t : FileType) (major minor : Int) (hs : At b p g h L K s) (ht : t ≠ .free)
    (Q : Nat → Fs nproc → Prop) (hQ : ∀ i s', (g i).type = .free → 0 < i → i < b.ninodes → i ∉ K →
      At b p (g.modify i fun _ => { type := t, major, minor, nlink := 1, ents := [] }) h (i :: L)
        (insert i K) s' → Q i s') :
    Does p F (ialloc t) (fun i => Does p F (ilock i) fun _ => Does p F (op (.init i major minor)) fun _ => Q i) s := by
  have hall : ∀ n inum, 0 < inum → inum + n ≤ b.ninodes ∨ n = 0 → Does p F (iallocFrom t n inum)
      (fun i => Does p F (ilock i) fun _ => Does p F (op (.init i major minor)) fun _ => Q i) s := by
    intro n
    induction n with
    | zero =>
      intro inum _ _
      unfold iallocFrom
      rw [does_panic]
      exact hF _ (by decide)
    | succ n ih =>
      intro i h0 hi
      unfold iallocFrom
      rw [does_bind, does_ialloc, hs.dinode]
      by_cases hfree : (g i).type = .free
      · rw [if_pos hfree, if_pos rfl, does_bind]
        exact fresh_inode_spec hF i t major minor hs ht hfree (Q i) fun s' => hQ i s' hfree h0 (by omega)
      · rw [if_neg hfree]
        exact ih (i + 1) (by omega) (by omega)
  unfold ialloc
  rw [does_bind, does_ninodes, hs.ninodes]
  exact hall _ 1 (by omega) (by omega)

end

end Xv6
