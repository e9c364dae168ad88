import Mathlib.Algebra.Group.Pi.Basic
import Mathlib.Algebra.Order.Group.Int
import Mathlib.Algebra.Order.Pi
import Mathlib.Tactic.Abel
import Xv6.Sys.Code

/-!
# What a call has and what it knows

The references, locks and files a process has in the middle of a call, whether it is in a transaction,
and what it knows of the inodes that it has locked. The rules say what each operation needs and changes.
Each call obeys them and gives everything back.
-/

open Lib Function

namespace Xv6.Sys

open Blocks (T_DIR T_FILE T_DEV)

/-- What is known of a locked inode: nothing yet, the copy is that of the disk, only its type, size and
addresses are, and the stages in which `iput` frees it. -/
inductive Mode where
  | raw | clean | dirty | trunc | dead | gone
  deriving DecidableEq, Repr

/-- References count beyond those of the current directory and of the descriptors of the process. Known
are: its current directory, a descriptor, an open file with its inode, a new file, and a new process. -/
structure Local where
  own : Slot → Int
  lock : Slot → Option Mode
  inOp : Bool
  cwd : Option (Option Slot)
  fown : Fin NFILE → Int
  desc : Option (Fin NOFILE × Fin NFILE)
  ip : Option (Fin NFILE × Slot)
  fresh : Option (Fin NFILE)
  child : Option (Fin NPROC)

abbrev one {n : Nat} (i : Fin n) : Fin n → Int := Pi.single i 1

namespace Local

variable {l : Local} {i j : Slot} {m m' : Option Mode}

def gain (l : Local) (i : Slot) : Local := { l with own := l.own + one i }

def drop (l : Local) (i : Slot) : Local := { l with own := l.own - one i }

def mode (l : Local) (i : Slot) (m : Option Mode) : Local := { l with lock := update l.lock i m }

/-- A reference of the call, or that of the current directory. -/
def Owns (l : Local) (i : Slot) : Prop := 0 < l.own i ∨ l.own i = 0 ∧ l.cwd = some (some i)

/-- Or that of an open file. -/
def Holds (l : Local) (i : Slot) : Prop := l.Owns i ∨ ∃ f, l.ip = some (f, i)

/-- A file reference of the call, or that of the descriptor. -/
def OwnsFile (l : Local) (f : Fin NFILE) : Prop := 0 < l.fown f ∨ l.fown f = 0 ∧ ∃ fd, l.desc = some (fd, f)

structure Done (l : Local) : Prop where
  own : l.own = 0
  lock : l.lock = fun _ => none
  inOp : l.inOp = false
  fown : l.fown = 0

def idle : Local := ⟨0, fun _ => none, false, none, 0, none, none, none, none⟩

theorem done_idle : idle.Done := ⟨rfl, rfl, rfl, rfl⟩

@[simp]
theorem gain_drop : (l.gain i).drop i = l := by
  unfold gain drop
  simp

theorem gain_comm : (l.gain i).gain j = (l.gain j).gain i := by
  unfold gain
  rw [add_right_comm]

@[simp]
theorem mode_mode : (l.mode i m).mode i m' = l.mode i m' := by
  unfold mode
  simp

theorem mode_none (h : l.lock i = none) : l.mode i none = l := by
  unfold mode
  rw [← h, update_eq_self]

theorem mode_comm (h : i ≠ j) : (l.mode i m).mode j m' = (l.mode j m').mode i m := by
  unfold mode
  rw [update_comm h]

@[simp]
theorem mode_gain : (l.gain j).mode i m = (l.mode i m).gain j := rfl

@[simp]
theorem lock_mode_self : (l.mode i m).lock i = m := update_self ..

theorem lock_mode_ne (h : j ≠ i) : (l.mode i m).lock j = l.lock j := update_of_ne h ..

@[simp]
theorem lock_gain : (l.gain i).lock = l.lock := rfl

theorem owns_gain (h : 0 ≤ l.own) : (l.gain i).Owns i := by
  have := h i
  refine .inl ?_
  simp only [gain, Pi.add_apply, Pi.single_eq_same]
  simp only [Pi.zero_apply] at this
  omega

theorem nonneg_gain (h : 0 ≤ l.own) : 0 ≤ (l.gain i).own :=
  add_nonneg h (Pi.single_nonneg.mpr zero_le_one)

end Local

namespace Op

structure Keeps (f : Blocks.Dinode → Blocks.Dinode) : Prop where
  type : ∀ d, (f d).type = d.type
  size : ∀ d, (f d).size = d.size
  addrs : ∀ d, (f d).addrs = d.addrs
  fits : ∀ d, d.major < 2 ^ 16 → d.minor < 2 ^ 16 → d.nlink < 2 ^ 16 →
    (f d).major < 2 ^ 16 ∧ (f d).minor < 2 ^ 16 ∧ (f d).nlink < 2 ^ 16

def pre (l : Local) : Op → Prop
  | .begin_op => l.inOp = false
  | .end_op => l.inOp = true
  | .iget dev _ => dev = ROOTDEV
  | .idup => 0 ≤ l.own
  | .decRef i => l.lock i = none ∧ l.Owns i
  | .ilock i | .acquiresleep i | .id i => l.Holds i
  | .iunlock i | .releasesleep i => l.lock i = some .clean ∨ l.lock i = some .raw
  | .fields i => l.lock i ≠ none
  | .modify i f => l.lock i = some .clean ∧ Keeps f
  | .clearType i => l.lock i = some .trunc
  | .invalidate i => l.lock i = some .gone
  | .load i => l.lock i = some .raw
  | .iupdate i => l.lock i = some .dirty ∨ l.lock i = some .dead
  | .itrunc i | .readi i _ _ | .writei i _ _ | .scan i _ | .insert i _ _ | .erase i _ | .isdirempty i =>
    l.lock i = some .clean
  | .ialloc _ type => type ≠ 0 ∧ type < 2 ^ 16
  | .clearFd fd => l.ip = none ∧ ∃ f, l.desc = some (fd, f)
  | .fileclose f => l.ip = none ∧ l.OwnsFile f
  | .file f => 0 ≤ l.fown f ∧ ∃ fd, l.desc = some (fd, f)
  | .setFile f i _ _ => l.fresh = some f ∧ l.lock i = none ∧ 0 < l.own i
  | .setCwd _ => ∃ c, l.cwd = some (some c)
  | .unalloc np => l.child = some np
  | .childFd np _ f => l.child = some np ∧ l.ip = none ∧ l.fresh = none ∧ 0 < l.fown f
  | .start np i => l.child = some np ∧ l.lock i = none ∧ 0 < l.own i
  | .exit _ => l.cwd = some none ∧ l.Done
  | _ => True

def ok (l : Local) : (a : Op) → Res a → Prop
  | .ilock i, _ | .acquiresleep i, _ => l.lock i = none
  | .id _, r => r.1 = ROOTDEV
  | .fileclose f, r => l.fresh = some f → r = none
  | _, _ => True

def next (l : Local) : (a : Op) → Res a → Local → Prop
  | .begin_op, _, l' => l' = { l with inOp := true }
  | .end_op, _, l' => l' = { l with inOp := false }
  | .iget _ _, r, l' | .idup, r, l' => l' = l.gain r
  | .decRef i, _, l' => l' = l.drop i
  | .ilock i, _, l' | .acquiresleep i, _, l' | .invalidate i, _, l' => l' = l.mode i (some .raw)
  | .load i, _, l' => l' = l.mode i (some .clean)
  | .iunlock i, _, l' | .releasesleep i, _, l' => l' = l.mode i none
  | .fields i, r, l' => l' = l ∨ r.1 = true ∧ l.lock i = some .raw ∧ l' = l.mode i (some .clean)
  | .modify i _, _, l' => l' = l.mode i (some .dirty)
  | .clearType i, _, l' => l' = l.mode i (some .dead)
  | .iupdate i, _, l' => l' = l.mode i (if l.lock i = some .dead then some .gone else some .clean)
  | .itrunc i, _, l' => l' = l.mode i (some .trunc)
  | .filealloc, r, l' => l' = { l with fresh := r, fown := l.fown + r.elim 0 one }
  | .fdalloc f, r, l' => l' = { l with fown := l.fown - r.elim 0 fun _ => one f }
  | .ofile fd, r, l' => l' = { l with desc := r.map (fd, ·) }
  | .clearFd fd, _, l' => ∃ f, l.desc = some (fd, f) ∧ l' = { l with desc := none, fown := l.fown + one f }
  | .filedup f, _, l' => l' = { l with fown := l.fown + one f }
  | .fileclose f, r, l' => l' = { l with fresh := none, fown := l.fown - one f, own := l.own + r.elim 0 one }
  | .file f, r, l' => l' = l ∨ l.lock = (fun _ => none) ∧ l' = { l with ip := r.ip.map (f, ·) }
  | .setFile _ i _ _, _, l' => l' = { l with own := l.own - one i, fresh := none }
  | .cwd, r, l' => l' = { l with cwd := some (some r) }
  | .setCwd v, _, l' => ∃ c, l.cwd = some (some c) ∧ l' = { l with own := l.own + one c - v.elim 0 one, cwd := some v }
  | .allocproc _, r, l' => l' = { l with child := r }
  | .unalloc _, _, l' => l' = { l with child := none }
  | .childFd _ _ f, _, l' => l' = { l with fown := l.fown - one f }
  | .start _ i, _, l' => l' = { l with own := l.own - one i, child := none }
  | .exit _, _, l' => l' = .idle
  | _, _, l' => l' = l

end Op

def rules : Prog.Rules Local Op Res := ⟨Op.pre, Op.ok, Op.next⟩

abbrev Obeys {α : Type} (x : P α) (Q : α → Local → Prop) (l : Local) : Prop := Prog.Safe rules x Q l

variable {α β : Type} {l : Local} {i j : Slot}

theorem obeys_bind {x : P α} {f : α → P β} {A : α → Local → Prop} {Q : β → Local → Prop} (hx : Obeys x A l)
    (hf : ∀ a l', A a l' → Obeys (f a) Q l') : Obeys (x >>= f) Q l := by
  rw [Obeys, Prog.safe_bind]
  exact hx.mono hf

theorem obeys_op {a : Op} {f : Res a → P β} {Q : β → Local → Prop} (hpre : a.pre l)
    (hf : ∀ r, Op.ok l a r → ∃ l', Op.next l a r l' ∧ Obeys (f r) Q l') : Obeys (op a >>= f) Q l := ⟨hpre, hf⟩

theorem obeys_last {a : Op} {Q : Res a → Local → Prop} (hpre : a.pre l)
    (hf : ∀ r, Op.ok l a r → ∃ l', Op.next l a r l' ∧ Q r l') : Obeys (op a) Q l := ⟨hpre, hf⟩

theorem obeys_panic (msg : String) (Q : α → Local → Prop) : Obeys (panic msg) Q l := ⟨trivial, fun r => nomatch r⟩

theorem obeys_expect (b : Bool) (msg : String) (Q : Unit → Local → Prop) (h : b = true → Q () l) :
    Obeys (expect b msg) Q l := by
  unfold expect
  split_ifs with hb
  · exact h hb
  · exact obeys_panic msg Q

theorem ilock_obeys (i : Slot) (h : l.Holds i) :
    Obeys (ilock i) (fun _ l' => l.lock i = none ∧ l' = l.mode i (some .clean)) l := by
  unfold ilock
  refine obeys_op h fun _ hi => ⟨_, rfl, ?_⟩
  refine obeys_last (Local.lock_mode_self ..) fun _ _ => ⟨_, rfl, hi, Local.mode_mode⟩

theorem iunlock_obeys (i : Slot) (h : l.lock i = some .clean) : Obeys (iunlock i) (fun _ l' => l' = l.mode i none) l :=
  obeys_last (.inl h) fun _ _ => ⟨_, rfl, rfl⟩

theorem iupdate_obeys (i : Slot) (h : l.lock i = some .dirty) :
    Obeys (iupdate i) (fun _ l' => l' = l.mode i (some .clean)) l := by
  refine obeys_last (.inl h) fun _ _ => ⟨_, rfl, ?_⟩
  rw [h, if_neg (by decide)]

theorem write_back_obeys (i : Slot) (f : Blocks.Dinode → Blocks.Dinode) (hf : Op.Keeps f) (h : l.lock i = some .clean) :
    Obeys (op (.modify i f) >>= fun _ => iupdate i) (fun _ l' => l' = l) l := by
  refine obeys_op ⟨h, hf⟩ fun _ _ => ⟨_, rfl, ?_⟩
  refine (iupdate_obeys i (Local.lock_mode_self ..)).mono ?_
  rintro _ _ rfl
  rw [Local.mode_mode, Local.mode, ← h, update_eq_self]

theorem freeUnlinked_obeys (i : Slot) (h : l.lock i = some .clean) :
    Obeys (freeUnlinked i) (fun _ l' => l' = l ∨ l' = l.mode i (some .raw)) l := by
  unfold freeUnlinked
  refine obeys_op trivial fun r _ => ⟨l, rfl, ?_⟩
  split_ifs
  · refine obeys_op h fun _ _ => ⟨_, rfl, ?_⟩
    refine obeys_op (Local.lock_mode_self ..) fun _ _ => ⟨_, rfl, ?_⟩
    refine obeys_op (.inr (Local.lock_mode_self ..)) fun _ _ => ⟨_, rfl, ?_⟩
    rw [Local.lock_mode_self, if_pos rfl]
    refine obeys_last (Local.lock_mode_self ..) fun _ _ => ⟨_, rfl, .inr ?_⟩
    simp only [Local.mode_mode]
  · exact .inl rfl

theorem iput_obeys (i : Slot) (h : l.Owns i) : Obeys (iput i) (fun _ l' => l.lock i = none ∧ l' = l.drop i) l := by
  have hend : ∀ m, m = some Mode.clean ∨ m = some .raw → l.lock i = none →
      Obeys (do op (.releasesleep i); op (.decRef i)) (fun _ l' => l.lock i = none ∧ l' = l.drop i) (l.mode i m) := by
    intro m hm hi
    refine obeys_op (by simpa [Op.pre] using hm) fun _ _ => ⟨_, rfl, ?_⟩
    rw [Local.mode_mode, Local.mode_none hi]
    exact obeys_last ⟨hi, h⟩ fun _ _ => ⟨_, rfl, hi, rfl⟩
  unfold iput
  refine obeys_op (.inl h) fun _ hi => ⟨_, rfl, ?_⟩
  refine obeys_op (by simp [Op.pre]) fun ⟨valid, d⟩ _ => ?_
  dsimp only
  split_ifs with hr
  · refine ⟨_, .inr ⟨hr.1, Local.lock_mode_self .., rfl⟩, ?_⟩
    rw [Local.mode_mode]
    refine obeys_bind (freeUnlinked_obeys i (Local.lock_mode_self ..)) ?_
    rintro _ _ (rfl | rfl)
    · exact hend _ (.inl rfl) hi
    · rw [Local.mode_mode]
      exact hend _ (.inr rfl) hi
  · exact ⟨_, .inl rfl, hend _ (.inr rfl) hi⟩

theorem iunlockput_obeys (i : Slot) (hl : l.lock i = some .clean) (h : l.Owns i) :
    Obeys (iunlockput i) (fun _ l' => l' = (l.mode i none).drop i) l := by
  unfold iunlockput
  refine obeys_bind (iunlock_obeys i hl) ?_
  rintro _ _ rfl
  have hown : (l.mode i none).Owns i := h
  refine (iput_obeys i hown).mono ?_
  rintro _ _ ⟨-, rfl⟩
  rfl

theorem put_obeys (i : Slot) (h : 0 ≤ l.own) (hi : l.lock i = none) :
    Obeys (iunlockput i) (fun _ l' => l' = l) ((l.mode i (some .clean)).gain i) := by
  have hown : ((l.mode i (some .clean)).gain i).Owns i := Local.owns_gain h
  have hlock : ((l.mode i (some .clean)).gain i).lock i = some .clean := Local.lock_mode_self
  refine (iunlockput_obeys i hlock hown).mono ?_
  rintro _ _ rfl
  rw [Local.mode_gain, Local.gain_drop, Local.mode_mode, Local.mode_none hi]

theorem iallocFrom_obeys (type n inum : Nat) (ht : type ≠ 0 ∧ type < 2 ^ 16) :
    Obeys (iallocFrom ROOTDEV type n inum) (fun i l' => l' = l.gain i) l := by
  induction n generalizing inum with
  | zero => exact obeys_panic _ _
  | succ n ih =>
    unfold iallocFrom
    refine obeys_op ht fun r _ => ⟨l, rfl, ?_⟩
    split_ifs
    · exact obeys_last rfl fun _ _ => ⟨_, rfl, rfl⟩
    · exact ih (inum + 1)

theorem ialloc_obeys (type : Nat) (ht : type ≠ 0 ∧ type < 2 ^ 16) :
    Obeys (ialloc ROOTDEV type) (fun i l' => l' = l.gain i) l :=
  obeys_op trivial fun _ _ => ⟨l, rfl, iallocFrom_obeys type _ 1 ht⟩

theorem dirlookup_obeys (dp : Slot) (name : Name) (hl : l.lock dp = some .clean) (h : l.Holds dp) :
    Obeys (dirlookup dp name) (fun r l' => (r = none → l' = l) ∧ ∀ i off, r = some (i, off) → l' = l.gain i) l := by
  unfold dirlookup
  refine obeys_op hl fun r _ => ⟨l, rfl, ?_⟩
  rcases r with _ | ⟨inum, off⟩
  · exact ⟨fun _ => rfl, by simp⟩
  · refine obeys_op h fun r hr => ⟨l, rfl, ?_⟩
    refine obeys_op hr fun i _ => ⟨_, rfl, by simp, ?_⟩
    rintro _ _ ⟨⟩
    rfl

theorem dirlink_obeys (dp : Slot) (name : Name) (inum : Nat) (hl : l.lock dp = some .clean) (h : l.Holds dp)
    (hown : 0 ≤ l.own) : Obeys (dirlink dp name inum) (fun _ l' => l' = l) l := by
  unfold dirlink
  refine obeys_bind (dirlookup_obeys dp name hl h) ?_
  rintro (_ | ⟨i, off⟩) l' ⟨hnone, hsome⟩
  · rw [hnone rfl]
    exact obeys_op hl fun _ _ => ⟨l, rfl, rfl⟩
  · rw [hsome i off rfl]
    refine obeys_bind (iput_obeys i (Local.owns_gain hown)) ?_
    rintro _ _ ⟨-, rfl⟩
    exact Local.gain_drop

theorem namexFrom_obeys (parent : Bool) (names : List Name) (ip : Slot) (hown : 0 ≤ l.own) :
    Obeys (namexFrom parent ip names) (fun r l' => (r = none → l' = l) ∧ ∀ i n, r = some (i, n) → l' = l.gain i)
      (l.gain ip) := by
  induction names generalizing ip with
  | nil =>
    unfold namexFrom
    split_ifs
    · refine obeys_bind (iput_obeys ip (Local.owns_gain hown)) ?_
      rintro _ _ ⟨-, rfl⟩
      exact ⟨fun _ => Local.gain_drop, by simp⟩
    · refine ⟨by simp, ?_⟩
      rintro _ _ ⟨⟩
      rfl
  | cons name rest ih =>
    unfold namexFrom
    refine obeys_bind (ilock_obeys ip (.inl (Local.owns_gain hown))) ?_
    rintro _ _ ⟨hi, rfl⟩
    rw [Local.lock_gain] at hi
    rw [Local.mode_gain]
    have hfail : Obeys (do iunlockput ip; pure (none : Option (Slot × Name)))
        (fun r l' => (r = none → l' = l) ∧ ∀ i n, r = some (i, n) → l' = l.gain i)
          ((l.mode ip (some .clean)).gain ip) := by
      refine obeys_bind (put_obeys ip hown hi) ?_
      rintro _ _ rfl
      exact ⟨fun _ => rfl, by simp⟩
    refine obeys_op (by simp [Op.pre]) fun r _ => ⟨_, .inl rfl, ?_⟩
    dsimp only
    split_ifs
    · exact hfail
    · refine obeys_bind (iunlock_obeys ip (Local.lock_mode_self ..)) ?_
      rintro _ _ rfl
      refine ⟨by simp, ?_⟩
      rintro _ _ ⟨⟩
      rw [Local.mode_gain, Local.mode_mode, Local.mode_none hi]
    · refine obeys_bind (dirlookup_obeys ip name (Local.lock_mode_self ..) (.inl (Local.owns_gain hown))) ?_
      rintro (_ | ⟨next, off⟩) l' ⟨hnone, hsome⟩
      · rw [hnone rfl]
        exact hfail
      · rw [hsome next off rfl, Local.gain_comm, ← Local.mode_gain]
        refine obeys_bind (put_obeys ip (Local.nonneg_gain hown) hi) ?_
        rintro _ _ rfl
        exact ih next

theorem namex_obeys (path : List Char) (parent : Bool) (hown : 0 ≤ l.own) :
    Obeys (namex path parent) (fun r l' => (r = none → l' = l) ∧ ∀ i n, r = some (i, n) → l' = l.gain i) l := by
  unfold namex
  have hstart : Obeys (if path.head? = some '/' then op (.iget ROOTDEV ROOTINO) else op .idup)
    (fun ip l' => l' = l.gain ip) l := by
    split_ifs
    · exact obeys_last rfl fun _ _ => ⟨_, rfl, rfl⟩
    · exact obeys_last hown fun _ _ => ⟨_, rfl, rfl⟩
  refine obeys_bind hstart ?_
  rintro ip _ rfl
  exact namexFrom_obeys parent _ ip hown

theorem nameiparent_obeys (path : List Char) (hown : 0 ≤ l.own) :
    Obeys (nameiparent path) (fun r l' => (r = none → l' = l) ∧ ∀ i n, r = some (i, n) → l' = l.gain i) l :=
  namex_obeys path true hown

theorem namei_obeys (path : List Char) (hown : 0 ≤ l.own) :
    Obeys (namei path) (fun r l' => (r = none → l' = l) ∧ ∀ i, r = some i → l' = l.gain i) l := by
  unfold namei
  refine obeys_bind (namex_obeys path false hown) ?_
  rintro (_ | ⟨i, n⟩) l' ⟨hnone, hsome⟩
  · exact ⟨fun _ => hnone rfl, by simp⟩
  · refine ⟨by simp, ?_⟩
    rintro _ ⟨⟩
    exact hsome i n rfl

end Xv6.Sys
