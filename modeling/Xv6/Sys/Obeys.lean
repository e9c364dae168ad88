import Xv6.Sys.Rules

/-! # Each call obeys the rules -/

open Lib

namespace Xv6.Sys

open Blocks (T_DIR T_FILE T_DEV)

namespace Local

def enter (l : Local) : Local := { l with inOp := true }

def leave (l : Local) : Local := { l with inOp := false }

theorem enter_leave {l : Local} (h : l.inOp = false) : l.enter.leave = l := by
  unfold enter leave
  rw [← h]

end Local

variable {α β : Type} {l : Local} {i dp ip : Slot} {Q : β → Local → Prop}

theorem keeps_addNlink (n : Int) : Op.Keeps (addNlink n) := by
  refine ⟨fun _ => rfl, fun _ => rfl, fun _ => rfl, fun d h1 h2 _ => ⟨h1, h2, ?_⟩⟩
  show ((d.nlink + n) % 2 ^ 16).toNat < 2 ^ 16
  have := Int.emod_lt_of_pos (d.nlink + n) (by decide : (0 : Int) < 2 ^ 16)
  omega

theorem keeps_initInode (major minor : Nat) : Op.Keeps (initInode major minor) :=
  ⟨fun _ => rfl, fun _ => rfl, fun _ => rfl, fun _ _ _ _ =>
    ⟨Nat.mod_lt _ (by decide), Nat.mod_lt _ (by decide), (by decide : 1 < 2 ^ 16)⟩⟩

theorem begin_obeys {k : P β} (h : l.inOp = false) (hk : Obeys k Q l.enter) : Obeys (op .begin_op >>= fun _ => k) Q l :=
  obeys_op h fun _ _ => ⟨_, rfl, hk⟩

theorem end_obeys {k : P β} (h : l.inOp = true) (hk : Obeys k Q l.leave) : Obeys (op .end_op >>= fun _ => k) Q l :=
  obeys_op h fun _ _ => ⟨_, rfl, hk⟩

theorem write_back_bind {k : P β} (f : Blocks.Dinode → Blocks.Dinode) (hf : Op.Keeps f) (h : l.lock i = some .clean)
    (hk : Obeys k Q l) : Obeys (op (.modify i f) >>= fun _ => iupdate i >>= fun _ => k) Q l := by
  refine obeys_op ⟨h, hf⟩ fun _ _ => ⟨_, rfl, ?_⟩
  refine obeys_bind (iupdate_obeys i (Local.lock_mode_self ..)) ?_
  rintro _ _ rfl
  rwa [Local.mode_mode, Local.mode, ← h, Function.update_eq_self]

theorem put_end_obeys {k : P β} (hop : l.inOp = true) (hown : 0 ≤ l.own) (hi : l.lock i = none)
    (hk : Obeys k Q l.leave) :
    Obeys (iunlockput i >>= fun _ => op .end_op >>= fun _ => k) Q ((l.mode i (some .clean)).gain i) := by
  refine obeys_bind (put_obeys i hown hi) ?_
  rintro _ _ rfl
  exact end_obeys hop hk

theorem linkBad_obeys (hop : l.inOp = true) (hown : 0 ≤ l.own) :
    Obeys (linkBad ip) (fun _ l' => l' = l.leave) (l.gain ip) := by
  unfold linkBad
  refine obeys_bind (ilock_obeys ip (.inl (Local.owns_gain hown))) ?_
  rintro _ _ ⟨hi, rfl⟩
  exact write_back_bind _ (keeps_addNlink _) (Local.lock_mode_self ..) (put_end_obeys hop hown hi rfl)

theorem linkEntry_obeys (name : Name) (hl : l.lock dp = some .clean) (hdp : l.Holds dp) (hip : l.Holds ip)
    (hown : 0 ≤ l.own) :
    Obeys (linkEntry dp name ip) (fun _ l' => l' = l) l := by
  unfold linkEntry
  refine obeys_op hdp fun ⟨ddev, _⟩ _ => ⟨l, rfl, ?_⟩
  refine obeys_op hip fun ⟨idev, inum⟩ _ => ⟨l, rfl, ?_⟩
  dsimp only
  split_ifs
  · exact rfl
  · exact dirlink_obeys dp name inum hl hdp hown

theorem sys_link_obeys (old new : Option (List Char)) (hop : l.inOp = false) (hown : 0 ≤ l.own) :
    Obeys (sys_link old new) (fun _ l' => l' = l) l := by
  rcases old with _ | old
  · exact rfl
  rcases new with _ | new
  · exact rfl
  unfold sys_link
  refine begin_obeys hop ?_
  have hdone := Local.enter_leave hop
  replace hown : 0 ≤ l.enter.own := hown
  refine obeys_bind (namei_obeys old hown) ?_
  rintro (_ | ip) l' ⟨hnone, hsome⟩
  · rw [hnone rfl]
    exact end_obeys rfl hdone
  rw [hsome ip rfl]
  refine obeys_bind (ilock_obeys ip (.inl (Local.owns_gain hown))) ?_
  rintro _ _ ⟨hi, rfl⟩
  refine obeys_op (by simp [Op.pre]) fun ⟨_, d⟩ _ => ⟨_, .inl rfl, ?_⟩
  dsimp only
  split_ifs
  · exact put_end_obeys rfl hown hi hdone
  refine write_back_bind _ (keeps_addNlink _) (Local.lock_mode_self ..) ?_
  refine obeys_bind (iunlock_obeys ip (Local.lock_mode_self ..)) ?_
  rintro _ _ rfl
  rw [Local.mode_mode, Local.mode_none hi]
  have hown' : 0 ≤ (l.enter.gain ip).own := Local.nonneg_gain hown
  have hbad : Obeys (linkBad ip) (fun _ l' => l' = l) (l.enter.gain ip) := by
    rw [← hdone]
    exact linkBad_obeys rfl hown
  refine obeys_bind (nameiparent_obeys new hown') ?_
  rintro (_ | ⟨dp, name⟩) l' ⟨hnone, hsome⟩
  · rw [hnone rfl]
    exact hbad
  rw [hsome dp name rfl]
  refine obeys_bind (ilock_obeys dp (.inl (Local.owns_gain hown'))) ?_
  rintro _ _ ⟨hd, rfl⟩
  have hip : (((l.enter.gain ip).gain dp).mode dp (some .clean)).Owns ip := by
    rw [Local.gain_comm, Local.mode_gain]
    exact Local.owns_gain (Local.nonneg_gain hown)
  refine obeys_bind (linkEntry_obeys name (Local.lock_mode_self ..) (.inl (Local.owns_gain hown')) (.inl hip)
    (Local.nonneg_gain hown')) ?_
  rintro ok _ rfl
  split_ifs
  · refine obeys_bind (put_obeys dp hown' hd) ?_
    rintro _ _ rfl
    refine obeys_bind (iput_obeys ip (Local.owns_gain hown)) ?_
    rintro _ _ ⟨-, rfl⟩
    rw [Local.gain_drop]
    exact end_obeys rfl hdone
  · refine obeys_bind (put_obeys dp hown' hd) ?_
    rintro _ _ rfl
    exact hbad

def Local.pair (l : Local) (dp ip : Slot) : Local :=
  (((l.mode dp (some .clean)).mode ip (some .clean)).gain dp).gain ip

namespace Local

theorem pair_comm (h : dp ≠ ip) : l.pair dp ip = l.pair ip dp := by
  unfold pair
  rw [gain_comm, mode_comm h]

theorem owns_pair_right (h : 0 ≤ l.own) : (l.pair dp ip).Owns ip := owns_gain (nonneg_gain (i := dp) h)

theorem lock_pair_right : (l.pair dp ip).lock ip = some .clean := lock_mode_self

theorem nonneg_pair (h : 0 ≤ l.own) : 0 ≤ (l.pair dp ip).own := nonneg_gain (nonneg_gain h)

end Local

theorem put_second_obeys (hne : dp ≠ ip) (hown : 0 ≤ l.own) (hi : l.lock ip = none) :
    Obeys (iunlockput ip) (fun _ l' => l' = (l.mode dp (some .clean)).gain dp) (l.pair dp ip) :=
  put_obeys ip (Local.nonneg_gain hown) (by rw [Local.lock_gain, Local.lock_mode_ne hne.symm, hi])

theorem put_first_obeys (hne : dp ≠ ip) (hown : 0 ≤ l.own) (hd : l.lock dp = none) :
    Obeys (iunlockput dp) (fun _ l' => l' = (l.mode ip (some .clean)).gain ip) (l.pair dp ip) := by
  rw [Local.pair_comm hne]
  exact put_second_obeys hne.symm hown hd

theorem lock_second_obeys (hown : 0 ≤ l.own) :
    Obeys (ilock ip) (fun _ l' => dp ≠ ip ∧ l.lock ip = none ∧ l' = l.pair dp ip)
      (((l.mode dp (some .clean)).gain dp).gain ip) := by
  have hmode : 0 ≤ (l.mode dp (some .clean)).own := hown
  refine (ilock_obeys ip (.inl (Local.owns_gain (Local.nonneg_gain hmode)))).mono ?_
  rintro _ _ ⟨hi, rfl⟩
  have hne : dp ≠ ip := by
    rintro rfl
    exact absurd (Local.lock_mode_self.symm.trans hi) (by simp)
  exact ⟨hne, (Local.lock_mode_ne hne.symm).symm.trans hi, rfl⟩

theorem unlinkBad_obeys (hop : l.inOp = true) (hown : 0 ≤ l.own) (hd : l.lock dp = none) :
    Obeys (unlinkBad dp) (fun _ l' => l' = l.leave) ((l.mode dp (some .clean)).gain dp) := by
  unfold unlinkBad
  exact put_end_obeys hop hown hd rfl

theorem unlinkEntry_obeys (off type : Nat) (hne : dp ≠ ip) (hop : l.inOp = true) (hown : 0 ≤ l.own)
    (hd : l.lock dp = none)
    (hi : l.lock ip = none) : Obeys (unlinkEntry dp off ip type) (fun _ l' => l' = l.leave) (l.pair dp ip) := by
  have hlock : (l.pair dp ip).lock dp = some .clean := by
    rw [Local.pair_comm hne]
    exact Local.lock_pair_right
  have hdir : Obeys (if type = T_DIR then do op (.modify dp (addNlink (-1))); iupdate dp else pure ())
      (fun _ l' => l' = l.pair dp ip) (l.pair dp ip) := by
    split_ifs
    · exact write_back_obeys dp _ (keeps_addNlink _) hlock
    · exact rfl
  unfold unlinkEntry
  refine obeys_op hlock fun _ _ => ⟨_, rfl, ?_⟩
  refine obeys_bind hdir ?_
  rintro _ _ rfl
  refine obeys_bind (put_first_obeys hne hown hd) ?_
  rintro _ _ rfl
  exact write_back_bind _ (keeps_addNlink _) (Local.lock_mode_self ..) (put_end_obeys hop hown hi rfl)

theorem fullDir_obeys (type : Nat) (h : l.lock ip = some .clean) : Obeys (fullDir ip type) (fun _ l' => l' = l) l := by
  unfold fullDir
  split_ifs
  · exact obeys_op h fun _ _ => ⟨l, rfl, rfl⟩
  · exact rfl

theorem sys_unlink_obeys (path : Option (List Char)) (hop : l.inOp = false) (hown : 0 ≤ l.own) :
    Obeys (sys_unlink path) (fun _ l' => l' = l) l := by
  rcases path with _ | path
  · exact rfl
  unfold sys_unlink
  refine begin_obeys hop ?_
  have hdone := Local.enter_leave hop
  replace hown : 0 ≤ l.enter.own := hown
  refine obeys_bind (nameiparent_obeys path hown) ?_
  rintro (_ | ⟨dp, name⟩) l' ⟨hnone, hsome⟩
  · rw [hnone rfl]
    exact end_obeys rfl hdone
  rw [hsome dp name rfl]
  refine obeys_bind (ilock_obeys dp (.inl (Local.owns_gain hown))) ?_
  rintro _ _ ⟨hd, rfl⟩
  rw [Local.mode_gain]
  have hbad : Obeys (unlinkBad dp) (fun _ l' => l' = l) ((l.enter.mode dp (some .clean)).gain dp) := by
    rw [← hdone]
    exact unlinkBad_obeys rfl hown hd
  split_ifs
  · exact hbad
  refine obeys_bind (dirlookup_obeys dp name (Local.lock_mode_self ..) (.inl (Local.owns_gain hown))) ?_
  rintro (_ | ⟨ip, off⟩) l' ⟨hnone, hsome⟩
  · rw [hnone rfl]
    exact hbad
  rw [hsome ip off rfl]
  refine obeys_bind (lock_second_obeys hown) ?_
  rintro _ _ ⟨hne, hi, rfl⟩
  refine obeys_op (by simp [Op.pre, Local.lock_pair_right]) fun ⟨_, d⟩ _ => ⟨_, .inl rfl, ?_⟩
  refine obeys_bind (obeys_expect _ _ (fun _ l' => l' = l.enter.pair dp ip) fun _ => rfl) ?_
  rintro _ _ rfl
  refine obeys_bind (fullDir_obeys _ Local.lock_pair_right) ?_
  rintro full _ rfl
  split_ifs
  · refine obeys_bind (put_second_obeys hne hown hi) ?_
    rintro _ _ rfl
    exact hbad
  · rw [← hdone]
    exact unlinkEntry_obeys off _ hne rfl hown hd hi

theorem must_link_obeys (dp : Slot) (name : Name) (inum : Nat) (msg : String) {k : P β} (hl : l.lock dp = some .clean)
    (h : l.Holds dp) (hown : 0 ≤ l.own) (hk : Obeys k Q l) :
    Obeys (dirlink dp name inum >>= fun ok => expect ok msg >>= fun _ => k) Q l := by
  refine obeys_bind (dirlink_obeys dp name inum hl h hown) ?_
  rintro ok l' rfl
  refine obeys_bind (obeys_expect _ _ (fun _ l'' => l'' = l') fun _ => rfl) ?_
  rintro _ _ rfl
  exact hk

theorem createDots_obeys (hne : dp ≠ ip) (hown : 0 ≤ l.own) :
    Obeys (createDots dp ip) (fun _ l' => l' = l.pair dp ip) (l.pair dp ip) := by
  have hdp : (l.pair dp ip).Owns dp ∧ (l.pair dp ip).lock dp = some .clean := by
    rw [Local.pair_comm hne]
    exact ⟨Local.owns_pair_right hown, Local.lock_pair_right⟩
  have hip : (l.pair dp ip).Holds ip := .inl (Local.owns_pair_right hown)
  unfold createDots
  refine write_back_bind _ (keeps_addNlink _) hdp.2 ?_
  refine obeys_op hip fun ⟨_, inum⟩ _ => ⟨_, rfl, ?_⟩
  refine must_link_obeys ip dot inum _ Local.lock_pair_right hip (Local.nonneg_pair hown) ?_
  refine obeys_op (.inl hdp.1) fun ⟨_, dinum⟩ _ => ⟨_, rfl, ?_⟩
  refine obeys_bind (dirlink_obeys ip dotdot dinum Local.lock_pair_right hip (Local.nonneg_pair hown)) ?_
  rintro ok _ rfl
  exact obeys_expect _ _ _ fun _ => rfl

theorem createEntry_obeys (name : Name) (type : Nat) (hne : dp ≠ ip) (hown : 0 ≤ l.own) (hd : l.lock dp = none) :
    Obeys (createEntry dp name ip type) (fun r l' => r = some ip ∧ l' = (l.mode ip (some .clean)).gain ip)
      (l.pair dp ip) := by
  have hdots : Obeys (if type = T_DIR then createDots dp ip else pure ()) (fun _ l' => l' = l.pair dp ip)
    (l.pair dp ip) := by
    split_ifs
    · exact createDots_obeys hne hown
    · exact rfl
  have hdp : (l.pair dp ip).Owns dp ∧ (l.pair dp ip).lock dp = some .clean := by
    rw [Local.pair_comm hne]
    exact ⟨Local.owns_pair_right hown, Local.lock_pair_right⟩
  unfold createEntry
  refine obeys_bind hdots ?_
  rintro _ _ rfl
  refine obeys_op (.inl (Local.owns_pair_right hown)) fun ⟨_, inum⟩ _ => ⟨_, rfl, ?_⟩
  refine must_link_obeys dp name inum _ hdp.2 (.inl hdp.1) (Local.nonneg_pair hown) ?_
  refine obeys_bind (put_first_obeys hne hown hd) ?_
  rintro _ _ rfl
  exact ⟨rfl, rfl⟩

abbrev Returned (l : Local) (r : Option Slot) (l' : Local) : Prop :=
  (r = none → l' = l) ∧ ∀ i, r = some i → l.lock i = none ∧ l' = (l.mode i (some .clean)).gain i

theorem returned_none : Returned l none l := ⟨fun _ => rfl, by simp⟩

theorem returned_some (hi : l.lock i = none) : Returned l (some i) ((l.mode i (some .clean)).gain i) := by
  refine ⟨by simp, ?_⟩
  rintro _ ⟨⟩
  exact ⟨hi, rfl⟩

theorem put_none_obeys (hown : 0 ≤ l.own) (hi : l.lock i = none) :
    Obeys (do iunlockput i; pure none) (Returned l) ((l.mode i (some .clean)).gain i) := by
  refine obeys_bind (put_obeys i hown hi) ?_
  rintro _ _ rfl
  exact returned_none

theorem create_obeys (path : List Char) (type major minor : Nat) (ht : type ≠ 0 ∧ type < 2 ^ 16) (hown : 0 ≤ l.own) :
    Obeys (create path type major minor) (Returned l) l := by
  unfold create
  refine obeys_bind (nameiparent_obeys path hown) ?_
  rintro (_ | ⟨dp, name⟩) l' ⟨hnone, hsome⟩
  · rw [hnone rfl]
    exact returned_none
  rw [hsome dp name rfl]
  refine obeys_bind (ilock_obeys dp (.inl (Local.owns_gain hown))) ?_
  rintro _ _ ⟨hd, rfl⟩
  rw [Local.mode_gain]
  have hdp : ((l.mode dp (some .clean)).gain dp).Holds dp := .inl (Local.owns_gain hown)
  refine obeys_bind (dirlookup_obeys dp name (Local.lock_mode_self ..) hdp) ?_
  rintro (_ | ⟨ip, off⟩) l' ⟨hnone, hsome⟩
  · rw [hnone rfl]
    refine obeys_op hdp fun ⟨dev, _⟩ hdev => ⟨_, rfl, ?_⟩
    obtain rfl : dev = ROOTDEV := hdev
    refine obeys_bind (ialloc_obeys type ht) ?_
    rintro ip _ rfl
    refine obeys_bind (lock_second_obeys hown) ?_
    rintro _ _ ⟨hne, hi, rfl⟩
    refine write_back_bind _ (keeps_initInode major minor) Local.lock_pair_right ?_
    refine (createEntry_obeys name type hne hown hd).mono ?_
    rintro _ _ ⟨rfl, rfl⟩
    exact returned_some hi
  · rw [hsome ip off rfl, Local.gain_comm]
    refine obeys_bind (put_obeys dp (Local.nonneg_gain hown) hd) ?_
    rintro _ _ rfl
    refine obeys_bind (ilock_obeys ip (.inl (Local.owns_gain hown))) ?_
    rintro _ _ ⟨hi, rfl⟩
    refine obeys_op (by simp [Op.pre]) fun ⟨_, d⟩ _ => ⟨_, .inl rfl, ?_⟩
    dsimp only
    split_ifs
    · exact returned_some hi
    · exact put_none_obeys hown hi

theorem created_obeys (r : Option Slot) {l' : Local} (hr : Returned l r l') (hop : l.inOp = true) (hown : 0 ≤ l.own) :
    Obeys (created r) (fun _ l'' => l'' = l.leave) l' := by
  unfold created
  rcases r with _ | ip
  · rw [hr.1 rfl]
    exact end_obeys hop rfl
  · obtain ⟨hi, rfl⟩ := hr.2 ip rfl
    exact put_end_obeys hop hown hi rfl

theorem sys_mkdir_obeys (path : Option (List Char)) (hop : l.inOp = false) (hown : 0 ≤ l.own) :
    Obeys (sys_mkdir path) (fun _ l' => l' = l) l := by
  unfold sys_mkdir
  refine begin_obeys hop ?_
  rw [← Local.enter_leave hop]
  rcases path with _ | path
  · exact created_obeys none returned_none rfl hown
  · exact obeys_bind (create_obeys path T_DIR 0 0 (by decide) hown) fun r _ hr => created_obeys r hr rfl hown

theorem sys_mknod_obeys (path : Option (List Char)) (major minor : Option Nat) (hop : l.inOp = false)
    (hown : 0 ≤ l.own) :
    Obeys (sys_mknod path major minor) (fun _ l' => l' = l) l := by
  unfold sys_mknod
  refine begin_obeys hop ?_
  rw [← Local.enter_leave hop]
  split
  · exact obeys_bind (create_obeys _ T_DEV _ _ (by decide) hown) fun r _ hr => created_obeys r hr rfl hown
  · exact created_obeys none returned_none rfl hown

theorem openInode_obeys (path : List Char) (omode : Nat) (hown : 0 ≤ l.own) :
    Obeys (openInode path omode) (Returned l) l := by
  unfold openInode
  split_ifs
  · exact create_obeys path T_FILE 0 0 (by decide) hown
  refine obeys_bind (namei_obeys path hown) ?_
  rintro (_ | ip) l' ⟨hnone, hsome⟩
  · rw [hnone rfl]
    exact returned_none
  rw [hsome ip rfl]
  refine obeys_bind (ilock_obeys ip (.inl (Local.owns_gain hown))) ?_
  rintro _ _ ⟨hi, rfl⟩
  refine obeys_op (by simp [Op.pre]) fun ⟨_, d⟩ _ => ⟨_, .inl rfl, ?_⟩
  dsimp only
  split_ifs
  · exact put_none_obeys hown hi
  · exact returned_some hi

theorem fileclose_obeys (f : Fin NFILE) (hop : l.inOp = false) (hown : 0 ≤ l.own) (hip : l.ip = none)
    (hf : l.OwnsFile f) :
    Obeys (fileclose f) (fun _ l' => l' = { l with fresh := none, fown := l.fown - one f }) l := by
  unfold fileclose
  refine obeys_op ⟨hip, hf⟩ fun r _ => ⟨_, rfl, ?_⟩
  rcases r with _ | ip
  · exact congrArg (fun own => { l with fresh := none, fown := l.fown - one f, own := own }) (add_zero _)
  · refine begin_obeys hop ?_
    have howns : Local.Owns (Local.enter { l with fresh := none, fown := l.fown - one f, own := l.own + one ip }) ip :=
      Local.owns_gain hown
    refine obeys_bind (iput_obeys ip howns) ?_
    rintro _ _ ⟨-, rfl⟩
    refine obeys_last rfl fun _ _ => ⟨_, rfl, ?_⟩
    simp [Local.enter, Local.drop, hop]

theorem fileclose_fresh_obeys (f : Fin NFILE) (hip : l.ip = none) (hfresh : l.fresh = some f) (hf : 0 < l.fown f) :
    Obeys (fileclose f) (fun _ l' => l' = { l with fresh := none, fown := l.fown - one f }) l := by
  unfold fileclose
  refine obeys_op ⟨hip, .inl hf⟩ fun r hr => ⟨_, rfl, ?_⟩
  obtain rfl := hr hfresh
  exact congrArg (fun own => { l with fresh := none, fown := l.fown - one f, own := own }) (add_zero _)

theorem openBad_obeys (hop : l.inOp = true) (hown : 0 ≤ l.own) (hi : l.lock ip = none) :
    Obeys (openBad ip) (fun _ l' => l' = l.leave) ((l.mode ip (some .clean)).gain ip) := by
  unfold openBad
  exact put_end_obeys hop hown hi rfl

theorem openFile_obeys (omode : Nat) (hop : l.inOp = true) (hl : l.leave.Done) (hip : l.ip = none) :
    Obeys (openFile ip omode) (fun _ l' => l'.Done) ((l.mode ip (some .clean)).gain ip) := by
  have hown : 0 ≤ l.own := le_of_eq hl.own.symm
  have hi : l.lock ip = none := congrFun hl.lock ip
  have hfown : l.fown = 0 := hl.fown
  unfold openFile
  refine obeys_op trivial fun r _ => ⟨_, rfl, ?_⟩
  rcases r with _ | f
  · refine (openBad_obeys (l := { l with fresh := none, fown := l.fown + 0 }) hop hown hi).mono ?_
    rintro _ _ rfl
    exact ⟨hl.own, hl.lock, rfl, by simp [Local.leave, hfown]⟩
  refine obeys_op trivial fun fd _ => ⟨_, rfl, ?_⟩
  rcases fd with _ | fd
  · have hpos : 0 < (l.fown + one f - 0) f := by simp [hfown]
    refine obeys_bind (fileclose_fresh_obeys f hip rfl hpos) ?_
    rintro _ _ rfl
    refine (openBad_obeys (l := { l with fresh := none, fown := l.fown + one f - 0 - one f }) hop hown hi).mono ?_
    rintro _ _ rfl
    exact ⟨hl.own, hl.lock, rfl, by simp [Local.leave, hfown]⟩
  · refine obeys_bind (iunlock_obeys ip Local.lock_mode_self) ?_
    rintro _ _ rfl
    refine end_obeys hop ?_
    refine obeys_op ⟨rfl, Local.lock_mode_self, ?_⟩ fun _ _ => ⟨_, rfl, ?_⟩
    · have := hown ip
      simp [Local.mode, Local.gain, Local.leave]
      simp only [Pi.zero_apply] at this
      omega
    · refine ⟨?_, ?_, rfl, ?_⟩
      · simpa [Local.mode, Local.gain, Local.leave] using hl.own
      · show (((l.mode ip (some .clean)).mode ip none).lock) = _
        rw [Local.mode_mode, Local.mode_none hi]
        exact hl.lock
      · simp [Local.mode, Local.gain, Local.leave, hfown]

theorem sys_open_obeys (path : Option (List Char)) (omode : Option Nat) (hl : l.Done) (hip : l.ip = none) :
    Obeys (sys_open path omode) (fun _ l' => l'.Done) l := by
  rcases path with _ | path
  · exact hl
  rcases omode with _ | omode
  · exact hl
  have hown : 0 ≤ l.own := le_of_eq hl.own.symm
  have hdone := Local.enter_leave hl.inOp
  unfold sys_open
  refine begin_obeys hl.inOp ?_
  refine obeys_bind (openInode_obeys path omode hown) ?_
  rintro (_ | ip) l' hr
  · rw [hr.1 rfl]
    refine end_obeys rfl ?_
    rw [hdone]
    exact hl
  · obtain ⟨-, rfl⟩ := hr.2 ip rfl
    exact openFile_obeys omode rfl (by rwa [hdone]) hip

theorem chdirTo_obeys (hop : l.inOp = true) (hl : l.leave.Done) :
    Obeys (chdirTo ip) (fun _ l' => l'.Done) (l.gain ip) := by
  have hown : 0 ≤ l.own := le_of_eq hl.own.symm
  have hzero : l.own = 0 := hl.own
  unfold chdirTo
  refine obeys_bind (ilock_obeys ip (.inl (Local.owns_gain hown))) ?_
  rintro _ _ ⟨hi, rfl⟩
  refine obeys_op (by simp [Op.pre]) fun ⟨_, d⟩ _ => ⟨_, .inl rfl, ?_⟩
  dsimp only
  split_ifs
  · exact put_end_obeys hop hown hi hl
  refine obeys_bind (iunlock_obeys ip Local.lock_mode_self) ?_
  rintro _ _ rfl
  rw [Local.mode_mode, Local.mode_none hi]
  refine obeys_op trivial fun cwd _ => ⟨_, rfl, ?_⟩
  -- The reference of the old directory goes first; the new one is given to the process by `setCwd`.
  have hcwd : Local.Owns { l.gain ip with cwd := some (some cwd) } cwd := by
    rcases eq_or_ne cwd ip with rfl | hne
    · exact .inl (by simp [Local.gain, hzero])
    · exact .inr ⟨by simp [Local.gain, hzero, hne], rfl⟩
  refine obeys_bind (iput_obeys cwd hcwd) ?_
  rintro _ _ ⟨-, rfl⟩
  refine end_obeys hop ?_
  refine obeys_op ⟨cwd, rfl⟩ fun _ _ => ⟨_, ⟨cwd, rfl, rfl⟩, ?_⟩
  refine ⟨?_, hl.lock, rfl, hl.fown⟩
  simp [Local.leave, Local.drop, Local.gain, hzero]

theorem sys_chdir_obeys (path : Option (List Char)) (hl : l.Done) : Obeys (sys_chdir path) (fun _ l' => l'.Done) l := by
  have hown : 0 ≤ l.enter.own := le_of_eq hl.own.symm
  have hdone : l.enter.leave.Done := by rwa [Local.enter_leave hl.inOp]
  unfold sys_chdir
  refine begin_obeys hl.inOp ?_
  rcases path with _ | path
  · exact end_obeys rfl hdone
  refine obeys_bind (namei_obeys path hown) ?_
  rintro (_ | ip) l' ⟨hnone, hsome⟩
  · rw [hnone rfl]
    exact end_obeys rfl hdone
  · rw [hsome ip rfl]
    exact chdirTo_obeys rfl hdone

theorem argfd_obeys (fd : Option Nat) :
    Obeys (argfd fd) (fun r l' => l' = { l with desc := l'.desc } ∧ ∀ fd f, r = some (fd, f) →
      l'.desc = some (fd, f)) l := by
  unfold argfd
  rcases fd with _ | fd
  · exact ⟨rfl, by simp⟩
  dsimp only
  split_ifs with h
  · refine obeys_op trivial fun r _ => ⟨_, rfl, rfl, ?_⟩
    rintro fd f hr
    exact hr
  · exact ⟨rfl, by simp⟩

theorem sys_dup_obeys (fd : Option Nat) (hl : l.Done) : Obeys (sys_dup fd) (fun _ l' => l'.Done) l := by
  unfold sys_dup
  refine obeys_bind (argfd_obeys fd) ?_
  rintro (_ | ⟨fd, f⟩) l' ⟨he, -⟩
  · rw [he]
    exact ⟨hl.own, hl.lock, hl.inOp, hl.fown⟩
  rw [he]
  refine obeys_op trivial fun r _ => ⟨_, rfl, ?_⟩
  rcases r with _ | fd
  · exact ⟨hl.own, hl.lock, hl.inOp, by simp [hl.fown]⟩
  · refine obeys_op trivial fun _ _ => ⟨_, rfl, ?_⟩
    exact ⟨hl.own, hl.lock, hl.inOp, by simp [hl.fown]⟩

theorem sys_close_obeys (fd : Option Nat) (hl : l.Done) (hip : l.ip = none) :
    Obeys (sys_close fd) (fun _ l' => l'.Done) l := by
  unfold sys_close
  refine obeys_bind (argfd_obeys fd) ?_
  rintro (_ | ⟨fd, f⟩) l' ⟨he, hdesc⟩
  · rw [he]
    exact ⟨hl.own, hl.lock, hl.inOp, hl.fown⟩
  replace hdesc := hdesc fd f rfl
  rw [he, hdesc]
  refine obeys_op ⟨hip, f, rfl⟩ fun _ _ => ⟨_, ⟨f, rfl, rfl⟩, ?_⟩
  have hpos : 0 < (l.fown + one f) f := by simp [hl.fown]
  refine obeys_bind (fileclose_obeys f hl.inOp (le_of_eq hl.own.symm) hip (.inl hpos)) ?_
  rintro _ _ rfl
  exact ⟨hl.own, hl.lock, hl.inOp, by simp [hl.fown]⟩

theorem addOff_obeys (f : Fin NFILE) (b : Prop) [Decidable b] (n : Nat) :
    Obeys (if b then op (.addOff f n) else pure ()) (fun _ l' => l' = l) l := by
  split_ifs
  · exact obeys_last trivial fun _ _ => ⟨l, rfl, rfl⟩
  · exact rfl

theorem fileread_obeys (f : Fin NFILE) (n : Nat) (hl : l.Done) (hdesc : ∃ fd, l.desc = some (fd, f)) :
    Obeys (fileread f n) (fun _ l' => l'.Done) l := by
  have hfile : 0 ≤ l.fown f := by rw [hl.fown]; rfl
  unfold fileread
  refine obeys_op ⟨hfile, hdesc⟩ fun v _ => ⟨_, .inr ⟨hl.lock, rfl⟩, ?_⟩
  have hdone : Local.Done { l with ip := v.ip.map (f, ·) } := ⟨hl.own, hl.lock, hl.inOp, hl.fown⟩
  split_ifs
  · exact hdone
  rcases hip : v.ip with _ | ip
  · exact obeys_panic _ _
  rw [hip] at hdone
  refine obeys_bind (ilock_obeys ip (.inr ⟨f, rfl⟩)) ?_
  rintro _ _ ⟨hi, rfl⟩
  refine obeys_op ⟨hfile, hdesc⟩ fun w _ => ⟨_, .inl rfl, ?_⟩
  refine obeys_op Local.lock_mode_self fun r _ => ⟨_, rfl, ?_⟩
  refine obeys_bind (addOff_obeys f _ _) ?_
  rintro _ _ rfl
  refine obeys_bind (iunlock_obeys ip Local.lock_mode_self) ?_
  rintro _ _ rfl
  rw [Local.mode_mode, Local.mode_none hi]
  exact hdone

theorem writeChunk_obeys (f : Fin NFILE) (src : List Byte) (hop : l.inOp = false) (hfile : 0 ≤ l.fown f)
    (hdesc : ∃ fd, l.desc = some (fd, f)) (hip : l.ip = some (f, ip)) :
    Obeys (writeChunk f ip src) (fun _ l' => l' = l) l := by
  unfold writeChunk
  refine begin_obeys hop ?_
  refine obeys_bind (ilock_obeys ip (.inr ⟨f, hip⟩)) ?_
  rintro _ _ ⟨hi, rfl⟩
  refine obeys_op ⟨hfile, hdesc⟩ fun w _ => ⟨_, .inl rfl, ?_⟩
  refine obeys_op Local.lock_mode_self fun r _ => ⟨_, rfl, ?_⟩
  refine obeys_bind (addOff_obeys f _ _) ?_
  rintro _ _ rfl
  refine obeys_bind (iunlock_obeys ip Local.lock_mode_self) ?_
  rintro _ _ rfl
  rw [Local.mode_mode, Local.mode_none hi]
  exact end_obeys rfl (Local.enter_leave hop)

theorem writeChunks_obeys (f : Fin NFILE) (fuel : Nat) (src : List Byte) (hop : l.inOp = false) (hfile : 0 ≤ l.fown f)
    (hdesc : ∃ fd, l.desc = some (fd, f)) (hip : l.ip = some (f, ip)) :
    Obeys (writeChunks f ip fuel src) (fun _ l' => l' = l) l := by
  induction fuel generalizing src with
  | zero => exact rfl
  | succ fuel ih =>
    unfold writeChunks
    split_ifs
    · exact rfl
    refine obeys_bind (writeChunk_obeys f _ hop hfile hdesc hip) ?_
    rintro r l' rfl
    split_ifs
    · exact rfl
    refine obeys_bind (obeys_expect _ _ (fun _ l'' => l'' = l') fun _ => rfl) ?_
    rintro _ _ rfl
    exact ih _

theorem filewrite_obeys (f : Fin NFILE) (src : List Byte) (hl : l.Done) (hdesc : ∃ fd, l.desc = some (fd, f)) :
    Obeys (filewrite f src) (fun _ l' => l'.Done) l := by
  have hfile : 0 ≤ l.fown f := by rw [hl.fown]; rfl
  unfold filewrite
  refine obeys_op ⟨hfile, hdesc⟩ fun v _ => ⟨_, .inr ⟨hl.lock, rfl⟩, ?_⟩
  have hdone : Local.Done { l with ip := v.ip.map (f, ·) } := ⟨hl.own, hl.lock, hl.inOp, hl.fown⟩
  split_ifs
  · exact hdone
  rcases hip : v.ip with _ | ip
  · exact obeys_panic _ _
  rw [hip] at hdone
  refine obeys_bind (writeChunks_obeys f _ src hl.inOp hfile hdesc rfl) ?_
  rintro _ _ rfl
  exact hdone

theorem sys_read_obeys (fd n : Option Nat) (hl : l.Done) : Obeys (sys_read fd n) (fun _ l' => l'.Done) l := by
  unfold sys_read
  refine obeys_bind (argfd_obeys fd) ?_
  rintro r l' ⟨he, hdesc⟩
  have hl' : l'.Done := by
    rw [he]
    exact ⟨hl.own, hl.lock, hl.inOp, hl.fown⟩
  split
  · exact fileread_obeys _ _ hl' ⟨_, hdesc _ _ rfl⟩
  · exact hl'

theorem sys_write_obeys (fd : Option Nat) (src : Option (List Byte)) (hl : l.Done) :
    Obeys (sys_write fd src) (fun _ l' => l'.Done) l := by
  unfold sys_write
  refine obeys_bind (argfd_obeys fd) ?_
  rintro r l' ⟨he, hdesc⟩
  have hl' : l'.Done := by
    rw [he]
    exact ⟨hl.own, hl.lock, hl.inOp, hl.fown⟩
  split
  · exact filewrite_obeys _ _ hl' ⟨_, hdesc _ _ rfl⟩
  · exact hl'

theorem readAll_obeys (off n : Nat) (h : l.lock ip = some .clean) : Obeys (readAll ip off n) (fun _ l' => l' = l) l :=
  obeys_op h fun _ _ => ⟨l, rfl, rfl⟩

theorem loaduvm_obeys (off sz fuel k : Nat) (h : l.lock ip = some .clean) :
    Obeys (loaduvm ip off sz fuel k) (fun _ l' => l' = l) l := by
  induction fuel generalizing k with
  | zero => exact rfl
  | succ fuel ih =>
    unfold loaduvm
    split_ifs
    · refine obeys_bind (readAll_obeys _ _ h) ?_
      rintro r _ rfl
      split_ifs
      · exact rfl
      · exact ih _
    · exact rfl

theorem loadSegments_obeys (mem : Memory) (n off k : Nat) (h : l.lock ip = some .clean) :
    Obeys (loadSegments mem ip n off k) (fun _ l' => l' = l) l := by
  induction n generalizing off k with
  | zero => exact rfl
  | succ n ih =>
    unfold loadSegments
    refine obeys_bind (readAll_obeys _ _ h) ?_
    rintro (_ | ph) _ rfl
    · exact rfl
    dsimp only
    split_ifs
    · exact ih _ _
    · exact rfl
    · exact rfl
    · exact rfl
    · exact rfl
    · refine obeys_bind (loaduvm_obeys _ _ _ _ h) ?_
      rintro ok _ rfl
      split_ifs
      · exact ih _ _
      · exact rfl

theorem loadProgram_obeys (mem : Memory) (h : l.lock ip = some .clean) :
    Obeys (loadProgram mem ip) (fun _ l' => l' = l) l := by
  unfold loadProgram
  refine obeys_bind (readAll_obeys _ _ h) ?_
  rintro (_ | elf) _ rfl
  · exact rfl
  dsimp only
  split_ifs
  · exact rfl
  · exact rfl
  · exact loadSegments_obeys mem _ _ _ h

theorem exec_obeys (mem : Memory) (path : List Char) (argv : List (List Char)) (hop : l.inOp = false)
    (hown : 0 ≤ l.own) :
    Obeys (exec mem path argv) (fun _ l' => l' = l) l := by
  have hdone := Local.enter_leave hop
  replace hown : 0 ≤ l.enter.own := hown
  unfold exec
  refine begin_obeys hop ?_
  refine obeys_bind (namei_obeys path hown) ?_
  rintro (_ | ip) l' ⟨hnone, hsome⟩
  · rw [hnone rfl]
    exact end_obeys rfl hdone
  rw [hsome ip rfl]
  refine obeys_bind (ilock_obeys ip (.inl (Local.owns_gain hown))) ?_
  rintro _ _ ⟨hi, rfl⟩
  refine obeys_bind (loadProgram_obeys mem Local.lock_mode_self) ?_
  rintro (_ | k) _ rfl
  · exact put_end_obeys rfl hown hi hdone
  · exact put_end_obeys rfl hown hi hdone

theorem dupFiles_obeys (np : Fin NPROC) (fds : List (Fin NOFILE)) (hl : l.Done) (hnp : l.child = some np)
    (hip : l.ip = none) (hfresh : l.fresh = none) :
    Obeys (dupFiles np fds) (fun _ l' => l'.Done ∧ l'.child = some np) l := by
  induction fds generalizing l with
  | nil => exact ⟨hl, hnp⟩
  | cons fd fds ih =>
    unfold dupFiles
    refine obeys_op trivial fun r _ => ⟨_, rfl, ?_⟩
    rcases r with _ | f
    · exact ih ⟨hl.own, hl.lock, hl.inOp, hl.fown⟩ hnp hip hfresh
    refine obeys_op trivial fun _ _ => ⟨_, rfl, ?_⟩
    have hpos : 0 < (l.fown + one f) f := by simp [hl.fown]
    refine obeys_op ⟨hnp, hip, hfresh, hpos⟩ fun _ _ => ⟨_, rfl, ih ⟨hl.own, hl.lock, hl.inOp, ?_⟩ hnp hip hfresh⟩
    simp [hl.fown]

theorem fork_obeys (kalloc copyuvm : Bool) (hl : l.Done) (hip : l.ip = none) (hfresh : l.fresh = none) :
    Obeys (fork kalloc copyuvm) (fun _ l' => l'.Done) l := by
  unfold fork
  refine obeys_op trivial fun r _ => ⟨_, rfl, ?_⟩
  have hl' : Local.Done { l with child := r } := ⟨hl.own, hl.lock, hl.inOp, hl.fown⟩
  rcases r with _ | np
  · exact hl'
  split_ifs
  · exact obeys_op rfl fun _ _ => ⟨_, rfl, hl.own, hl.lock, hl.inOp, hl.fown⟩
  refine obeys_bind (dupFiles_obeys np _ hl' rfl hip hfresh) ?_
  rintro _ l ⟨hl, hnp⟩
  refine obeys_op (le_of_eq hl.own.symm) fun ip _ => ⟨_, rfl, ?_⟩
  have hpos : 0 < (l.gain ip).own ip := by simp [Local.gain, hl.own]
  refine obeys_last ⟨hnp, congrFun hl.lock ip, hpos⟩ fun _ _ => ⟨_, rfl, ?_, hl.lock, hl.inOp, hl.fown⟩
  simp [Local.gain, hl.own]

theorem closeFiles_obeys (fds : List (Fin NOFILE)) (hl : l.Done) (hip : l.ip = none) :
    Obeys (closeFiles fds) (fun _ l' => l'.Done ∧ l'.ip = none) l := by
  induction fds generalizing l with
  | nil => exact ⟨hl, hip⟩
  | cons fd fds ih =>
    unfold closeFiles
    refine obeys_op trivial fun r _ => ⟨_, rfl, ?_⟩
    rcases r with _ | f
    · exact ih ⟨hl.own, hl.lock, hl.inOp, hl.fown⟩ hip
    have hzero : l.fown f = 0 := by rw [hl.fown]; rfl
    have hclose : Obeys (do fileclose f; op (.clearFd fd)) (fun _ l' => l'.Done ∧ l'.ip = none)
        { l with desc := some (fd, f) } := by
      refine obeys_bind (fileclose_obeys f hl.inOp (le_of_eq hl.own.symm) hip (.inr ⟨hzero, fd, rfl⟩)) ?_
      rintro _ _ rfl
      refine obeys_last ⟨hip, f, rfl⟩ fun _ _ => ⟨_, ⟨f, rfl, rfl⟩, ⟨hl.own, hl.lock, hl.inOp, ?_⟩, hip⟩
      simp [hl.fown]
    exact obeys_bind hclose fun _ l' hl' => ih hl'.1 hl'.2

theorem exit2_obeys (status : Int) (hl : l.Done) (hip : l.ip = none) :
    Obeys (exit2 status) (fun _ l' => l'.Done) l := by
  unfold exit2
  refine obeys_op trivial fun _ _ => ⟨l, rfl, ?_⟩
  refine obeys_op trivial fun _ _ => ⟨l, rfl, ?_⟩
  refine obeys_bind (obeys_expect _ _ (fun _ l' => l' = l) fun _ => rfl) ?_
  rintro _ _ rfl
  refine obeys_bind (closeFiles_obeys _ hl hip) ?_
  rintro _ l ⟨hl, -⟩
  refine begin_obeys hl.inOp ?_
  refine obeys_op trivial fun cwd _ => ⟨_, rfl, ?_⟩
  have hcwd : Local.Owns { l.enter with cwd := some (some cwd) } cwd :=
    .inr ⟨by rw [show l.enter.own = 0 from hl.own]; rfl, rfl⟩
  refine obeys_bind (iput_obeys cwd hcwd) ?_
  rintro _ _ ⟨-, rfl⟩
  refine end_obeys rfl ?_
  refine obeys_op ⟨cwd, rfl⟩ fun _ _ => ⟨_, ⟨cwd, rfl, rfl⟩, ?_⟩
  have hdone : Local.Done { (Local.drop { l.enter with cwd := some (some cwd) } cwd).leave with
      own := l.own - one cwd + one cwd - 0, cwd := some none } :=
    ⟨by simp [hl.own], hl.lock, rfl, hl.fown⟩
  exact obeys_last ⟨rfl, hdone⟩ fun _ _ => ⟨_, rfl, Local.done_idle⟩

/-- Each call obeys the rules and ends without references, locks, files or a transaction of its own. -/
theorem call_obeys (c : Call) : Obeys c.prog (fun _ l => l.Done) .idle := by
  have h : Local.idle.Done := Local.done_idle
  have hsame : ∀ {x : P Int}, Obeys x (fun _ l => l = Local.idle) .idle → Obeys x (fun _ l => l.Done) .idle := by
    intro x hx
    refine hx.mono ?_
    rintro _ _ rfl
    exact h
  cases c with
  | link old new => exact hsame (sys_link_obeys old new rfl le_rfl)
  | unlink path => exact hsame (sys_unlink_obeys path rfl le_rfl)
  | «open» path omode => exact sys_open_obeys path omode h rfl
  | mkdir path => exact hsame (sys_mkdir_obeys path rfl le_rfl)
  | mknod path major minor => exact hsame (sys_mknod_obeys path major minor rfl le_rfl)
  | chdir path => exact sys_chdir_obeys path h
  | close fd => exact sys_close_obeys fd h rfl
  | dup fd => exact sys_dup_obeys fd h
  | read fd n => exact sys_read_obeys fd n h
  | write fd src => exact sys_write_obeys fd src h
  | exec mem path argv => exact hsame (exec_obeys mem path argv rfl le_rfl)
  | fork kalloc copyuvm => exact fork_obeys kalloc copyuvm h rfl rfl
  | exit => exact obeys_bind (exit2_obeys 0 h rfl) fun _ _ hl => hl
  | exit2 status => exact obeys_bind (exit2_obeys status h rfl) fun _ _ hl => hl
  | wait => exact obeys_last trivial fun _ _ => ⟨_, rfl, h⟩

end Xv6.Sys
