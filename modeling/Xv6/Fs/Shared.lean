import Mathlib
import Xv6.Fs.Calls
import Xv6.Fs.Knows
import Xv6.Fs.Links

/-!
# What processes in the middle of calls keep together

Reference counts cover the references of all processes, a lock is held by the process that
took it, and what each process knows stays true under the operations of the others. Directories
are ordered by their births: an entry other than `.` and `..` leads to a younger directory.
-/

open Lib Function

namespace Xv6

variable {nproc : Nat} {s s' : Fs nproc} {L : Fin nproc → Local} {p : Fin nproc} {a : Op} {r : Res a} {l l' : Local}

def sideRefs (drop : Option Nat) (taken : Bool) (cwd i : Nat) : Nat :=
  (if drop = some i then 1 else 0) + if taken = false ∧ cwd = i then 1 else 0

theorem sideRefs_drop (i : Nat) (taken : Bool) (cwd j : Nat) :
    sideRefs (some i) taken cwd j = sideRefs none taken cwd j + if j = i then 1 else 0 := by
  unfold sideRefs
  simp only [Option.some.injEq, reduceCtorEq, if_false, eq_comm (a := i)]
  omega

theorem sideRefs_cwd (drop : Option Nat) (cwd cwd' j : Nat) :
    sideRefs drop false cwd j = sideRefs drop true cwd' j + if j = cwd then 1 else 0 := by
  unfold sideRefs
  simp [eq_comm]

def Local.refs (l : Local) (cwd i : Nat) : Nat := l.own i + sideRefs l.drop l.taken cwd i

def ipRefs (v : File) (i : Nat) : Nat := if v.ip = some i then 1 else 0

def Counted (s : Fs nproc) (L : Fin nproc → Local) : Prop :=
  ∀ i, ∑ q, (L q).refs (s.cwd q) i + ∑ f, ipRefs (s.file f) i ≤ (s.inode i).ref

theorem Counted.two (h : Counted s L) {q : Fin nproc} (hq : q ≠ p) (i : Nat) :
    (L p).refs (s.cwd p) i + (L q).refs (s.cwd q) i ≤ (s.inode i).ref := by
  have := h i
  have := add_le_sum (fun q => (L q).refs (s.cwd q) i) p q hq.symm
  omega

theorem Counted.one (h : Counted s L) (p : Fin nproc) (i : Nat) : (L p).refs (s.cwd p) i ≤ (s.inode i).ref := by
  have := h i
  have := le_sum (fun q => (L q).refs (s.cwd q) i) p
  omega

theorem Counted.move (h : Counted s L) (hcwd : ∀ q, q ≠ p → s'.cwd q = s.cwd q) (hfile : s'.file = s.file)
    (hle : ∀ i, l'.refs (s'.cwd p) i + (s.inode i).ref ≤ (L p).refs (s.cwd p) i + (s'.inode i).ref) :
    Counted s' (update L p l') := by
  intro i
  have hsum := sum_move (fun q => (L q).refs (s.cwd q) i) (fun q => (update L p l' q).refs (s'.cwd q) i) p
    (fun q hq => by simp only [update_of_ne hq, hcwd q hq])
  have h1 := h i
  have h2 := hle i
  simp only [update_self] at hsum
  rw [hfile]
  omega

theorem Counted.setFile (h : Counted s L) (f : Fin NFILE) (v : File)
    (hle : ∀ i, l'.refs (s.cwd p) i + ipRefs v i ≤ (L p).refs (s.cwd p) i + ipRefs (s.file f) i) :
    Counted (s.setFile f v) (update L p l') := by
  intro i
  have hsum := sum_move (fun q => (L q).refs (s.cwd q) i) (fun q => (update L p l' q).refs (s.cwd q) i) p
    (fun q hq => by simp only [update_of_ne hq])
  have hfiles := sum_update (fun v => ipRefs v i) s.file f v
  have h1 := h i
  have h2 := hle i
  simp only [update_self] at hsum
  simp only [Fs.setFile]
  omega

theorem Counted.same (h : Counted s L) (hcwd : s'.cwd = s.cwd) (hfile : s'.file = s.file)
    (href : ∀ i, (s'.inode i).ref = (s.inode i).ref) (hown : l'.own = (L p).own) (hdrop : l'.drop = (L p).drop)
    (htaken : l'.taken = (L p).taken) : Counted s' (update L p l') := by
  refine h.move (fun q _ => by rw [hcwd]) hfile fun i => ?_
  unfold Local.refs
  rw [href, hcwd, hown, hdrop, htaken]

theorem Fs.ref_setInode (s : Fs nproc) (i : Nat) (f : Inode nproc → Inode nproc)
    (hf : ∀ v, (f v).ref = v.ref) (j : Nat) : ((s.setInode i f).inode j).ref = (s.inode j).ref := by
  by_cases hj : j = i
  · subst hj
    simp [hf]
  · rw [Fs.setInode_inode_ne _ _ _ _ hj]

theorem Counted.get (h : Counted s L) (i : Nat) (f : Inode nproc → Inode nproc)
    (hf : (f (s.inode i)).ref = (s.inode i).ref + 1) :
    Counted (s.setInode i f) (update L p { L p with own := hold (L p).own i }) := by
  refine h.move (fun _ _ => rfl) rfl fun j => ?_
  unfold Local.refs hold
  dsimp only [Fs.setInode]
  by_cases hj : j = i
  · subst hj
    simp only [update_self, hf, if_pos]
    omega
  · simp only [update_of_ne hj, if_neg hj]
    omega

theorem Counted.put (h : Counted s L) (i : Nat) (hdrop : (L p).drop = some i) :
    Counted (s.setInode i fun v => { v with ref := v.ref - 1 }) (update L p { L p with drop := none }) := by
  refine h.move (fun _ _ => rfl) rfl fun j => ?_
  have hone := h.one p j
  unfold Local.refs at hone ⊢
  rw [hdrop, sideRefs_drop] at hone ⊢
  dsimp only [Fs.setInode]
  by_cases hj : j = i
  · subst hj
    simp only [update_self, if_true] at hone ⊢
    omega
  · simp only [update_of_ne hj, if_neg hj]
    omega

theorem perform_counted (h : Counted s L) (hpre : a.pre (L p)) (hp : a.perform p s = (.ok r, s'))
    (hn : Op.next (L p) a r l') : Counted s' (update L p l') := by
  cases a with
  | cwd =>
    cases hp
    rcases hn with rfl | ⟨ht, rfl⟩
    · exact h.same rfl rfl (fun _ => rfl) rfl rfl rfl
    · refine h.move (fun _ _ => rfl) rfl fun i => ?_
      unfold Local.refs hold
      dsimp only
      rw [ht, sideRefs_cwd _ _ (s.cwd p)]
      omega
  | setCwd i =>
    cases hp
    obtain ⟨-, h', hown, rfl⟩ := hn
    refine h.move (fun q hq => update_of_ne hq ..) rfl fun j => ?_
    unfold Local.refs
    dsimp only
    rw [hown, hpre.1, sideRefs_cwd _ _ (s.cwd p), update_self]
    unfold hold
    omega
  | iget i =>
    unfold Op.next at hn
    subst hn
    dsimp only [Op.perform] at hp
    split_ifs at hp
    · cases hp
      exact h.get i _ rfl
    · cases hp
    · cases hp
      exact h.get i _ (by simp; omega)
  | idup i =>
    cases hp
    cases hn
    exact h.get i _ rfl
  | iput i =>
    obtain ⟨h', f, hown, -, rfl⟩ := hn
    dsimp only [Op.perform, Op.acquiresleep] at hp
    split_ifs at hp <;> cases hp
    refine h.move (fun _ _ => rfl) rfl fun j => ?_
    have href := Fs.ref_setInode s i (fun v => { v with owner := some p }) (fun _ => rfl) j
    unfold Local.refs
    dsimp only [Fs.setInode] at href ⊢
    rw [hown, hpre.2, sideRefs_drop, href]
    unfold hold
    omega
  | decRef i =>
    cases hp
    cases hn
    exact h.put i hpre
  | ilock i =>
    cases hn
    dsimp only [Op.perform, Op.acquiresleep] at hp
    split_ifs at hp <;> cases hp
    exact h.same rfl rfl (Fs.ref_setInode _ _ _ fun _ => rfl) rfl rfl rfl
  | load i =>
    cases hn
    dsimp only [Op.perform] at hp
    split_ifs at hp <;> cases hp
    · exact h.same rfl rfl (fun _ => rfl) rfl rfl rfl
    · exact h.same rfl rfl (Fs.ref_setInode _ _ _ fun _ => rfl) rfl rfl rfl
  | iunlock i =>
    cases hn
    dsimp only [Op.perform] at hp
    split_ifs at hp <;> cases hp
    exact h.same rfl rfl (Fs.ref_setInode _ _ _ fun _ => rfl) rfl rfl rfl
  | free i =>
    cases hn
    cases hp
    exact h.same rfl rfl (Fs.ref_setInode _ _ _ fun _ => rfl) rfl rfl rfl
  | releasesleep i =>
    cases hn
    cases hp
    exact h.same rfl rfl (Fs.ref_setInode _ _ _ fun _ => rfl) rfl rfl rfl
  | readRef i =>
    cases hp
    rcases hn with rfl | ⟨-, rfl⟩ <;> exact h.same rfl rfl (fun _ => rfl) rfl rfl rfl
  | type i =>
    cases hp
    rcases hn with rfl | ⟨-, -, -, rfl⟩ <;> exact h.same rfl rfl (fun _ => rfl) rfl rfl rfl
  | scan d name =>
    dsimp only [Op.perform] at hp
    split_ifs at hp <;> cases hp
    rcases hn with rfl | ⟨_, _, -, -, -, rfl⟩ <;> exact h.same rfl rfl (fun _ => rfl) rfl rfl rfl
  | insert d name i =>
    cases hn
    dsimp only [Op.perform] at hp
    split_ifs at hp <;> cases hp
    exact h.same rfl rfl (fun _ => rfl) rfl rfl rfl
  | ialloc i t =>
    dsimp only [Op.perform] at hp
    rcases hn with rfl | ⟨-, d, -, rfl⟩
    all_goals split_ifs at hp <;> cases hp <;> exact h.same rfl rfl (fun _ => rfl) rfl rfl rfl
  | filealloc =>
    cases hn
    dsimp only [Op.perform] at hp
    split at hp <;> cases hp
    · exact h.setFile _ _ fun i => le_rfl
    · exact h.same rfl rfl (fun _ => rfl) rfl rfl rfl
  | setIp f i =>
    cases hp
    obtain ⟨-, h', hown, rfl⟩ := hn
    refine h.setFile f _ fun j => ?_
    unfold Local.refs ipRefs
    rw [hown]
    simp only [hold, Option.some.injEq, eq_comm (a := i)]
    omega
  | fileclose f =>
    dsimp only [Op.perform] at hp
    split_ifs at hp
    · cases hp
    · cases hp
      rw [hn.1 rfl]
      exact h.setFile f _ fun i => le_rfl
    · cases hp
      refine h.setFile f _ fun j => ?_
      rcases hip : (s.file f).ip with _ | i <;> rw [hip] at hn
      · rw [hn.1 rfl]
        simp [ipRefs]
      · rw [hn.2 i rfl]
        unfold Local.refs ipRefs hold
        simp only [hip, Option.some.injEq, eq_comm (a := i), reduceCtorEq, if_false]
        omega
  | fdalloc f =>
    cases hn
    dsimp only [Op.perform] at hp
    split at hp <;> cases hp <;> exact h.same rfl rfl (fun _ => rfl) rfl rfl rfl
  | panic msg => exact r.elim
  | erase d off =>
    cases hn
    cases hp
    exact h.same rfl rfl (fun _ => rfl) rfl rfl rfl
  | _ =>
    cases hn
    cases hp
    exact h.same rfl rfl (fun _ => rfl) rfl rfl rfl

namespace Op

def takes : Op → Option Nat
  | .ilock i | .iput i => some i
  | _ => none

def gives : Op → Option Nat
  | .iunlock i | .releasesleep i => some i
  | _ => none

end Op

def Owned (s : Fs nproc) (L : Fin nproc → Local) : Prop := ∀ i q, (s.inode i).owner = some q ↔ i ∈ (L q).locks

theorem Owned.disjoint (h : Owned s L) {q : Fin nproc} (hq : q ≠ p) (i : Nat) (hi : i ∈ (L p).locks) :
    i ∉ (L q).locks := by
  intro hi'
  have h1 := (h i p).mpr hi
  have h2 := (h i q).mpr hi'
  rw [h1] at h2
  exact hq (Option.some.inj h2).symm

theorem Fs.owner_setInode (s : Fs nproc) (i : Nat) (f : Inode nproc → Inode nproc) (j : Nat) :
    ((s.setInode i f).inode j).owner = if i = j then (f (s.inode i)).owner else (s.inode j).owner := by
  split_ifs with hj
  · subst hj
    simp
  · rw [Fs.setInode_inode_ne _ _ _ _ (Ne.symm hj)]

theorem Fs.owner_setInode_same (s : Fs nproc) (i : Nat) (f : Inode nproc → Inode nproc)
    (hf : ∀ v, (f v).owner = v.owner) (j : Nat) : ((s.setInode i f).inode j).owner = (s.inode j).owner := by
  rw [Fs.owner_setInode, hf]
  split_ifs with hj
  · rw [hj]
  · rfl

theorem perform_owner (hp : a.perform p s = (.ok r, s')) (i : Nat) :
    (s'.inode i).owner = if a.takes = some i then some p else if a.gives = some i then none else (s.inode i).owner := by
  cases a with
  | ilock j | iput j =>
    dsimp only [Op.perform, Op.acquiresleep] at hp
    split_ifs at hp <;> cases hp
    rw [Fs.owner_setInode]
    simp [Op.takes, Op.gives]
  | iunlock j =>
    dsimp only [Op.perform] at hp
    split_ifs at hp <;> cases hp
    rw [Fs.owner_setInode]
    simp [Op.takes, Op.gives]
  | releasesleep j =>
    cases hp
    rw [Fs.owner_setInode]
    simp [Op.takes, Op.gives]
  | idup j | free j | decRef j =>
    cases hp
    exact Fs.owner_setInode_same _ _ _ (by intro; rfl) i
  | iget j | load j =>
    dsimp only [Op.perform] at hp
    split_ifs at hp <;> cases hp
    all_goals first | rfl | exact Fs.owner_setInode_same _ _ _ (by intro; rfl) i
  | scan d name | insert d name j | ialloc j t | fileclose f =>
    dsimp only [Op.perform] at hp
    split_ifs at hp <;> cases hp <;> rfl
  | filealloc | fdalloc f =>
    dsimp only [Op.perform] at hp
    split at hp <;> cases hp <;> rfl
  | panic msg => exact r.elim
  | _ => cases hp; rfl

theorem perform_lock (h : Owned s L) (hpre : a.pre (L p)) (hp : a.perform p s = (.ok r, s')) (i : Nat) :
    (a.takes = some i → (s.inode i).owner = none) ∧ (a.gives = some i → (s.inode i).owner = some p) := by
  cases a with
  | ilock j | iput j =>
    dsimp only [Op.perform, Op.acquiresleep] at hp
    split_ifs at hp with h1 <;> cases hp
    all_goals refine ⟨?_, fun hg => nomatch hg⟩
    all_goals rintro ⟨⟩; assumption
  | iunlock j =>
    dsimp only [Op.perform] at hp
    split_ifs at hp with h1 <;> cases hp
    refine ⟨fun ht => (nomatch ht), ?_⟩
    rintro ⟨⟩
    exact not_not.mp (not_or.mp h1).1
  | releasesleep j =>
    refine ⟨fun ht => (nomatch ht), ?_⟩
    rintro ⟨⟩
    exact (h i p).mpr hpre
  | _ => exact ⟨fun ht => (nomatch ht), fun hg => nomatch hg⟩

theorem next_locks (hn : Op.next l a r l') (i : Nat) :
    i ∈ l'.locks ↔ a.takes = some i ∨ i ∈ l.locks ∧ a.gives ≠ some i := by
  cases a with
  | ilock j =>
    cases hn
    simp [Op.takes, Op.gives, eq_comm]
  | iput j =>
    obtain ⟨h', f, -, -, rfl⟩ := hn
    simp [Op.takes, Op.gives, eq_comm]
  | iunlock j | releasesleep j =>
    cases hn
    simp [Op.takes, Op.gives, Local.release, eq_comm, and_comm]
  | cwd => rcases hn with rfl | ⟨-, rfl⟩ <;> simp [Op.takes, Op.gives]
  | setCwd j | setIp f j => obtain ⟨-, h', -, rfl⟩ := hn; simp [Op.takes, Op.gives]
  | readRef j => rcases hn with rfl | ⟨-, rfl⟩ <;> simp [Op.takes, Op.gives]
  | type j => rcases hn with rfl | ⟨-, -, -, rfl⟩ <;> simp [Op.takes, Op.gives]
  | scan d name => rcases hn with rfl | ⟨_, _, -, -, -, rfl⟩ <;> simp [Op.takes, Op.gives]
  | ialloc j t => rcases hn with rfl | ⟨-, d, -, rfl⟩ <;> simp [Op.takes, Op.gives]
  | fileclose f =>
    rcases r with _ | j
    · rw [hn.1 rfl]
      simp [Op.takes, Op.gives]
    · rw [hn.2 j rfl]
      simp [Op.takes, Op.gives]
  | _ => cases hn; simp [Op.takes, Op.gives]

theorem perform_owned (h : Owned s L) (hpre : a.pre (L p)) (hp : a.perform p s = (.ok r, s'))
    (hn : Op.next (L p) a r l') : Owned s' (update L p l') := by
  intro i q
  obtain ⟨htakes, hgives⟩ := perform_lock h hpre hp i
  rw [perform_owner hp]
  by_cases hq : q = p
  · subst hq
    rw [update_self, next_locks hn, ← h i q]
    split_ifs with h1 h2 <;> simp [*]
  · rw [update_of_ne hq, ← h i q]
    split_ifs with h1 h2
    · simp [htakes h1, Ne.symm hq]
    · simp [hgives h2, Ne.symm hq]
    · rfl

end Xv6
