import Mathlib
import Xv6.Fs.Calls
import Xv6.Fs.Mkfs
import Xv6.Lib.System

/-!
# Sessions on a fresh image

Processes that start in the root of a `mkfs` image make one system call after the other. In every
state between two calls link counts are exact and no entry dangles, under conditions on the calls
that the code does not check.
-/

open Lib

namespace Xv6.Session

variable {nproc : Nat}

/-- All processes are in the root, which nobody has locked yet. -/
def boot (nproc : Nat) (args : List (List Char)) : Fs nproc where
  ninodes := NINODES
  dinode := mkfs args
  inode i := { ref := if i = ROOTINO then nproc else 0, valid := false, owner := none }
  cwd _ := ROOTINO
  file _ := { ref := 0, ip := none }
  ofile _ _ := none

/-- A call that does not complete is no step. -/
def step (s : Fs nproc) (a : Fin nproc × Call) : Option (Fs nproc) :=
  match a.2.run a.1 s with
  | (.ok _, s') => some s'
  | (.error _, _) => none

def sessions (nproc : Nat) : System (Fs nproc) (Fin nproc × Call) where
  init s := ∃ args, MkfsArgs args ∧ s = boot nproc args
  step := step

structure Inv (s : Fs nproc) : Prop where
  quiet : Quiet s
  links : s.dinode.Links s.ninodes
  held : s.dinode.Held (holds s.cwd s.file)

theorem holds_boot (args : List (List Char)) (i : Nat) :
    holds (boot nproc args).cwd (boot nproc args).file i = if i = ROOTINO then nproc else 0 := by
  unfold holds
  simp [boot, fileRefs, eq_comm]

theorem boot_inv (args : List (List Char)) (h : MkfsArgs args) : Inv (boot nproc args) := by
  have hlinks := mkfs_links args h
  have hnlink : ∀ i, (mkfs args i).type ≠ .free → (mkfs args i).nlink ≠ 0 := by
    intro i hi
    unfold mkfs at hi ⊢
    split_ifs at hi ⊢ <;> simp_all
  refine ⟨⟨fun i => (holds_boot args i).symm, fun _ => rfl, ?_, fun i h1 h2 => absurd h2 (hnlink i h1), fun _ _ => rfl⟩,
    hlinks, fun i h1 h2 => absurd h2 (hnlink i h1), fun i hi => ?_⟩
  · intro i hv
    cases hv
  · rw [holds_boot] at hi
    split_ifs at hi with hr
    · rw [hr]
      change (mkfs args ROOTINO).type ≠ .free
      rw [(mkfs_linked args).1.1]
      simp
    · omega

theorem step_after (s s' : Fs nproc) (p : Fin nproc) (c : Call) (hi : Inv s) (hs : step s (p, c) = some s') :
    After s p c s' := by
  have hwp := call_refines p c s hi.quiet (hi.links.tidy hi.held)
  unfold step at hs
  unfold Cmd.wp at hwp
  rcases hr : c.run p s with ⟨_ | _, s''⟩ <;> rw [hr] at hs hwp
  · cases hs
  · cases hs; exact hwp

theorem step_inv (s s' : Fs nproc) (p : Fin nproc) (c : Call) (hi : Inv s) (ha : s.dinode.AddsLinked (s.cwd p) c)
    (hs : step s (p, c) = some s') : Inv s' := by
  have hafter := step_after s s' p c hi hs
  obtain ⟨hl, hh⟩ := hafter.outcome.links hi.links hi.held ha
  exact ⟨hafter.quiet, hafter.ninodes ▸ hl, hh⟩

/-- Entries for `i` other than `.` in directories with links. -/
def linkCount (g : Graph) (n i : Nat) : Nat :=
  ∑ d : Fin n, if (g d).type = .dir ∧ 0 < (g d).nlink then (g d).ents.countP (fun e => e.inum = i ∧ e.name ≠ dot) else 0

theorem linkCount_eq (g : Graph) (n i : Nat) (hl : g.Links n) (hi : i ≠ 0) :
    linkCount g n i = g.nameTotal n i + g.upTotal n i := by
  unfold linkCount Graph.nameTotal Graph.upTotal
  rw [← Finset.sum_add_distrib]
  refine Finset.sum_congr rfl fun d _ => ?_
  by_cases hd : (g d).LinkedDir
  · have hdir := hl.dir d hd.1
    have hnames : (g d).names.countP (fun e => e.inum = i ∧ e.name ≠ dot) = (g d).names.countP (·.inum = i) := by
      refine List.countP_congr fun e he => ?_
      simp only [decide_eq_true_eq, and_iff_left_iff_imp]
      intro hei
      exact (hdir.names e he (by omega)).1
    rw [if_pos hd, Dinode.nameCount_linked _ hd, Dinode.upCount_linked _ hd, hdir.ents, List.countP_cons,
      List.countP_cons, hnames]
    simp [dot, dotdot]
  · rw [if_neg hd, Dinode.nameCount_not _ hd, Dinode.upCount_not _ hd]

/-- No entry is added to a directory without links. -/
abbrev AddsLinked (s : Fs nproc) (a : Fin nproc × Call) : Prop := s.dinode.AddsLinked (s.cwd a.1) a.2

theorem inv_of_reachIf (s : Fs nproc) (h : (sessions nproc).ReachIf AddsLinked s) : Inv s := by
  refine (sessions nproc).reachIf_inv AddsLinked Inv ?_ (fun s a s' hi ha hs => step_inv s s' a.1 a.2 hi ha hs) s h
  rintro s ⟨args, hargs, rfl⟩
  exact boot_inv args hargs

theorem linkCount_pos (g : Graph) (n i : Nat) (h : 0 < linkCount g n i) :
    ∃ d, (g d).type = .dir ∧ 0 < (g d).nlink ∧ ∃ e ∈ (g d).ents, e.inum = i ∧ e.name ≠ dot := by
  obtain ⟨d, -, hd⟩ := Finset.exists_ne_zero_of_sum_ne_zero (Nat.ne_of_gt h)
  split_ifs at hd with hl
  · obtain ⟨e, he, hei⟩ := List.countP_pos_iff.mp (Nat.pos_of_ne_zero hd)
    exact ⟨d, hl.1, hl.2, e, he, by simpa using hei⟩
  · exact absurd rfl hd

/-- **Link counts are exact** between the calls of a session that adds no entry to a directory without links. -/
theorem nlink_exact (s : Fs nproc) (h : (sessions nproc).ReachIf AddsLinked s) :
    (∀ i, (s.dinode i).type ≠ .free → (s.dinode i).nlink = linkCount s.dinode s.ninodes i) ∧
      ∀ i, 0 < (s.dinode i).nlink →
        ∃ d, (s.dinode d).type = .dir ∧ 0 < (s.dinode d).nlink ∧ ∃ e ∈ (s.dinode d).ents, e.inum = i ∧
        e.name ≠ dot := by
  have hl := (inv_of_reachIf s h).links
  have hexact : ∀ i, (s.dinode i).type ≠ .free → (s.dinode i).nlink = linkCount s.dinode s.ninodes i := by
    intro i hi
    have hi0 := (hl.bound i hi).1
    rw [linkCount_eq _ _ _ hl (by omega), hl.exact i (by omega)]
    push_cast
    rfl
  refine ⟨hexact, fun i hi => linkCount_pos _ s.ninodes i ?_⟩
  have := hexact i fun hf => by
    have := hl.free i hf
    omega
  omega

def createInRemoved : List (Fin 1 × Call) :=
  [(0, .mkdir ['d']), (0, .chdir ['d']), (0, .unlink ['.', '.', '/', 'd']), (0, .open ['x'] O_CREATE)]

theorem created_in_removed_directory : ∃ s, (sessions 1).Reach s ∧ (s.dinode 3).type = .file ∧ (s.dinode 3).nlink = 1 ∧
    linkCount s.dinode s.ninodes 3 = 0 := by
  have hrun : ((sessions 1).run (boot 1 []) createInRemoved).map (fun s => ((s.dinode 3).type, (s.dinode 3).nlink,
      linkCount s.dinode s.ninodes 3)) = some (.file, 1, 0) := by decide +kernel
  obtain ⟨s, hreach, hv⟩ := (sessions 1).reach_of_map ⟨[], ⟨by decide, by simp⟩, rfl⟩ hrun
  simp only [Prod.mk.injEq] at hv
  exact ⟨s, hreach, hv.1, hv.2.1, hv.2.2⟩

def linkedFile : List (Fin 1 × Call) :=
  [(0, .mkdir ['d']), (0, .open ['d', '/', 'f'] O_CREATE), (0, .link ['d', '/', 'f'] ['g']),
    (0, .unlink ['d', '/', 'f'])]

theorem nlink_exact_linkedFile : ∃ s, (sessions 1).ReachIf AddsLinked s ∧
    (∀ i, (s.dinode i).type ≠ .free → (s.dinode i).nlink = linkCount s.dinode s.ninodes i) ∧
    (s.dinode ROOTINO).nlink = 2 ∧ (s.dinode 3).nlink = 1 := by
  have hrun : ((sessions 1).runIf AddsLinked (boot 1 []) linkedFile).map (fun s => ((s.dinode ROOTINO).nlink,
      (s.dinode 3).nlink)) = some (2, 1) := by decide +kernel
  obtain ⟨s, hreach, hv⟩ := (sessions 1).reachIf_of_map ⟨[], ⟨by decide, by simp⟩, rfl⟩ hrun
  simp only [Prod.mk.injEq] at hv
  exact ⟨s, hreach, (nlink_exact s hreach).1, hv⟩

abbrev KeepsUps (s : Fs nproc) (a : Fin nproc × Call) : Prop :=
  AddsLinked s a ∧ s.dinode.SparesUps s.ninodes (s.cwd a.1) a.2

theorem sound_of_reachIf (s : Fs nproc) (h : (sessions nproc).ReachIf KeepsUps s) :
    Inv s ∧ s.dinode.Sound (holds s.cwd s.file) := by
  have hall : Inv s ∧ s.dinode.UpsLinked := by
    refine (sessions nproc).reachIf_inv KeepsUps (fun s => Inv s ∧ s.dinode.UpsLinked) ?_ ?_ s h
    · rintro s ⟨args, hargs, rfl⟩
      refine ⟨boot_inv args hargs, fun d hd h0 => ?_⟩
      have hr : d = ROOTINO := mkfs_dir args d hd
      subst hr
      have := (mkfs_linked args).1.2
      have h0 : (mkfs args ROOTINO).nlink = 0 := h0
      omega
    · rintro s ⟨p, c⟩ s' ⟨hi, hu⟩ ⟨ha, hsp⟩ hs
      exact ⟨step_inv s s' p c hi ha hs, (step_after s s' p c hi hs).outcome.ups hi.links hu ha hsp⟩
  exact ⟨hall.1, hall.1.links.sound hall.1.held hall.2⟩

/-- **No entry dangles** in a directory that is linked, open or current, and no call stops for want of an inode type. -/
theorem no_dangling_entry (s : Fs nproc) (h : (sessions nproc).ReachIf KeepsUps s) :
    (∀ d, (s.dinode d).type = .dir →
      0 < (s.dinode d).nlink ∨ (∃ f, 0 < (s.file f).ref ∧ (s.file f).ip = some d) ∨ (∃ p, s.cwd p = d) →
      ∀ e ∈ (s.dinode d).ents, e.inum ≠ 0 → (s.dinode e.inum).type ≠ .free) ∧
    ∀ (p : Fin nproc) (c : Call), (c.run p s).1 ≠ .error (.panic "ilock: no type") := by
  obtain ⟨hi, hsound⟩ := sound_of_reachIf s h
  refine ⟨fun d hd _ e he h0 => hsound.named d hd e he h0, fun p c hr => ?_⟩
  have hwp := call_refines p c s hi.quiet (hi.links.tidy hi.held)
  unfold Cmd.wp at hwp
  rcases hc : c.run p s with ⟨r, s'⟩
  rw [hc] at hwp hr
  dsimp only at hr
  subst hr
  exact hwp rfl hsound

def removeParent : List (Fin 1 × Call) :=
  [(0, .mkdir ['a']), (0, .mkdir ['a', '/', 'b']), (0, .chdir ['a', '/', 'b']), (0, .unlink ['/', 'a', '/', 'b']),
   (0, .unlink ['/', 'a'])]

theorem parent_of_removed_directory_dangles : ∃ s, (sessions 1).Reach s ∧ (s.dinode (s.cwd 0)).type = .dir ∧
    ⟨2, dotdot⟩ ∈ (s.dinode (s.cwd 0)).ents ∧ (s.dinode 2).type = .free ∧
    ((Call.chdir ['.', '.']).run 0 s).1 = .error (.panic "ilock: no type") := by
  have hrun : ((sessions 1).run (boot 1 []) removeParent).map (fun s => decide ((s.dinode (s.cwd 0)).type = .dir ∧
      ⟨2, dotdot⟩ ∈ (s.dinode (s.cwd 0)).ents ∧ (s.dinode 2).type = .free ∧
      ((Call.chdir ['.', '.']).run 0 s).1 = .error (.panic "ilock: no type"))) = some true := by decide +kernel
  obtain ⟨s, hreach, hv⟩ := (sessions 1).reach_of_map ⟨[], ⟨by decide, by simp⟩, rfl⟩ hrun
  exact ⟨s, hreach, of_decide_eq_true hv⟩

def removeCurrent : List (Fin 1 × Call) :=
  [(0, .mkdir ['d']), (0, .chdir ['d']), (0, .unlink ['/', 'd'])]

theorem no_dangling_entry_removeCurrent : ∃ s, (sessions 1).ReachIf KeepsUps s ∧ (s.dinode (s.cwd 0)).type = .dir ∧
    (s.dinode (s.cwd 0)).nlink = 0 ∧ (∀ e ∈ (s.dinode (s.cwd 0)).ents, e.inum ≠ 0 → (s.dinode e.inum).type ≠ .free) ∧
    ((Call.chdir ['.', '.']).run 0 s).1 ≠ .error (.panic "ilock: no type") := by
  have hrun : ((sessions 1).runIf KeepsUps (boot 1 []) removeCurrent).map (fun s => ((s.dinode (s.cwd 0)).type,
      (s.dinode (s.cwd 0)).nlink)) = some (.dir, 0) := by decide +kernel
  obtain ⟨s, hreach, hv⟩ := (sessions 1).reachIf_of_map ⟨[], ⟨by decide, by simp⟩, rfl⟩ hrun
  simp only [Prod.mk.injEq] at hv
  have hall := no_dangling_entry s hreach
  exact ⟨s, hreach, hv.1, hv.2, hall.1 _ hv.1 (.inr (.inr ⟨0, rfl⟩)), hall.2 0 _⟩

end Xv6.Session
