import Xv6.Fs.Seq
import Xv6.Lib.Count

/-!
# Each system call refines its outcome on the naming graph

Started between two calls, a system call of `sysfile.c` that completes ends between two calls, and
has done to the graph and to the references of the tables what `Graph.Outcome` allows.
-/

open Lib Function

namespace Xv6

variable {nproc : Nat}

def fileRefs (v : File) (i : Nat) : Nat := if 0 < v.ref ∧ v.ip = some i then 1 else 0

/-- References to `i` from current directories and open files. -/
def holds (cwd : Fin nproc → Nat) (file : Fin NFILE → File) (i : Nat) : Nat :=
  ∑ p, (if cwd p = i then 1 else 0) + ∑ f, fileRefs (file f) i

theorem holds_cwd (cwd : Fin nproc → Nat) (file : Fin NFILE → File) (p : Fin nproc) :
    ∃ h, holds cwd file = hold h (cwd p) ∧ ∀ c, holds (update cwd p c) file = hold h c := by
  have hle : ∀ i, (if cwd p = i then 1 else 0) ≤ holds cwd file i := by
    intro i
    have := le_sum (fun q => if cwd q = i then 1 else 0) p
    unfold holds
    omega
  refine ⟨fun i => holds cwd file i - if cwd p = i then 1 else 0, ?_, ?_⟩
  · funext i
    have := hle i
    unfold hold
    simp only [eq_comm (a := i)]
    omega
  · intro c
    funext i
    have hsum := sum_update (fun c => if c = i then 1 else 0) cwd p c
    have := hle i
    unfold holds hold at *
    simp only [eq_comm (a := i)]
    omega

theorem holds_file (cwd : Fin nproc → Nat) (file : Fin NFILE → File) (f : Fin NFILE) :
    ∃ h : Nat → Nat, (∀ i, holds cwd file i = h i + fileRefs (file f) i) ∧
      ∀ v i, holds cwd (update file f v) i = h i + fileRefs v i := by
  have hle : ∀ i, fileRefs (file f) i ≤ holds cwd file i := by
    intro i
    have := le_sum (fun f => fileRefs (file f) i) f
    unfold holds
    omega
  refine ⟨fun i => holds cwd file i - fileRefs (file f) i, fun i => ?_, fun v i => ?_⟩
  · have := hle i
    dsimp only
    omega
  · have hsum := sum_update (fun v => fileRefs v i) file f v
    have := hle i
    unfold holds at *
    dsimp only
    omega

theorem holds_file_same (cwd : Fin nproc → Nat) (file : Fin NFILE → File) (f : Fin NFILE) (v : File)
    (hv : ∀ i, fileRefs v i = fileRefs (file f) i) : holds cwd (update file f v) = holds cwd file := by
  obtain ⟨h, h1, h2⟩ := holds_file cwd file f
  funext i
  rw [h2, h1, hv]

theorem holds_cwd_pos (cwd : Fin nproc → Nat) (file : Fin NFILE → File) (p : Fin nproc) :
    0 < holds cwd file (cwd p) := by
  obtain ⟨h, hh, -⟩ := holds_cwd cwd file p
  rw [hh]
  unfold hold
  simp

structure Quiet (s : Fs nproc) : Prop where
  ref : ∀ i, (s.inode i).ref = holds s.cwd s.file i
  owner : ∀ i, (s.inode i).owner = none
  valid : ∀ i, (s.inode i).valid = true → (s.dinode i).type ≠ .free
  unlinked : ∀ i, (s.dinode i).type ≠ .free → (s.dinode i).nlink = 0 →
    (s.inode i).valid = true ∧ 0 < holds s.cwd s.file i
  files : ∀ f, (s.file f).ref = 0 → (s.file f).ip = none

theorem Quiet.at {s : Fs nproc} (hs : Quiet s) (p : Fin nproc) : At s p s.dinode (holds s.cwd s.file) [] ∅ s := by
  refine ⟨rfl, ?_, ?_, ?_, hs.valid, ?_, rfl⟩
  · simpa using hs.ref
  · simpa using hs.owner
  · simp
  · simpa using hs.unlinked

structure InCall (b : Fs nproc) (p : Fin nproc) (g : Graph) (h : Nat → Nat) (L : List Nat) (K : Finset Nat)
    (s : Fs nproc) : Prop where
  here : At s p g h L K s
  held : holds s.cwd s.file = h
  files : ∀ f, (s.file f).ref = 0 → (s.file f).ip = none
  ninodes : s.ninodes = b.ninodes

structure After (b : Fs nproc) (p : Fin nproc) (c : Call) (s : Fs nproc) : Prop where
  quiet : Quiet s
  ninodes : s.ninodes = b.ninodes
  outcome : Graph.Outcome b.dinode b.ninodes (holds b.cwd b.file) (b.cwd p) c s.dinode (holds s.cwd s.file)

namespace At

variable {b : Fs nproc} {p : Fin nproc} {g : Graph} {h : Nat → Nat} {L : List Nat} {K : Finset Nat} {s : Fs nproc}

theorem file (hs : At b p g h L K s) : s.file = b.file := congrArg (·.2.2.1) hs.tables

theorem retable (hs : At b p g h L K s) (s' : Fs nproc) (hd : s'.dinode = s.dinode) (hi : s'.inode = s.inode) :
    At s' p g h L K s' :=
  ⟨hd.trans hs.dinode, hi ▸ hs.ref, hi ▸ hs.owner, hi ▸ hs.locked, hi ▸ hs.valid, hi ▸ hs.unlinked, rfl⟩

theorem addNlink (hs : At b p g h L K s) (i : Nat) (n : Int) (hi : i ∈ K) :
    At b p (g.addNlink i n) h L K (s.setDinode i fun d => { d with nlink := d.nlink + n }) :=
  hs.setDinode i _ (hs.valid i) fun _ _ => hs.locked i hi

end At

namespace InCall

variable {b : Fs nproc} {p : Fin nproc} {g g' : Graph} {h : Nat → Nat} {L L' : List Nat} {K K' : Finset Nat}
    {s s' : Fs nproc}

theorem step (hs : InCall b p g h L K s) (hs' : At s p g' h L' K' s') : InCall b p g' h L' K' s' := by
  refine ⟨hs'.retable s' rfl rfl, ?_, ?_, hs'.ninodes.trans hs.ninodes⟩
  · rw [hs'.cwd, hs'.file, hs.held]
  · rw [hs'.file]; exact hs.files

theorem setFile (hs : InCall b p g h L K s) (f : Fin NFILE) (v : File) (hv : v.ref = 0 → v.ip = none)
    {h' : Nat → Nat} (hh : holds s.cwd (update s.file f v) = h') (hat : At s p g h' L' K s) :
    InCall b p g h' L' K (s.setFile f v) := by
  refine ⟨hat.retable _ rfl rfl, hh, fun f' => ?_, hs.ninodes⟩
  unfold Fs.setFile
  by_cases hf : f' = f
  · subst hf; simpa using hv
  · simpa [hf] using hs.files f'

theorem setFile_same (hs : InCall b p g h L K s) (f : Fin NFILE) (v : File) (hv : v.ref = 0 → v.ip = none)
    (hsame : ∀ i, fileRefs v i = fileRefs (s.file f) i) : InCall b p g h L K (s.setFile f v) :=
  hs.setFile f v hv ((holds_file_same _ _ f v hsame).trans hs.held) hs.here

theorem setOfile (hs : InCall b p g h L K s) (fd : Nat) (v : Option (Fin NFILE)) :
    InCall b p g h L K (s.setOfile p fd v) :=
  ⟨hs.here.retable _ rfl rfl, hs.held, hs.files, hs.ninodes⟩

theorem start (hs : Quiet s) (p : Fin nproc) : InCall s p s.dinode (holds s.cwd s.file) [] ∅ s :=
  ⟨hs.at p, rfl, hs.files, rfl⟩

theorem after {c : Call} (hs : InCall b p g h [] ∅ s)
    (ho : Graph.Outcome b.dinode b.ninodes (holds b.cwd b.file) (b.cwd p) c g h) : After b p c s := by
  have hat := hs.here
  refine ⟨⟨?_, ?_, ?_, ?_, hs.files⟩, hs.ninodes, ?_⟩
  · rw [hs.held]; simpa using hat.ref
  · simpa using hat.owner
  · rw [hat.dinode]; exact hat.valid
  · rw [hat.dinode, hs.held]; simpa using hat.unlinked
  · rw [hat.dinode, hs.held]; exact ho

end InCall

section

variable {F : Stop → Prop} (hF : ∀ e, e ≠ noType → F e) {b : Fs nproc} {p : Fin nproc} {g : Graph} {h : Nat → Nat}
  {L : List Nat} {K : Finset Nat} {s : Fs nproc}

include hF

theorem linkBad_spec (i : Nat) (hs : At b p (g.addNlink i 1) h [i] ∅ s) (ht : g.Tidy h)
    (hi : (g i).type ≠ .free) : Does p F (linkBad i) (fun _ => At b p g h [] ∅) s := by
  have hback : (g.addNlink i 1).addNlink i (-1) = g := by
    funext j
    rw [Graph.addNlink_apply, Graph.addNlink_apply]
    split_ifs <;> simp
  unfold linkBad
  rw [does_bind]
  refine (ilock_spec hF i hs ?_).mono ?_
  · rw [Graph.addNlink_type]
    exact fun h => absurd h hi
  rintro _ s ⟨hs, -, -⟩
  rw [does_bind, does_addNlink]
  have hs' := hs.addNlink i (-1) (by simp)
  rw [hback] at hs'
  rw [does_bind]
  refine (iunlockput_kept_spec hF i hs' ht).mono fun _ s hs => ?_
  simpa using hs

theorem sys_link_spec (old new : List Char) (hs : At b p g h [] ∅ s) (ht : g.Tidy h) (hg : ¬ F noType → g.Sound h)
    (hcwd : 0 < h (b.cwd p)) :
    Does p F (sys_link old new) (fun _ s' => ∃ g', Graph.Outcome g b.ninodes h (b.cwd p) (.link old new) g' h ∧
      At b p g' h [] ∅ s') s := by
  unfold sys_link
  rw [does_bind]
  refine (namei_spec hF old hs ht hg hcwd).mono ?_
  rintro (_ | ip) s ⟨ho, hip, hs⟩
  · exact ⟨g, .same _, hs⟩
  rw [does_bind]
  refine (ilock_spec hF ip hs (hip ip rfl)).mono ?_
  rintro _ s ⟨hs, -, halloc⟩
  rw [does_bind, does_type, hs.dinode]
  by_cases hd : (g ip).type = .dir
  · rw [if_pos hd, does_bind]
    refine (iunlockput_kept_spec hF ip hs ht).mono fun _ s hs => ⟨g, .same _, ?_⟩
    simpa using hs
  rw [if_neg hd, does_bind, does_addNlink, does_bind]
  have ht' := ht.addNlink ip
  refine (iunlock_spec hF ip (hs.addNlink ip 1 (by simp))).mono ?_
  rintro _ s ⟨hs, -⟩
  rw [does_bind]
  have hs' : At b p (g.addNlink ip 1) h [ip] ∅ s := by simpa using hs
  refine (nameiparent_spec hF new hs' ht' (fun hn => (hg hn).addNlink ip 1) hcwd).mono ?_
  rintro (_ | ⟨dp, name⟩) s ⟨hr, hs⟩
  · exact (linkBad_spec hF ip hs ht halloc).mono fun _ s hs => ⟨g, .same _, hs⟩
  rw [Graph.parent_addNlink] at hr
  have hdp := Graph.parent_dir _ _ _ _ hr.symm
  rw [does_bind]
  refine (ilock_spec hF dp hs ?_).mono ?_
  · rw [Graph.addNlink_type, hdp]
    rintro ⟨⟩
  rintro _ s ⟨hs, -, -⟩
  rw [does_bind]
  refine (dirlink_spec hF dp name ip hs fun _ => ht').mono ?_
  rintro ok s ⟨-, hs⟩
  rcases ok with _ | _
  · rw [if_neg (by simp)] at hs
    rw [if_neg (by simp), does_bind]
    refine (iunlockput_kept_spec hF dp hs ht').mono fun _ s hs => ?_
    exact (linkBad_spec hF ip (by simpa using hs) ht halloc).mono fun _ s hs => ⟨g, .same _, hs⟩
  · rw [if_pos rfl] at hs
    rw [if_pos rfl, does_bind]
    refine (iunlockput_kept_spec hF dp hs.2 (ht'.insert dp name ip)).mono fun _ s hs' => ?_
    rw [does_bind]
    refine (iput_kept_spec hF ip hs' (ht'.insert dp name ip)).mono fun _ s hs' => ?_
    refine ⟨g.link dp name ip, .linked old new dp name ip ho.symm hr.symm hdp ?_ halloc hd, ?_⟩
    · rw [← hs.1, Graph.addNlink_ents]
    · unfold Graph.link
      simpa using hs'

theorem unlinkEntry_spec (dp off ip : Nat) (hne : ip ≠ dp) (hs : At b p g h [ip, dp] {ip, dp} s) :
    Does p F (unlinkEntry dp off ip (g ip).type) (fun _ => At b p (g.unlink h dp off ip) h [] ∅) s := by
  have hdp : h dp + [ip].count dp = h dp := by simp [hne]
  unfold unlinkEntry Graph.unlink
  rw [does_bind, does_erase, does_bind]
  have hs := hs.setDinode dp (fun d => { d with ents := d.ents.set off ⟨0, []⟩ }) (hs.valid dp) (hs.unlinked dp)
  have hdir : Does p F (if (g ip).type = .dir then op (.addNlink dp (-1)) else pure ())
      (fun _ s' => At b p (if (g ip).type = .dir then (g.erase dp off).addNlink dp (-1) else g.erase dp off) h [ip, dp]
        {ip, dp} s') (s.setDinode dp fun d => { d with ents := d.ents.set off ⟨0, []⟩ }) := by
    split_ifs
    · rw [does_addNlink]
      exact hs.addNlink dp (-1) (by simp)
    · exact hs
  refine hdir.mono fun _ s hs => ?_
  rw [does_bind]
  refine (iunlockput_spec hF dp (hs.perm (List.Perm.swap dp ip []))).mono fun _ s hs => ?_
  rw [hdp] at hs
  rw [does_bind, does_addNlink, does_bind]
  refine (iunlockput_spec hF ip (hs.addNlink ip (-1) (by simp [hne]))).mono fun _ s hs => ?_
  have hK : (({ip, dp} : Finset Nat).erase dp).erase ip = ∅ := by
    ext j
    simp
    tauto
  rw [hK] at hs
  simpa using hs

theorem sys_unlink_spec (path : List Char) (hs : At b p g h [] ∅ s) (ht : g.Tidy h) (hg : ¬ F noType → g.Sound h)
    (hcwd : 0 < h (b.cwd p)) :
    Does p F (sys_unlink path) (fun _ s' => ∃ g', Graph.Outcome g b.ninodes h (b.cwd p) (.unlink path) g' h ∧
      At b p g' h [] ∅ s') s := by
  unfold sys_unlink
  rw [does_bind]
  refine (nameiparent_spec hF path hs ht hg hcwd).mono ?_
  rintro (_ | ⟨dp, name⟩) s ⟨hr, hs⟩
  · exact ⟨g, .same _, hs⟩
  have hdp := Graph.parent_dir _ _ _ _ hr.symm
  rw [does_bind]
  refine (ilock_spec hF dp hs ?_).mono ?_
  · rw [hdp]
    rintro ⟨⟩
  rintro _ s ⟨hs, -, -⟩
  have hbad : ∀ s, At b p g h [dp] {dp} s → Does p F (do iunlockput dp; pure (-1 : Int)) (fun _ s' =>
      ∃ g', Graph.Outcome g b.ninodes h (b.cwd p) (.unlink path) g' h ∧ At b p g' h [] ∅ s') s := by
    intro s hs
    rw [does_bind]
    refine (iunlockput_kept_spec hF dp hs ht).mono fun _ s hs => ⟨g, .same _, ?_⟩
    simpa using hs
  by_cases hdots : name = dot ∨ name = dotdot
  · rw [if_pos hdots]
    exact hbad s hs
  rw [if_neg hdots, does_bind]
  refine (dirlookup_spec hF dp name hs).mono ?_
  rintro (_ | ⟨ip, off⟩) s ⟨hscan, -, hs⟩
  · exact hbad s hs
  rw [does_bind]
  refine (ilock_spec hF ip hs ?_).mono ?_
  · intro hfree
    by_contra hn
    exact (hg hn).scan dp hdp name ip off hscan.symm hfree
  rintro _ s ⟨hs, hK, halloc⟩
  have hne : ip ≠ dp := by simpa using hK
  rw [does_bind, does_nlink, hs.dinode, does_bind, does_expect]
  by_cases hl : 1 ≤ (g ip).nlink
  swap
  · rw [if_neg (by simpa using hl)]
    exact hF _ (by decide)
  rw [if_pos (by simpa using hl), does_bind, does_type, hs.dinode, does_bind]
  have hfull : Does p F (fullDir ip (g ip).type) (fun full s' => s' = s ∧
      full = decide ((g ip).type = .dir ∧ dirEmpty (g ip).ents = false)) s := by
    unfold fullDir
    split_ifs with hd
    · rw [does_bind, does_isdirempty, hs.dinode]
      simp [hd]
    · simp [hd]
  refine hfull.mono ?_
  rintro full s' ⟨rfl, rfl⟩
  by_cases hfull : (g ip).type = .dir ∧ dirEmpty (g ip).ents = false
  · rw [if_pos (by simpa using hfull), does_bind]
    refine (iunlockput_kept_spec hF ip hs ht).mono fun _ s hs => hbad s ?_
    simpa [Finset.erase_insert, hne] using hs
  · rw [if_neg (by simpa using hfull)]
    refine (unlinkEntry_spec hF dp off ip hne hs).mono fun _ s hs => ⟨_, ?_, hs⟩
    refine .unlinked path dp name off ip hr.symm hdp ?_ ?_ hscan.symm hl halloc ?_ hne
    · exact fun h => hdots (.inl h)
    · exact fun h => hdots (.inr h)
    · intro hd
      simpa [hd] using hfull

theorem createDots_spec (dp i : Nat) (major minor : Int) (hne : i ≠ dp) (h0 : 0 < i) (hdp : dp ∈ K)
    (hs : At b p (g.modify i fun _ => { type := .dir, major, minor, nlink := 1, ents := [] }) h L K s) :
    Does p F (createDots dp i) (fun _ => At b p ((g.modify i fun _ =>
      { type := .dir, major, minor, nlink := 1, ents := Graph.newEnts dp i .dir }).addNlink dp 1) h L K) s := by
  unfold createDots
  rw [does_bind, does_addNlink, does_bind]
  refine (dirlink_spec hF i dot i (hs.addNlink dp 1 hdp) ?_).mono ?_
  · intro hscan
    simp [Graph.addNlink_ents, dirScan] at hscan
  rintro ok s ⟨-, hs⟩
  rw [does_bind, does_expect]
  split_ifs with hok
  swap
  · exact hF _ (by decide)
  rw [if_pos hok] at hs
  rw [does_bind]
  refine (dirlink_spec hF i dotdot dp hs.2 ?_).mono ?_
  · intro hscan
    simp [Graph.insert_apply, Graph.addNlink_ents, dirInsert, dirScan, dot, dotdot] at hscan
  rintro ok s ⟨-, hs⟩
  rw [does_expect]
  split_ifs with hok
  swap
  · exact hF _ (by decide)
  rw [if_pos hok, Graph.make_dots g dp i hne h0] at hs
  exact hs.2

theorem createEntry_spec (dp : Nat) (name : Name) (i : Nat) (t : FileType) (major minor : Int) (hne : i ≠ dp)
    (h0 : 0 < i) (hscan : dirScan name (g dp).ents 0 = none) (ht : g.Tidy h)
    (hs : At b p (g.modify i fun _ => { type := t, major, minor, nlink := 1, ents := [] }) h [i, dp] {i, dp} s) :
    Does p F (createEntry dp name i t) (fun r s' => r = some i ∧ At b p (g.make dp name i t major minor) h [i]
      {i} s') s := by
  have hdots : Does p F (if t = .dir then createDots dp i else pure ()) (fun _ => At b p
      (let g := g.modify i fun _ => { type := t, major, minor, nlink := 1, ents := Graph.newEnts dp i t }
       if t = .dir then g.addNlink dp 1 else g) h [i, dp] {i, dp}) s := by
    split_ifs with hd
    · subst hd
      exact createDots_spec hF dp i major minor hne h0 (by simp) hs
    · unfold Graph.newEnts
      rw [if_neg hd]
      exact hs
  unfold createEntry
  rw [does_bind]
  refine hdots.mono fun _ s hs => ?_
  rw [does_bind]
  refine (dirlink_spec hF dp name i hs ?_).mono ?_
  · intro hn
    refine absurd ?_ hn
    split_ifs <;> simp [Graph.addNlink_ents, Graph.modify_ne _ _ _ _ (Ne.symm hne), hscan]
  rintro ok s ⟨-, hs⟩
  rw [does_bind, does_expect]
  split_ifs with hok
  swap
  · exact hF _ (by decide)
  rw [if_pos hok] at hs
  have hs : At b p (g.make dp name i t major minor) h [i, dp] {i, dp} s := hs.2
  rw [does_bind]
  refine (iunlockput_spec hF dp (hs.perm (List.Perm.swap dp i []))).mono fun _ s hs => ⟨rfl, ?_⟩
  rw [Graph.settle, if_neg] at hs
  · have hK : ({i, dp} : Finset Nat).erase dp = {i} := by
      ext j
      simp
      omega
    rwa [hK] at hs
  · rintro ⟨h1, h2, h3⟩
    rw [Graph.make_parent _ _ _ _ _ _ _ hne] at h1 h2
    have hn := ht.nlink dp
    have hk := ht.kept dp h1
    dsimp only at h2
    split_ifs at h2 <;> omega

/-- What `create` returns. A new inode is made only if `new`. -/
def Creation (new : Prop) (b : Fs nproc) (p : Fin nproc) (g : Graph) (h : Nat → Nat) (path : List Char) (t : FileType)
    (major minor : Int) (r : Option Nat) (s : Fs nproc) : Prop :=
  match r with
  | none => At b p g h [] ∅ s
  | some i => (At b p g h [i] {i} s ∧ (g i).type ≠ .free) ∨
    new ∧ ∃ dp name, g.parent (b.cwd p) path = some (dp, name) ∧ (g dp).type = .dir ∧
    dirScan name (g dp).ents 0 = none ∧
      (g i).type = .free ∧ 0 < i ∧ i < b.ninodes ∧ i ≠ dp ∧ At b p (g.make dp name i t major minor) h [i] {i} s

theorem create_spec (new : Prop) (hnew : new) (path : List Char) (t : FileType) (major minor : Int) (htype : t ≠ .free)
    (hs : At b p g h [] ∅ s) (ht : g.Tidy h) (hg : ¬ F noType → g.Sound h) (hcwd : 0 < h (b.cwd p)) :
    Does p F (create path t major minor) (Creation new b p g h path t major minor) s := by
  unfold create
  rw [does_bind]
  refine (nameiparent_spec hF path hs ht hg hcwd).mono ?_
  rintro (_ | ⟨dp, name⟩) s ⟨hr, hs⟩
  · exact hs
  have hdp := Graph.parent_dir _ _ _ _ hr.symm
  rw [does_bind]
  refine (ilock_spec hF dp hs ?_).mono ?_
  · rw [hdp]
    rintro ⟨⟩
  rintro _ s ⟨hs, -, -⟩
  rw [does_bind]
  refine (dirlookup_spec hF dp name hs).mono ?_
  rintro (_ | ⟨ip, off⟩) s ⟨hscan, -, hs⟩
  · rw [does_bind]
    have hfresh := fresh_spec hF t major minor hs htype
      (fun i => Does p F (createEntry dp name i t) (Creation new b p g h path t major minor)) ?_
    · exact hfresh.mono fun i s hi => by
        rw [does_bind]
        exact hi.mono fun _ s hi => by rw [does_bind]; exact hi
    intro i s hfree h0 hn hK hs
    have hne : i ≠ dp := by simpa using hK
    refine (createEntry_spec hF dp name i t major minor hne h0 hscan.symm ht hs).mono ?_
    rintro _ s ⟨rfl, hs⟩
    exact .inr ⟨hnew, dp, name, hr.symm, hdp, hscan.symm, hfree, h0, hn, hne, hs⟩
  · rw [does_bind]
    refine (iunlockput_kept_spec hF dp (hs.perm (List.Perm.swap dp ip [])) ht).mono fun _ s hs => ?_
    rw [does_bind]
    refine (ilock_spec hF ip hs ?_).mono ?_
    · intro hfree
      by_contra hn
      exact (hg hn).scan dp hdp name ip off hscan.symm hfree
    rintro _ s ⟨hs, -, halloc⟩
    have hs' : At b p g h [ip] {ip} s := by simpa using hs
    rw [does_bind, does_type, hs.dinode]
    split_ifs
    · exact .inl ⟨hs', halloc⟩
    · rw [does_bind]
      refine (iunlockput_kept_spec hF ip hs' ht).mono fun _ s hs => ?_
      simpa [Creation] using hs

theorem created_spec (c : Call) (path : List Char) (t : FileType) (major minor : Int)
    (hc : Graph.Creates c path t major minor) (ht : g.Tidy h) (r : Option Nat)
    (hs : Creation True b p g h path t major minor r s) :
    Does p F (created r) (fun _ s' => ∃ g', Graph.Outcome g b.ninodes h (b.cwd p) c g' h ∧ At b p g' h [] ∅ s') s := by
  unfold created
  rcases r with _ | i
  · exact ⟨g, .same c, hs⟩
  rcases hs with ⟨hs, -⟩ | ⟨-, dp, name, hp, hd, hscan, hfree, h0, hn, hne, hs⟩
  · rw [does_bind]
    refine (iunlockput_kept_spec hF i hs ht).mono fun _ s hs => ⟨g, .same c, ?_⟩
    simpa using hs
  · rw [does_bind]
    refine (iunlockput_spec hF i hs).mono fun _ s hs =>
      ⟨_, .made c path t major minor dp name i h hc hp hd hscan hfree h0 hn (.inl rfl), ?_⟩
    rw [Graph.settle, if_neg] at hs
    · simpa using hs
    · rw [Graph.make_self _ _ _ _ _ _ _ hne]
      simp

theorem sys_mkdir_spec (path : List Char) (hs : At b p g h [] ∅ s) (ht : g.Tidy h) (hg : ¬ F noType → g.Sound h)
    (hcwd : 0 < h (b.cwd p)) :
    Does p F (sys_mkdir path) (fun _ s' => ∃ g', Graph.Outcome g b.ninodes h (b.cwd p) (.mkdir path) g' h ∧
      At b p g' h [] ∅ s') s := by
  unfold sys_mkdir
  rw [does_bind]
  exact (create_spec hF True trivial path .dir 0 0 (by decide) hs ht hg hcwd).mono fun r s hs =>
    created_spec hF _ path .dir 0 0 (.mkdir path) ht r hs

theorem sys_mknod_spec (path : List Char) (major minor : Int) (hs : At b p g h [] ∅ s) (ht : g.Tidy h)
    (hg : ¬ F noType → g.Sound h) (hcwd : 0 < h (b.cwd p)) :
    Does p F (sys_mknod path major minor) (fun _ s' =>
      ∃ g', Graph.Outcome g b.ninodes h (b.cwd p) (.mknod path major minor) g' h ∧ At b p g' h [] ∅ s') s := by
  unfold sys_mknod
  rw [does_bind]
  exact (create_spec hF True trivial path .dev major minor (by decide) hs ht hg hcwd).mono fun r s hs =>
    created_spec hF _ path .dev major minor (.mknod path major minor) ht r hs

theorem openInode_spec (path : List Char) (omode : Nat) (hs : At b p g h [] ∅ s) (ht : g.Tidy h)
    (hg : ¬ F noType → g.Sound h) (hcwd : 0 < h (b.cwd p)) :
    Does p F (openInode path omode) (Creation (omode &&& O_CREATE ≠ 0) b p g h path .file 0 0) s := by
  unfold openInode
  split_ifs with hmode
  · exact create_spec hF _ hmode path .file 0 0 (by decide) hs ht hg hcwd
  rw [does_bind]
  refine (namei_spec hF path hs ht hg hcwd).mono ?_
  rintro (_ | ip) s ⟨-, hip, hs⟩
  · exact hs
  rw [does_bind]
  refine (ilock_spec hF ip hs (hip ip rfl)).mono ?_
  rintro _ s ⟨hs, -, halloc⟩
  have hs' : At b p g h [ip] {ip} s := by simpa using hs
  rw [does_bind, does_type]
  split_ifs
  · rw [does_bind]
    refine (iunlockput_kept_spec hF ip hs' ht).mono fun _ s hs => ?_
    simpa [Creation] using hs
  · exact .inl ⟨hs', halloc⟩

theorem openFile_spec (i : Nat) (hs : InCall b p g h [i] {i} s) (hkept : g.settle i (h i) = g) :
    Does p F (openFile i) (fun _ s' => InCall b p g h [] ∅ s' ∨ InCall b p g (hold h i) [] ∅ s') s := by
  have hput : ∀ s : Fs nproc, InCall b p g h [i] {i} s → Does p F (iunlockput i) (fun _ => InCall b p g h [] ∅) s := by
    intro s hs
    refine (iunlockput_spec hF i hs.here).mono fun _ s' hs' => hs.step ?_
    simpa [hkept] using hs'
  unfold openFile
  rw [does_bind, does_filealloc]
  rcases hf : (List.finRange NFILE).find? fun f => (s.file f).ref = 0 with _ | f
  · rw [does_bind]
    exact (hput s hs).mono fun _ s hs => .inl hs
  have href : (s.file f).ref = 0 := by simpa using List.find?_some hf
  dsimp only
  rw [hs.files f href]
  have hs₁ := hs.setFile_same f ⟨1, none⟩ (by simp) (by simp [fileRefs, href])
  have hf₁ : (s.setFile f ⟨1, none⟩).file f = ⟨1, none⟩ := update_self ..
  generalize s.setFile f ⟨1, none⟩ = s₁ at hs₁ hf₁
  rw [does_bind, does_fdalloc]
  rcases (List.range NOFILE).find? fun fd => s₁.ofile p fd = none with _ | fd
  · unfold fileclose
    rw [does_bind, does_bind, does_fileclose, hf₁, if_neg (by simp), if_neg (by simp)]
    rw [does_pure, does_bind]
    exact (hput _ (hs₁.setFile_same f ⟨0, none⟩ (by simp) (by simp [fileRefs, hf₁]))).mono fun _ s hs => .inl hs
  · dsimp only
    rw [does_bind]
    have hs₂ := hs₁.setOfile fd (some f)
    refine (iunlock_spec hF i hs₂.here).mono ?_
    rintro _ s₃ ⟨hs₃, -⟩
    rw [does_bind, does_setIp]
    have hf₃ : s₃.file f = ⟨1, none⟩ := by rw [hs₃.file]; exact hf₁
    have hs₃ := hs₂.step hs₃
    rw [Finset.erase_singleton] at hs₃
    obtain ⟨h', h1, h2⟩ := holds_file s₃.cwd s₃.file f
    refine .inr (hs₃.setFile f ⟨(s₃.file f).ref, some i⟩ (by simp [hf₃]) ?_ ((At.hold_iff i).mpr hs₃.here))
    funext j
    have hj := h1 j
    rw [hs₃.held, hf₃] at hj
    rw [h2, hf₃, hold, hj]
    simp [fileRefs, eq_comm]

theorem sys_open_spec (path : List Char) (omode : Nat) (hb : Quiet b) (ht : b.dinode.Tidy (holds b.cwd b.file))
    (hg : ¬ F noType → b.dinode.Sound (holds b.cwd b.file)) :
    Does p F (sys_open path omode) (fun _ => After b p (.open path omode)) b := by
  have hcwd := holds_cwd_pos b.cwd b.file p
  have hin := InCall.start hb p
  unfold sys_open
  rw [does_bind]
  refine (openInode_spec hF path omode (hb.at p) ht hg hcwd).mono ?_
  rintro (_ | i) s hs
  · exact (hin.step hs).after (.same _)
  rcases hs with ⟨hs, halloc⟩ | ⟨hmode, dp, name, hp, hd, hscan, hfree, h0, hn, hne, hs⟩
  · refine (openFile_spec hF i (hin.step hs) (ht.settle_self i)).mono ?_
    rintro _ s (hs | hs)
    · exact hs.after (.same _)
    · exact hs.after (.opened path omode i halloc)
  · have hmade := fun h h' => Graph.Outcome.made (g := b.dinode) (h := h) _ path .file 0 0 dp name i h'
      (.open path omode hmode) hp hd hscan hfree h0 hn
    refine (openFile_spec hF i (hin.step hs) ?_).mono ?_
    · rw [Graph.settle, if_neg]
      rw [Graph.make_self _ _ _ _ _ _ _ hne]
      simp
    rintro _ s (hs | hs)
    · exact hs.after (hmade _ _ (.inl rfl))
    · exact hs.after (hmade _ _ (.inr rfl))

theorem sys_chdir_spec (path : List Char) (hb : Quiet b) (ht : b.dinode.Tidy (holds b.cwd b.file))
    (hg : ¬ F noType → b.dinode.Sound (holds b.cwd b.file)) :
    Does p F (sys_chdir path) (fun _ => After b p (.chdir path)) b := by
  have hcwd := holds_cwd_pos b.cwd b.file p
  have hin := InCall.start hb p
  unfold sys_chdir
  rw [does_bind]
  refine (namei_spec hF path (hb.at p) ht hg hcwd).mono ?_
  rintro (_ | ip) s ⟨-, hip, hs⟩
  · exact (hin.step hs).after (.same _)
  rw [does_bind]
  refine (ilock_spec hF ip hs (hip ip rfl)).mono ?_
  rintro _ s ⟨hs, -, -⟩
  rw [does_bind, does_type, hs.dinode]
  by_cases hd : (b.dinode ip).type = .dir
  swap
  · rw [if_pos hd, does_bind]
    refine (iunlockput_kept_spec hF ip hs ht).mono fun _ s hs => (hin.step ?_).after (.same _)
    simpa using hs
  rw [if_neg (by simpa using hd), does_bind]
  refine (iunlock_spec hF ip hs).mono ?_
  rintro _ s ⟨hs, -⟩
  rw [does_bind, does_cwd, hs.cwd, does_bind]
  obtain ⟨h, hh, hset⟩ := holds_cwd b.cwd b.file p
  have hs : At b p b.dinode h [b.cwd p, ip] ∅ s := by
    rw [← At.hold_iff, ← hh]
    simpa using hs
  refine (iput_spec hF (b.cwd p) hs).mono fun _ s hs => ?_
  rw [does_bind, does_setCwd]
  have hcount : h (b.cwd p) + [ip].count (b.cwd p) = hold h ip (b.cwd p) := by
    unfold hold
    simp only [List.count_singleton, beq_iff_eq, eq_comm (a := ip)]
  rw [hcount] at hs
  have hs' := (At.hold_iff ip).mpr (hs.retable { s with cwd := update s.cwd p ip } rfl rfl)
  refine InCall.after ⟨hs', ?_, ?_, hs.ninodes⟩ (.moved path h hh ip hd)
  · rw [hs.cwd, hs.file, hset]
  · rw [hs.file]
    exact hb.files

theorem sys_close_spec (fd : Nat) (hb : Quiet b) : Does p F (sys_close fd) (fun _ => After b p (.close fd)) b := by
  have hin := InCall.start hb p
  unfold sys_close
  rw [does_bind, does_argfd]
  rcases (if fd < NOFILE then b.ofile p fd else none) with _ | f
  · exact hin.after (.same _)
  rw [does_bind, does_clearFd]
  have hs := hin.setOfile fd none
  have hfile : (b.setOfile p fd none).file = b.file := rfl
  generalize b.setOfile p fd none = s at hs hfile
  unfold fileclose
  rw [does_bind, does_bind, does_fileclose]
  split_ifs with h0 h1
  · exact hF _ (by decide)
  · refine InCall.after (hs.setFile_same f _ ?_ ?_) (.same _)
    · simp; omega
    · intro i
      have h2 : 0 < (s.file f).ref - 1 := by omega
      have h3 : 0 < (s.file f).ref := by omega
      simp [fileRefs, h2, h3]
  · have href : (s.file f).ref = 1 := by omega
    rcases hip : (s.file f).ip with _ | i
    · exact InCall.after (hs.setFile_same f ⟨0, none⟩ (by simp) (by simp [fileRefs, hip])) (.same _)
    obtain ⟨h, hh, hset⟩ := holds_file s.cwd s.file f
    have hold : holds b.cwd b.file = hold h i := by
      rw [← hs.held]
      funext j
      rw [hh]
      unfold hold
      simp [fileRefs, href, hip, eq_comm]
    have hs' : InCall b p b.dinode h [i] ∅ (s.setFile f ⟨0, none⟩) := by
      refine hs.setFile f ⟨0, none⟩ (by simp) ?_ ?_
      · funext j
        rw [hset]
        simp [fileRefs]
      · rw [← At.hold_iff, ← hold]
        exact hs.here
    refine (iput_spec hF i hs'.here).mono fun _ s hs => ?_
    exact (hs'.step hs).after (.closed fd i h hold)

end

/-- **Refinement.** A call started between two calls does to the naming graph what its outcome says, or stops. It does
not stop for want of an inode type when everything held or named is allocated. -/
theorem call_refines (p : Fin nproc) (c : Call) (b : Fs nproc) (hb : Quiet b)
    (ht : b.dinode.Tidy (holds b.cwd b.file)) :
    Cmd.wp (c.run p) (fun _ => After b p c)
      (fun e _ => e = noType → ¬ b.dinode.Sound (holds b.cwd b.file)) b := by
  have hF : ∀ e, e ≠ noType → e = noType → ¬ b.dinode.Sound (holds b.cwd b.file) := fun e h1 h2 => absurd h2 h1
  have hg : ¬ (noType = noType → ¬ b.dinode.Sound (holds b.cwd b.file)) → b.dinode.Sound (holds b.cwd b.file) := by
    intro h
    simpa using h
  have hcwd := holds_cwd_pos b.cwd b.file p
  have hin := InCall.start hb p
  cases c with
  | link old new =>
    exact (sys_link_spec hF old new (hb.at p) ht hg hcwd).mono fun _ s ⟨_, ho, hs⟩ => (hin.step hs).after ho
  | unlink path =>
    exact (sys_unlink_spec hF path (hb.at p) ht hg hcwd).mono fun _ s ⟨_, ho, hs⟩ => (hin.step hs).after ho
  | «open» path omode => exact sys_open_spec hF path omode hb ht hg
  | mkdir path =>
    exact (sys_mkdir_spec hF path (hb.at p) ht hg hcwd).mono fun _ s ⟨_, ho, hs⟩ => (hin.step hs).after ho
  | mknod path major minor =>
    exact (sys_mknod_spec hF path major minor (hb.at p) ht hg hcwd).mono fun _ s ⟨_, ho, hs⟩ => (hin.step hs).after ho
  | chdir path => exact sys_chdir_spec hF path hb ht hg
  | close fd => exact sys_close_spec hF fd hb

end Xv6
