import Xv6.Fs.Outcome

/-! # The image that `mkfs.c` makes: a root directory and files -/

open Lib

namespace Xv6

def NINODES : Nat := 200

/-- The name of a file given to `mkfs`, without a leading underscore. -/
def mkfsName (arg : List Char) : Name := (if arg.head? = some '_' then arg.tail else arg).take DIRSIZ

/-- Entries of files with inode numbers from `i` on. -/
def fileEnts : Nat → List (List Char) → List Dirent
  | _, [] => []
  | i, arg :: args => ⟨i, mkfsName arg⟩ :: fileEnts (i + 1) args

/-- The root's size is rounded up, to the next block if it is full. -/
def rootEnts (args : List (List Char)) : List Dirent :=
  let ents := ⟨ROOTINO, dot⟩ :: ⟨ROOTINO, dotdot⟩ :: fileEnts 2 args
  ents ++ List.replicate ((ents.length / 32 + 1) * 32 - ents.length) ⟨0, []⟩

def mkfs (args : List (List Char)) : Graph := fun i =>
  if i = ROOTINO then { type := .dir, major := 0, minor := 0, nlink := 1, ents := rootEnts args }
  else if 2 ≤ i ∧ i < 2 + args.length then { type := .file, major := 0, minor := 0, nlink := 1, ents := [] }
  else { type := .free, major := 0, minor := 0, nlink := 0, ents := [] }

structure MkfsArgs (args : List (List Char)) : Prop where
  fit : args.length + 2 ≤ NINODES
  names : ∀ arg ∈ args, mkfsName arg ≠ dot ∧ mkfsName arg ≠ dotdot

theorem countP_fileEnts (args : List (List Char)) (k i : Nat) :
    (fileEnts k args).countP (·.inum = i) = if k ≤ i ∧ i < k + args.length then 1 else 0 := by
  induction args generalizing k with
  | nil =>
    rw [if_neg (by simp)]
    rfl
  | cons arg args ih =>
    unfold fileEnts
    rw [List.countP_cons, ih, List.length_cons]
    simp only [decide_eq_true_eq]
    split_ifs <;> omega

theorem name_fileEnts (args : List (List Char)) (k : Nat) (e : Dirent) (he : e ∈ fileEnts k args) :
    ∃ arg ∈ args, e.name = mkfsName arg := by
  induction args generalizing k with
  | nil => cases he
  | cons arg args ih =>
    rcases List.mem_cons.mp he with rfl | he
    · exact ⟨arg, by simp, rfl⟩
    · obtain ⟨a, ha, h⟩ := ih _ he
      exact ⟨a, by simp [ha], h⟩

section

variable (args : List (List Char))

theorem mkfs_root : mkfs args ROOTINO = { type := .dir, major := 0, minor := 0, nlink := 1, ents := rootEnts args } :=
  if_pos rfl

theorem mkfs_linked : (mkfs args ROOTINO).LinkedDir ∧ (mkfs args ROOTINO).up = ROOTINO := by
  rw [mkfs_root]
  exact ⟨⟨rfl, Int.one_pos⟩, rfl⟩

theorem mkfs_dir (i : Nat) (hi : (mkfs args i).type = .dir) : i = ROOTINO := by
  unfold mkfs at hi
  split_ifs at hi with h
  exact h

theorem mkfs_names : (mkfs args ROOTINO).names = fileEnts 2 args ++
    List.replicate (((fileEnts 2 args).length + 2) / 32 * 32 + 30 - (fileEnts 2 args).length) ⟨0, []⟩ := by
  rw [mkfs_root]
  simp only [Dinode.names, rootEnts, List.length_cons, List.cons_append, List.drop_succ_cons, List.drop_zero]
  congr 2
  omega

theorem mkfs_nlink (i : Nat) (hi : i ≠ 0) :
    (mkfs args i).nlink = ((mkfs args ROOTINO).nameCount i + (mkfs args ROOTINO).upCount i : Nat) := by
  obtain ⟨hlinked, hup⟩ := mkfs_linked args
  rw [Dinode.nameCount_linked _ hlinked, Dinode.upCount_linked _ hlinked, mkfs_names, List.countP_append,
    countP_fileEnts, List.countP_replicate, hup, if_neg (c := decide (_ = i) = true) (by simpa using Ne.symm hi)]
  have h1 : ROOTINO = 1 := rfl
  unfold mkfs
  split_ifs <;> first | rfl | omega

theorem mkfs_links (h : MkfsArgs args) : (mkfs args).Links NINODES := by
  obtain ⟨hlinked, hup⟩ := mkfs_linked args
  have hn : ROOTINO < NINODES := by decide
  have honly : ∀ d : Fin NINODES, d ≠ ⟨ROOTINO, hn⟩ → ¬ (mkfs args d).LinkedDir := by
    intro d hd hl
    exact hd (Fin.ext (mkfs_dir args d hl.1))
  have hname : ∀ i, (mkfs args).nameTotal NINODES i = (mkfs args ROOTINO).nameCount i := by
    intro i
    refine Finset.sum_eq_single (⟨ROOTINO, hn⟩ : Fin NINODES) (fun d _ hd => Dinode.nameCount_not i (honly d hd)) ?_
    exact fun h => absurd (Finset.mem_univ _) h
  have hupt : ∀ i, (mkfs args).upTotal NINODES i = (mkfs args ROOTINO).upCount i := by
    intro i
    refine Finset.sum_eq_single (⟨ROOTINO, hn⟩ : Fin NINODES) (fun d _ hd => Dinode.upCount_not i (honly d hd)) ?_
    exact fun h => absurd (Finset.mem_univ _) h
  refine ⟨fun i hi => ?_, fun i hi => ?_, fun i hi => ?_, fun i hi => ?_, fun d hd h0 => ?_, fun d hd e he ht => ?_,
    fun d hd => ?_, hlinked, hup⟩
  · have := h.fit
    have h1 : ROOTINO = 1 := rfl
    unfold mkfs at hi
    split_ifs at hi <;> first | omega | simp at hi
  · unfold mkfs at hi ⊢
    split_ifs at hi ⊢
    simp_all
  · obtain rfl := mkfs_dir args i hi
    refine ⟨?_, by decide, by rw [hup]; decide, fun e he h0 => ?_⟩
    · rw [mkfs_root]; rfl
    · rw [mkfs_names] at he
      rcases List.mem_append.mp he with he | he
      · obtain ⟨arg, ha, hn⟩ := name_fileEnts _ _ _ he
        rw [hn]
        exact h.names arg ha
      · rw [(List.mem_replicate.mp he).2] at h0
        exact absurd rfl h0
  · rw [hname, hupt, mkfs_nlink args i hi]
    push_cast
    rfl
  · obtain rfl := mkfs_dir args d hd
    have := hlinked.2
    omega
  · rw [mkfs_dir args d hd.1, mkfs_dir args _ ht, hup]
  · obtain rfl := mkfs_dir args d hd.1
    have hnl := mkfs_nlink args ROOTINO (by decide)
    rw [Dinode.upCount_linked _ hlinked, if_pos hup] at hnl
    rw [hname, if_pos rfl]
    rw [mkfs_root] at hnl
    dsimp only at hnl
    rw [mkfs_root]
    omega

end

end Xv6
