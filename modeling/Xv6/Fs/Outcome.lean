import Xv6.Fs.Links

/-!
# What a call keeps of the naming graph

Link counts stay exact as long as no entry is added to a directory without links. The `..` of such
a directory leads somewhere as long as no directory it leads to is unlinked.
-/

open Lib

namespace Xv6.Graph

variable {g : Graph} {n : Nat} {h : Nat → Nat}

/-- Inodes without links are held, and what is held is allocated. -/
structure Held (g : Graph) (h : Nat → Nat) : Prop where
  kept : ∀ i, (g i).type ≠ .free → (g i).nlink = 0 → 0 < h i
  alloc : ∀ i, 0 < h i → (g i).type ≠ .free

theorem Links.tidy (hl : g.Links n) (hh : g.Held h) : g.Tidy h := ⟨hl.nlink_nonneg, hh.kept⟩

theorem settle_of_ne (i k : Nat) (hn : (g i).nlink ≠ 0) : g.settle i k = g := if_neg fun h => hn h.2.1

theorem Held.settle (i : Nat) (hk : ∀ j, j ≠ i → (g j).type ≠ .free → (g j).nlink = 0 → 0 < h j)
    (ha : ∀ j, 0 < h j → (g j).type ≠ .free) : (g.settle i (h i)).Held h := by
  unfold Graph.settle
  split_ifs with hs
  · have hself : g.reap i i = { g i with type := .free, ents := [] } := modify_self ..
    have hne : ∀ j, j ≠ i → g.reap i j = g j := fun j hj => modify_ne _ _ _ _ hj
    refine ⟨fun j h1 h2 => ?_, fun j hj => ?_⟩
    · by_cases hji : j = i
      · subst hji; rw [hself] at h1; simp at h1
      · rw [hne j hji] at h1 h2; exact hk j hji h1 h2
    · have hji : j ≠ i := by
        rintro rfl
        omega
      rw [hne j hji]
      exact ha j hj
  · refine ⟨fun j h1 h2 => ?_, ha⟩
    by_cases hji : j = i
    · subst hji
      by_contra h0
      exact hs ⟨h1, h2, by omega⟩
    · exact hk j hji h1 h2

theorem hold_pos (i j : Nat) : 0 < hold h i j ↔ 0 < h j ∨ j = i := by
  unfold hold
  split_ifs <;> omega

theorem Held.grow {g' : Graph} {h' : Nat → Nat} (hh : g.Held h) (hle : ∀ j, 0 < h j → 0 < h' j)
    (hkept : ∀ j, (g' j).type ≠ .free → (g' j).nlink = 0 → (g j).type ≠ .free ∧ (g j).nlink = 0)
    (halloc : ∀ j, 0 < h' j → 0 < h j ∨ (g' j).type ≠ .free) (htype : ∀ j, (g j).type ≠ .free → (g' j).type ≠ .free) :
    g'.Held h' := by
  refine ⟨fun j h1 h2 => ?_, fun j hj => ?_⟩
  · have := hkept j h1 h2
    exact hle j (hh.kept j this.1 this.2)
  · rcases halloc j hj with hj | hj
    · exact htype j (hh.alloc j hj)
    · exact hj

/-- The path where the call may add an entry: `link` looks at `new` only if `old` names something but a directory. -/
def addsAt (g : Graph) (cwd : Nat) : Call → Option (List Char)
  | .link old new => if (g.namei cwd old).any fun i => (g i).type ≠ .dir then some new else none
  | .open path omode => if omode &&& O_CREATE ≠ 0 then some path else none
  | .mkdir path | .mknod path _ _ => some path
  | _ => none

abbrev AddsLinked (g : Graph) (cwd : Nat) (c : Call) : Prop :=
  ∀ r ∈ (g.addsAt cwd c).bind (g.parent cwd), dirScan r.2 (g r.1).ents 0 = none → 0 < (g r.1).nlink

theorem Creates.addsAt {c : Call} {path : List Char} {t : FileType} {major minor : Int}
    (hc : Creates c path t major minor) (g : Graph) (cwd : Nat) : g.addsAt cwd c = some path ∧ t ≠ .free := by
  rcases hc with ⟨path, omode, h⟩ | ⟨⟩ | ⟨⟩ <;> simp [Graph.addsAt]
  exact h

theorem addsAt_link {cwd i : Nat} {old new : List Char} (ho : g.namei cwd old = some i) (hd : (g i).type ≠ .dir) :
    g.addsAt cwd (.link old new) = some new := by
  unfold addsAt
  simp [ho, hd]

theorem Links.new_name (hl : g.Links n) (dp : Nat) (hd : (g dp).type = .dir) (name : Name)
    (hs : dirScan name (g dp).ents 0 = none) : name ≠ dot ∧ name ≠ dotdot := by
  have hdir := hl.dir dp hd
  have hall := dirScan_none _ _ _ hs
  rw [hdir.ents] at hall
  refine ⟨fun h => ?_, fun h => ?_⟩
  · exact hall ⟨dp, dot⟩ (by simp) hdir.self h.symm
  · exact hall ⟨(g dp).up, dotdot⟩ (by simp) hdir.up h.symm

section

variable (dp : Nat) (name : Name) (i : Nat) (hdp : (g dp).LinkedDir) (hs : dirScan name (g dp).ents 0 = none)

include hdp hs

theorem Links.make (hl : g.Links n) (t : FileType) (major minor : Int) (ht : t ≠ .free) (hi : (g i).type = .free)
    (h0 : 0 < i) (hn : i < n) : (g.make dp name i t major minor).Links n := by
  have hne : i ≠ dp := by
    rintro rfl
    rw [hdp.1] at hi
    cases hi
  have hself := g.make_self dp name i t major minor hne
  refine hl.add dp i name hdp hne ⟨h0, hn⟩ (hl.new_name dp hdp.1 name hs) (by rw [hi]; simp) ?_ ?_ ?_ ?_ ?_
  · rw [g.make_parent dp name i t major minor hne, hself]
  · rw [hself]; exact ht
  · rw [hself, hl.free i hi]; simp
  · rw [hself]
    rintro rfl
    refine ⟨hl.free i hi, ⟨by simp [newEnts, Dinode.up, Dinode.names], by omega, ?_, ?_⟩, ?_, ?_⟩
    · simpa [newEnts, Dinode.up] using (hl.dir dp hdp.1).self
    all_goals simp [newEnts, Dinode.up, Dinode.names]
  · exact fun j hj hd => g.make_other dp name i t major minor j hj hd

theorem Links.link (hl : g.Links n) (hi : (g i).type ≠ .free) (hd : (g i).type ≠ .dir) :
    (g.link dp name i).Links n := by
  have hne : i ≠ dp := by
    rintro rfl
    exact hd hdp.1
  have hself : g.link dp name i i = { g i with nlink := (g i).nlink + 1 } := by
    unfold Graph.link
    rw [insert_apply, addNlink_apply]
    simp [hne]
  refine hl.add dp i name hdp hne (hl.bound i hi) (hl.new_name dp hdp.1 name hs) hd ?_ ?_ ?_ ?_ ?_
  · rw [hself]
    unfold Graph.link
    rw [insert_apply, addNlink_apply]
    simp [hd, Ne.symm hne]
  · rw [hself]; exact hi
  · rw [hself]
  · rw [hself]; exact fun h => absurd h hd
  · intro j hj hjd
    unfold Graph.link
    rw [insert_apply, addNlink_apply]
    simp [hj, hjd]

end

/-- The entry of `i` at `off` in `dp` goes, and with it the links. -/
def cut (g : Graph) (dp off i : Nat) : Graph :=
  (if (g i).type = .dir then (g.erase dp off).addNlink dp (-1) else g.erase dp off).addNlink i (-1)

section

variable (dp off i : Nat) (hne : i ≠ dp)

include hne

theorem cut_self : g.cut dp off i i = { g i with nlink := (g i).nlink - 1 } := by
  unfold cut
  rw [addNlink_apply, if_pos rfl]
  split_ifs <;> simp [addNlink_apply, erase, modify_ne _ _ _ _ hne, hne, Int.sub_eq_add_neg]

theorem cut_parent : g.cut dp off i dp = { g dp with nlink := (g dp).nlink - (if (g i).type = .dir then 1 else 0),
                                                     ents := (g dp).ents.set off ⟨0, []⟩ } := by
  unfold cut
  rw [addNlink_apply, if_neg (Ne.symm hne)]
  split_ifs <;> simp [addNlink_apply, erase, Int.sub_eq_add_neg]

omit hne in
theorem cut_other (j : Nat) (hj : j ≠ i) (hd : j ≠ dp) : g.cut dp off i j = g j := by
  unfold cut
  rw [addNlink_apply, if_neg hj]
  split_ifs <;> simp [addNlink_apply, erase, modify_ne _ _ _ _ hd, hd]

theorem unlink_eq (hn : (g.cut dp off i dp).nlink ≠ 0) : g.unlink h dp off i = (g.cut dp off i).settle i (h i) := by
  unfold Graph.unlink
  dsimp only
  rw [settle_of_ne dp]
  · rfl
  · unfold cut at hn
    rw [addNlink_apply, if_neg (Ne.symm hne)] at hn
    simpa using hn

end

structure Unlinkable (g : Graph) (dp off i : Nat) (name : Name) : Prop where
  parent : (g dp).LinkedDir
  ne : i ≠ dp
  nonzero : i ≠ 0
  past : 2 ≤ off
  entry : (g dp).names[off - 2]? = some ⟨i, name⟩
  empty : (g i).type = .dir → ∀ e ∈ (g i).names, e.inum = 0

theorem Links.unlinkable (hl : g.Links n) (dp off i : Nat) (name : Name) (hd : (g dp).type = .dir) (h1 : name ≠ dot)
    (h2 : name ≠ dotdot) (hs : dirScan name (g dp).ents 0 = some (i, off))
    (he : (g i).type = .dir → dirEmpty (g i).ents = true) (hne : i ≠ dp) : g.Unlinkable dp off i name := by
  obtain ⟨hoff, hentry, h0⟩ := (hl.dir dp hd).scan name i off hs h1 h2
  refine ⟨⟨hd, ?_⟩, hne, h0, hoff, hentry, fun hd e hmem => ?_⟩
  · by_contra hn
    have hzero : (g dp).nlink = 0 := by
      have := hl.nlink_nonneg dp
      omega
    exact h0 (hl.bare dp hd hzero _ (List.mem_of_getElem? hentry))
  · have := he hd
    unfold dirEmpty at this
    simpa using List.all_eq_true.mp this e hmem

section

variable {dp off i : Nat} {name : Name} (hu : g.Unlinkable dp off i name)

include hu

theorem Links.cut (hl : g.Links n) : (g.cut dp off i).Links n :=
  hl.remove dp i off name hu.parent hu.ne hu.nonzero hu.past hu.entry hu.empty (cut_parent dp off i hu.ne)
    (cut_self dp off i hu.ne) fun j hj hd => cut_other dp off i j hj hd

theorem Links.cut_linked (hl : g.Links n) : (g.cut dp off i dp).LinkedDir := by
  rw [cut_parent dp off i hu.ne]
  refine ⟨hu.parent.1, ?_⟩
  have hpos := hu.parent.2
  dsimp only
  split_ifs with hd
  · have := (hl.empty_dir dp i hu.parent _ (List.mem_of_getElem? hu.entry) rfl hd (hu.empty hd)).2.2.2
    omega
  · omega

theorem Links.unlink_eq (hl : g.Links n) : g.unlink h dp off i = (g.cut dp off i).settle i (h i) :=
  Graph.unlink_eq dp off i hu.ne (by have := (hl.cut_linked hu).2; omega)

end

theorem Held.make (hh : g.Held h) (dp : Nat) (name : Name) (i : Nat) (t : FileType) (major minor : Int)
    (hdp : (g dp).LinkedDir) (hne : i ≠ dp) (ht : t ≠ .free) (h' : Nat → Nat)
    (hh' : h' = h ∨ h' = hold h i) : (g.make dp name i t major minor).Held h' := by
  have hself := g.make_self dp name i t major minor hne
  have hpar := g.make_parent dp name i t major minor hne
  have hoth := g.make_other dp name i t major minor
  refine hh.grow (fun j hj => ?_) (fun j h1 h2 => ?_) (fun j hj => ?_) fun j hj => ?_
  · rcases hh' with rfl | rfl
    · exact hj
    · exact (hold_pos i j).mpr (.inl hj)
  · by_cases hji : j = i
    · subst hji; rw [hself] at h2; simp at h2
    by_cases hjd : j = dp
    · subst hjd
      rw [hpar] at h2
      have := hdp.2
      dsimp only at h2
      split_ifs at h2 <;> omega
    · rw [hoth j hji hjd] at h1 h2; exact ⟨h1, h2⟩
  · rcases hh' with rfl | rfl
    · exact .inl hj
    · rcases (hold_pos i j).mp hj with hj | rfl
      · exact .inl hj
      · rw [hself]; exact .inr ht
  · by_cases hji : j = i
    · subst hji; rw [hself]; exact ht
    by_cases hjd : j = dp
    · subst hjd; rw [hpar]; exact hj
    · rw [hoth j hji hjd]; exact hj

theorem link_apply (dp : Nat) (name : Name) (i j : Nat) : (g.link dp name i j).type = (g j).type ∧
    (g.link dp name i j).nlink = (g j).nlink + if j = i then 1 else 0 := by
  unfold Graph.link
  rw [insert_apply, addNlink_apply]
  exact ⟨rfl, rfl⟩

theorem Held.link (hh : g.Held h) (hl : g.Links n) (dp : Nat) (name : Name) (i : Nat) : (g.link dp name i).Held h := by
  refine hh.grow (fun j hj => hj) (fun j h1 h2 => ?_) (fun j hj => .inl hj) fun j hj => ?_
  · rw [(link_apply dp name i j).1] at h1
    rw [(link_apply dp name i j).2] at h2
    have := hl.nlink_nonneg j
    split_ifs at h2
    · omega
    · exact ⟨h1, by omega⟩
  · rw [(link_apply dp name i j).1]
    exact hj

theorem Held.unlink (hh : g.Held h) (hl : g.Links n) {dp off i : Nat} {name : Name} (hu : g.Unlinkable dp off i name) :
    ((g.cut dp off i).settle i (h i)).Held h := by
  have htype : ∀ j, (g.cut dp off i j).type = (g j).type := by
    intro j
    by_cases hji : j = i
    · subst hji; rw [cut_self dp off j hu.ne]
    by_cases hjd : j = dp
    · subst hjd; rw [cut_parent j off i hu.ne]
    · rw [cut_other dp off i j hji hjd]
  refine Held.settle i (fun j hji h1 h2 => ?_) fun j hj => ?_
  · by_cases hjd : j = dp
    · subst hjd; have := (hl.cut_linked hu).2; omega
    · rw [cut_other dp off i j hji hjd] at h1 h2; exact hh.kept j h1 h2
  · rw [htype]
    exact hh.alloc j hj

theorem Held.moved (c i : Nat) (hh : g.Held (hold h c)) (hi : (g i).type ≠ .free) :
    (g.settle c (hold h i c)).Held (hold h i) := by
  refine Held.settle c (fun j hj h1 h2 => ?_) fun j hj => ?_
  · rcases (hold_pos c j).mp (hh.kept j h1 h2) with hj' | rfl
    · exact (hold_pos i j).mpr (.inl hj')
    · exact absurd rfl hj
  · rcases (hold_pos i j).mp hj with hj | rfl
    · exact hh.alloc j ((hold_pos c j).mpr (.inl hj))
    · exact hi

theorem Held.closed (i : Nat) (hh : g.Held (hold h i)) : (g.settle i (h i)).Held h := by
  refine Held.settle i (fun j hj h1 h2 => ?_) fun j hj => hh.alloc j ((hold_pos i j).mpr (.inl hj))
  rcases (hold_pos i j).mp (hh.kept j h1 h2) with hj' | rfl
  · exact hj'
  · exact absurd rfl hj

/-- **Exact link counts are kept** by a call that adds no entry to a directory without links. -/
theorem Outcome.links {cwd : Nat} {c : Call} {g' : Graph} {h' : Nat → Nat} (ho : g.Outcome n h cwd c g' h')
    (hl : g.Links n) (hh : g.Held h) (ha : g.AddsLinked cwd c) : g'.Links n ∧ g'.Held h' := by
  rcases ho with _ | ⟨path, omode, i, hi⟩ | ⟨_, path, t, major, minor, dp, name, i, _, hc, hp, hd, hs, hi, h0,
    hn, hhold⟩ |
    ⟨old, new, dp, name, i, ho, hp, hd, hs, hi, hdir⟩ | ⟨path, dp, name, off, i, hp, hd, h1, h2, hs, hnl, hi, he, hne⟩ |
    ⟨path, h₀, rfl, i, hi⟩ | ⟨fd, i, _, rfl⟩
  · exact ⟨hl, hh⟩
  · refine ⟨hl, hh.grow (fun j hj => (hold_pos i j).mpr (.inl hj)) (fun j h1 h2 => ⟨h1, h2⟩) (fun j hj => ?_)
      fun j hj => hj⟩
    rcases (hold_pos i j).mp hj with hj | rfl
    · exact .inl hj
    · exact .inr hi
  · have hdp : (g dp).LinkedDir := ⟨hd, ha (dp, name) (by rw [(hc.addsAt g cwd).1]; exact hp) hs⟩
    have hne : i ≠ dp := by
      rintro rfl
      rw [hd] at hi
      cases hi
    exact ⟨hl.make dp name i hdp hs t major minor (hc.addsAt g cwd).2 hi h0 hn,
      hh.make dp name i t major minor hdp hne (hc.addsAt g cwd).2 _ hhold⟩
  · have hdp : (g dp).LinkedDir := ⟨hd, ha (dp, name) (by rw [addsAt_link ho hdir]; exact hp) hs⟩
    exact ⟨hl.link dp name i hdp hs hi hdir, hh.link hl dp name i⟩
  · have hu := hl.unlinkable dp off i name hd h1 h2 hs he hne
    rw [hl.unlink_eq hu]
    exact ⟨(hl.cut hu).settle i _, hh.unlink hl hu⟩
  · exact ⟨hl.settle _ _, hh.moved cwd i (by rw [hi]; simp)⟩
  · exact ⟨hl.settle _ _, hh.closed i⟩

def UpsLinked (g : Graph) : Prop := ∀ d, (g d).type = .dir → (g d).nlink = 0 → (g (g d).up).LinkedDir

def unlinksAt : Call → Option (List Char)
  | .unlink path => some path
  | _ => none

/-- What `unlink` removes is not the `..` of a directory without links. -/
def SparesUps (g : Graph) (n cwd : Nat) (c : Call) : Prop :=
  ∀ r ∈ (unlinksAt c).bind (g.parent cwd), ∀ e ∈ dirScan r.2 (g r.1).ents 0,
    r.2 ≠ dot ∧ r.2 ≠ dotdot ∧ dirEmpty (g e.1).ents →
      ∀ d < n, (g d).type = .dir → (g d).nlink = 0 → (dirScan dotdot (g d).ents 0).map (·.1) ≠ some e.1

instance SparesUps.decidable (g : Graph) (n cwd : Nat) (c : Call) : Decidable (g.SparesUps n cwd c) := by
  unfold SparesUps
  infer_instance

theorem UpsLinked.grow {g' : Graph} (hu : g.UpsLinked)
    (hdir : ∀ d, (g' d).type = .dir → (g' d).nlink = 0 → (g d).type = .dir ∧ (g d).nlink = 0 ∧ (g' d).up = (g d).up)
    (hlinked : ∀ d, (g d).LinkedDir → (g' d).LinkedDir) : g'.UpsLinked := by
  intro d h1 h2
  obtain ⟨h3, h4, h5⟩ := hdir d h1 h2
  rw [h5]
  exact hlinked _ (hu d h3 h4)

theorem UpsLinked.settle (hu : g.UpsLinked) (i k : Nat) : (g.settle i k).UpsLinked := by
  unfold Graph.settle
  split_ifs with hs
  · have hne : ∀ j, j ≠ i → g.reap i j = g j := fun j hj => modify_ne _ _ _ _ hj
    have hself : (g.reap i i).type = .free := by unfold Graph.reap; simp
    refine hu.grow (fun d h1 h2 => ?_) fun d hd => ?_
    · have hdi : d ≠ i := by
        rintro rfl
        rw [hself] at h1
        cases h1
      rw [hne d hdi] at h1 h2 ⊢
      exact ⟨h1, h2, rfl⟩
    · rw [hne d]
      · exact hd
      · rintro rfl
        have := hd.2
        omega
  · exact hu

theorem UpsLinked.make (hu : g.UpsLinked) (dp : Nat) (name : Name) (i : Nat) (t : FileType) (major minor : Int)
    (hdp : (g dp).LinkedDir) (hi : (g i).type = .free) : (g.make dp name i t major minor).UpsLinked := by
  have hne : i ≠ dp := by
    rintro rfl
    rw [hdp.1] at hi
    cases hi
  have hself := g.make_self dp name i t major minor hne
  have hpar := g.make_parent dp name i t major minor hne
  have hoth := g.make_other dp name i t major minor
  have hlinked : (g.make dp name i t major minor dp).LinkedDir := by
    rw [hpar]
    refine ⟨hdp.1, ?_⟩
    have := hdp.2
    dsimp only
    split_ifs <;> omega
  refine hu.grow (fun d h1 h2 => ?_) fun d hd => ?_
  · by_cases hdi : d = i
    · subst hdi; rw [hself] at h2; simp at h2
    by_cases hdd : d = dp
    · subst hdd; have := hlinked.2; omega
    · rw [hoth d hdi hdd] at h1 h2 ⊢; exact ⟨h1, h2, rfl⟩
  · by_cases hdi : d = i
    · subst hdi; rw [hd.1] at hi; cases hi
    by_cases hdd : d = dp
    · subst hdd; exact hlinked
    · rw [hoth d hdi hdd]; exact hd

theorem UpsLinked.link (hu : g.UpsLinked) (hl : g.Links n) (dp : Nat) (name : Name) (i : Nat) (hdp : (g dp).LinkedDir) :
    (g.link dp name i).UpsLinked := by
  have happ := link_apply (g := g) dp name i
  refine hu.grow (fun d h1 h2 => ?_) fun d hd => ?_
  · rw [(happ d).1] at h1
    rw [(happ d).2] at h2
    have := hl.nlink_nonneg d
    have h3 : (g d).nlink = 0 := by split_ifs at h2 <;> omega
    refine ⟨h1, h3, ?_⟩
    have hdd : d ≠ dp := by
      rintro rfl
      have := hdp.2
      omega
    unfold Graph.link Dinode.up
    rw [insert_apply, addNlink_apply, if_neg hdd]
  · refine ⟨(happ d).1.trans hd.1, ?_⟩
    rw [(happ d).2]
    have := hd.2
    split_ifs <;> omega

theorem UpsLinked.cut (hu : g.UpsLinked) (hl : g.Links n) {dp off i : Nat} {name : Name}
    (hc : g.Unlinkable dp off i name) (hs : ∀ d, (g d).type = .dir → (g d).nlink = 0 → (g d).up ≠ i) :
    (g.cut dp off i).UpsLinked := by
  have hlinked := hl.cut_linked hc
  have hmem := List.mem_of_getElem? hc.entry
  intro d h1 h2
  by_cases hdi : d = i
  · subst hdi
    rw [cut_self dp off d hc.ne] at h1 ⊢
    have hup : (g d).up = dp := (hl.empty_dir dp d hc.parent _ hmem rfl h1 (hc.empty h1)).2.1
    have : ({ g d with nlink := (g d).nlink - 1 } : Dinode).up = dp := hup
    rw [this]
    exact hlinked
  have hdd : d ≠ dp := by
    rintro rfl
    have := hlinked.2
    omega
  rw [cut_other dp off i d hdi hdd] at h1 h2 ⊢
  by_cases hud : (g d).up = dp
  · rw [hud]; exact hlinked
  · rw [cut_other dp off i _ (hs d h1 h2) hud]
    exact hu d h1 h2

theorem Outcome.ups {cwd : Nat} {c : Call} {g' : Graph} {h' : Nat → Nat} (ho : g.Outcome n h cwd c g' h')
    (hl : g.Links n) (hu : g.UpsLinked) (ha : g.AddsLinked cwd c) (hsp : g.SparesUps n cwd c) : g'.UpsLinked := by
  rcases ho with _ | ⟨path, omode, i, hi⟩ | ⟨_, path, t, major, minor, dp, name, i, _, hc, hp, hd, hs, hi, h0,
    hn, hhold⟩ |
    ⟨old, new, dp, name, i, ho, hp, hd, hs, hi, hdir⟩ | ⟨path, dp, name, off, i, hp, hd, h1, h2, hs, hnl, hi, he, hne⟩ |
    ⟨path, h₀, rfl, i, hi⟩ | ⟨fd, i, _, rfl⟩
  · exact hu
  · exact hu
  · exact hu.make dp name i t major minor ⟨hd, ha (dp, name) (by rw [(hc.addsAt g cwd).1]; exact hp) hs⟩ hi
  · exact hu.link hl dp name i ⟨hd, ha (dp, name) (by rw [addsAt_link ho hdir]; exact hp) hs⟩
  · have hc := hl.unlinkable dp off i name hd h1 h2 hs he hne
    rw [hl.unlink_eq hc]
    refine (hu.cut hl hc fun d hd h0 hup => ?_).settle i _
    have hempty := he (hup ▸ (hu d hd h0).1)
    refine hsp (dp, name) hp (i, off) hs ⟨h1, h2, hempty⟩ d (hl.bound d (by rw [hd]; simp)).2 hd h0 ?_
    rw [(hl.dir d hd).scan_up, ← hup]
    rfl
  · exact hu.settle _ _
  · exact hu.settle _ _

/-- **Nothing dangles.** -/
theorem Links.sound (hl : g.Links n) (hh : g.Held h) (hu : g.UpsLinked) : g.Sound h := by
  have halloc : ∀ i, 0 < (g i).nlink → (g i).type ≠ .free := by
    intro i hi hf
    have := hl.free i hf
    omega
  refine ⟨halloc _ hl.root.1.2, hh.alloc, fun d hd e he h0 => ?_⟩
  have hdir := hl.dir d hd
  have hdb := hl.bound d (by rw [hd]; simp)
  rw [hdir.ents, List.mem_cons, List.mem_cons] at he
  by_cases hlink : (g d).LinkedDir
  · rcases he with rfl | rfl | he
    · rw [hd]; simp
    · refine halloc _ ?_
      have hle : (g d).upCount (g d).up ≤ g.upTotal n (g d).up :=
        le_sum (fun j : Fin n => (g j).upCount (g d).up) ⟨d, hdb.2⟩
      rw [Dinode.upCount_linked _ hlink, if_pos rfl] at hle
      have := hl.exact (g d).up hdir.up
      dsimp only
      omega
    · exact halloc _ (hl.named_nlink d hlink e he h0)
  · have hz : (g d).nlink = 0 := by
      have := hl.nlink_nonneg d
      by_contra hz
      exact hlink ⟨hd, by omega⟩
    rcases he with rfl | rfl | he
    · rw [hd]; simp
    · exact halloc _ (hu d hd hz).2
    · exact absurd (hl.bare d hd hz e he) h0

end Xv6.Graph
