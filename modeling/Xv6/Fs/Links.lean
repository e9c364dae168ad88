import Xv6.Fs.Graph
import Xv6.Lib.Count

/-!
# Link counts of the naming graph

A directory starts with `.` and `..`, and its other entries are its names. The link count of an
inode is the number of names and of `..` entries for it in directories that are linked themselves.
`Links` says so, with what has to hold of names and `..` for every change of the graph to keep it.
-/

open Lib

namespace Xv6

theorem mem_dirInsert (new e : Dirent) (ents : List Dirent) (h : e ∈ dirInsert new ents) : e = new ∨ e ∈ ents := by
  induction ents with
  | nil => simpa [dirInsert] using h
  | cons x xs ih =>
    unfold dirInsert at h
    split_ifs at h
    · rcases List.mem_cons.mp h with h | h
      · exact .inl h
      · exact .inr (by simp [h])
    · rcases List.mem_cons.mp h with h | h
      · exact .inr (by simp [h])
      · rcases ih h with h | h
        · exact .inl h
        · exact .inr (by simp [h])

theorem countP_dirInsert (new : Dirent) (ents : List Dirent) (i : Nat) (hi : i ≠ 0) :
    (dirInsert new ents).countP (·.inum = i) = ents.countP (·.inum = i) + if new.inum = i then 1 else 0 := by
  induction ents with
  | nil => simp [dirInsert]
  | cons x xs ih =>
    unfold dirInsert
    split_ifs with hx hn hn
    all_goals simp only [List.countP_cons, ih]
    all_goals simp [hx, hn, Ne.symm hi]
    all_goals omega

theorem dirScan_none (name : Name) (ents : List Dirent) (off : Nat) (h : dirScan name ents off = none) :
    ∀ e ∈ ents, e.inum ≠ 0 → e.name ≠ name := by
  induction ents generalizing off with
  | nil => simp
  | cons x xs ih =>
    unfold dirScan at h
    split_ifs at h with hx
    intro e he h0 hn
    rcases List.mem_cons.mp he with rfl | he
    · exact hx ⟨h0, hn⟩
    · exact ih _ h e he h0 hn

theorem dirScan_some (name : Name) (ents : List Dirent) (off i k : Nat) (h : dirScan name ents off = some (i, k)) :
    off ≤ k ∧ ents[k - off]? = some ⟨i, name⟩ ∧ i ≠ 0 := by
  induction ents generalizing off with
  | nil => cases h
  | cons x xs ih =>
    unfold dirScan at h
    split_ifs at h with hx
    · cases h
      obtain ⟨h0, rfl⟩ := hx
      simpa using h0
    · obtain ⟨h1, h2, h3⟩ := ih _ h
      have hk : k - off = k - (off + 1) + 1 := by omega
      exact ⟨by omega, by rw [hk]; simpa using h2, h3⟩

theorem countP_erase (ents : List Dirent) (k i : Nat) (name : Name) (h : ents[k]? = some ⟨i, name⟩) (j : Nat)
    (hj : j ≠ 0) : (ents.set k ⟨0, []⟩).countP (·.inum = j) + (if i = j then 1 else 0) = ents.countP (·.inum = j) := by
  induction ents generalizing k with
  | nil => simp at h
  | cons x xs ih =>
    rcases k with _ | k
    · simp only [List.getElem?_cons_zero, Option.some.injEq] at h
      subst h
      simp [List.countP_cons, Ne.symm hj]
    · simp only [List.getElem?_cons_succ] at h
      have := ih k h
      simp only [List.set_cons_succ, List.countP_cons]
      omega

theorem mem_erase (ents : List Dirent) (k : Nat) (e : Dirent) (h : e ∈ ents.set k ⟨0, []⟩) (h0 : e.inum ≠ 0) :
    e ∈ ents := by
  rcases List.mem_or_eq_of_mem_set h with h | rfl
  · exact h
  · exact absurd rfl h0

namespace Dinode

/-- Inode of the second entry, `..`. -/
def up (d : Dinode) : Nat := ((d.ents.drop 1).map (·.inum)).headD 0

def names (d : Dinode) : List Dirent := d.ents.drop 2

abbrev LinkedDir (d : Dinode) : Prop := d.type = .dir ∧ 0 < d.nlink

structure IsDir (d : Dinode) (i : Nat) : Prop where
  ents : d.ents = ⟨i, dot⟩ :: ⟨d.up, dotdot⟩ :: d.names
  self : i ≠ 0
  up : d.up ≠ 0
  names : ∀ e ∈ d.names, e.inum ≠ 0 → e.name ≠ dot ∧ e.name ≠ dotdot

theorem IsDir.insert {d : Dinode} {i : Nat} (hd : d.IsDir i) (new : Dirent) (hnew : new.name ≠ dot ∧ new.name ≠ dotdot)
    (d' : Dinode) (hd' : d'.ents = dirInsert new d.ents) : d'.up = d.up ∧ d'.names = dirInsert new d.names ∧
    d'.IsDir i := by
  have hents : d'.ents = ⟨i, dot⟩ :: ⟨d.up, dotdot⟩ :: dirInsert new d.names := by
    rw [hd', hd.ents]
    simp [dirInsert, hd.self, hd.up]
  have hup : d'.up = d.up := by simp [Dinode.up, hents]
  have hnames : d'.names = dirInsert new d.names := by simp [Dinode.names, hents]
  refine ⟨hup, hnames, ?_, hd.self, hup ▸ hd.up, ?_⟩
  · rw [hents, hup, hnames]
  · intro e he h0
    rw [hnames] at he
    rcases mem_dirInsert _ _ _ he with rfl | he
    · exact hnew
    · exact hd.names e he h0

theorem IsDir.scan {d : Dinode} {i : Nat} (hd : d.IsDir i) (name : Name) (j off : Nat)
    (hs : dirScan name d.ents 0 = some (j, off)) (h1 : name ≠ dot) (h2 : name ≠ dotdot) :
    2 ≤ off ∧ d.names[off - 2]? = some ⟨j, name⟩ ∧ j ≠ 0 := by
  obtain ⟨-, hk, h0⟩ := dirScan_some _ _ _ _ _ hs
  rw [hd.ents] at hk
  rcases off with _ | _ | off
  · simp at hk; exact absurd hk.2.symm h1
  · simp at hk; exact absurd hk.2.symm h2
  · exact ⟨by omega, by simpa using hk, h0⟩

theorem IsDir.scan_up {d : Dinode} {i : Nat} (hd : d.IsDir i) : dirScan dotdot d.ents 0 = some (d.up, 1) := by
  rw [hd.ents]
  simp [dirScan, hd.up, dot, dotdot]

theorem IsDir.erase {d : Dinode} {i : Nat} (hd : d.IsDir i) (off : Nat) (hoff : 2 ≤ off) (d' : Dinode)
    (hd' : d'.ents = d.ents.set off ⟨0, []⟩) : d'.up = d.up ∧ d'.names = d.names.set (off - 2) ⟨0, []⟩ ∧
    d'.IsDir i := by
  obtain ⟨k, rfl⟩ : ∃ k, off = k + 2 := ⟨off - 2, by omega⟩
  have hents : d'.ents = ⟨i, dot⟩ :: ⟨d.up, dotdot⟩ :: d.names.set k ⟨0, []⟩ := by
    rw [hd', hd.ents]
    simp
  have hup : d'.up = d.up := by simp [Dinode.up, hents]
  have hnames : d'.names = d.names.set k ⟨0, []⟩ := by simp [Dinode.names, hents]
  refine ⟨hup, hnames, ?_, hd.self, hup ▸ hd.up, ?_⟩
  · rw [hents, hup, hnames]
  · intro e he h0
    rw [hnames] at he
    exact hd.names e (mem_erase _ _ _ he h0) h0

def nameCount (d : Dinode) (i : Nat) : Nat := if d.LinkedDir then d.names.countP (·.inum = i) else 0

def upCount (d : Dinode) (i : Nat) : Nat := if d.LinkedDir then if d.up = i then 1 else 0 else 0

section

variable {d : Dinode} (i : Nat)

theorem nameCount_linked (h : d.LinkedDir) : d.nameCount i = d.names.countP (·.inum = i) := if_pos h

theorem nameCount_not (h : ¬ d.LinkedDir) : d.nameCount i = 0 := if_neg h

theorem upCount_linked (h : d.LinkedDir) : d.upCount i = if d.up = i then 1 else 0 := if_pos h

theorem upCount_not (h : ¬ d.LinkedDir) : d.upCount i = 0 := if_neg h

end

end Dinode

namespace Graph

def nameTotal (g : Graph) (n i : Nat) : Nat := ∑ d : Fin n, (g d).nameCount i

def upTotal (g : Graph) (n i : Nat) : Nat := ∑ d : Fin n, (g d).upCount i

theorem nameTotal_change (g g' : Graph) (n d : Nat) (hd : d < n) (i : Nat)
    (h : ∀ j, j ≠ d → (g' j).nameCount i = (g j).nameCount i) :
    g'.nameTotal n i + (g d).nameCount i = g.nameTotal n i + (g' d).nameCount i :=
  sum_move (fun j : Fin n => (g j).nameCount i) (fun j : Fin n => (g' j).nameCount i) ⟨d, hd⟩
    fun j hj => h j fun hjd => hj (Fin.ext hjd)

theorem upTotal_change (g g' : Graph) (n d : Nat) (hd : d < n) (i : Nat)
    (h : ∀ j, j ≠ d → (g' j).upCount i = (g j).upCount i) :
    g'.upTotal n i + (g d).upCount i = g.upTotal n i + (g' d).upCount i :=
  sum_move (fun j : Fin n => (g j).upCount i) (fun j : Fin n => (g' j).upCount i) ⟨d, hd⟩
    fun j hj => h j fun hjd => hj (Fin.ext hjd)

structure Links (g : Graph) (n : Nat) : Prop where
  bound : ∀ i, (g i).type ≠ .free → 0 < i ∧ i < n
  free : ∀ i, (g i).type = .free → (g i).nlink = 0
  dir : ∀ i, (g i).type = .dir → (g i).IsDir i
  exact : ∀ i, i ≠ 0 → (g i).nlink = g.nameTotal n i + g.upTotal n i
  /-- A directory without links has no names. -/
  bare : ∀ d, (g d).type = .dir → (g d).nlink = 0 → ∀ e ∈ (g d).names, e.inum = 0
  /-- A directory's `..` is where its name is. -/
  child : ∀ d, (g d).LinkedDir → ∀ e ∈ (g d).names, (g e.inum).type = .dir → (g e.inum).up = d
  single : ∀ d, (g d).LinkedDir → g.nameTotal n d = if d = ROOTINO then 0 else 1
  root : (g ROOTINO).LinkedDir ∧ (g ROOTINO).up = ROOTINO

variable {g : Graph} {n : Nat}

namespace Links

variable (hl : g.Links n)

section

include hl

theorem nlink_nonneg (i : Nat) : 0 ≤ (g i).nlink := by
  rcases Nat.eq_zero_or_pos i with rfl | hi
  · have h0 : (g 0).type = .free := by
      by_contra h
      have := (hl.bound 0 h).1
      omega
    rw [hl.free 0 h0]
  · rw [hl.exact i (by omega)]
    omega

theorem named_pos (d : Nat) (hd : (g d).LinkedDir) (e : Dirent) (he : e ∈ (g d).names) :
    0 < g.nameTotal n e.inum := by
  have hn := hl.bound d (by rw [hd.1]; simp)
  have hle := le_sum (fun j : Fin n => (g j).nameCount e.inum) ⟨d, hn.2⟩
  have hpos : 0 < (g d).nameCount e.inum := by
    unfold Dinode.nameCount
    rw [if_pos hd, List.countP_pos_iff]
    exact ⟨e, he, by simp⟩
  exact lt_of_lt_of_le hpos hle

theorem named_nlink (d : Nat) (hd : (g d).LinkedDir) (e : Dirent) (he : e ∈ (g d).names) (h0 : e.inum ≠ 0) :
    0 < (g e.inum).nlink := by
  have := hl.named_pos d hd e he
  rw [hl.exact e.inum h0]
  omega

theorem named_up (d : Nat) (hd : (g d).LinkedDir) (hr : d ≠ ROOTINO) :
    (g (g d).up).LinkedDir ∧ ∃ e ∈ (g (g d).up).names, e.inum = d := by
  have hs := hl.single d hd
  rw [if_neg hr] at hs
  obtain ⟨d', -, hd'⟩ : ∃ d' ∈ (Finset.univ : Finset (Fin n)), (g d').nameCount d ≠ 0 := by
    by_contra hall
    have := Finset.sum_eq_zero (s := Finset.univ) (f := fun j : Fin n => (g j).nameCount d) (by simpa using hall)
    unfold nameTotal at hs
    omega
  unfold Dinode.nameCount at hd'
  split_ifs at hd' with hl'
  · obtain ⟨e, he, hi⟩ := List.countP_pos_iff.mp (Nat.pos_of_ne_zero hd')
    have hi : e.inum = d := by simpa using hi
    have hup := hl.child d' hl' e he (by rw [hi]; exact hd.1)
    rw [hi] at hup
    rw [hup]
    exact ⟨hl', e, he, hi⟩
  · exact absurd rfl hd'

theorem reap (i : Nat) (hi : (g i).nlink = 0) : (g.reap i).Links n := by
  have hself : g.reap i i = { g i with type := .free, ents := [] } := modify_self ..
  have hne : ∀ j, j ≠ i → g.reap i j = g j := fun j hj => modify_ne _ _ _ _ hj
  have hnot : ∀ d, d = i → ¬ (g d).LinkedDir := by
    rintro d rfl ⟨-, h⟩
    omega
  have hnot' : ∀ d, d = i → (g.reap i d).type ≠ .dir := by
    rintro d rfl
    rw [hself]
    simp
  have hname : ∀ c, (g.reap i).nameTotal n c = g.nameTotal n c := by
    intro c
    refine Finset.sum_congr rfl fun d _ => ?_
    by_cases hd : d.val = i
    · rw [Dinode.nameCount_not c (hnot d hd), Dinode.nameCount_not c fun h => hnot' d hd h.1]
    · rw [hne d hd]
  have hup : ∀ c, (g.reap i).upTotal n c = g.upTotal n c := by
    intro c
    refine Finset.sum_congr rfl fun d _ => ?_
    by_cases hd : d.val = i
    · rw [Dinode.upCount_not c (hnot d hd), Dinode.upCount_not c fun h => hnot' d hd h.1]
    · rw [hne d hd]
  have hdir : ∀ d, (g.reap i d).type = .dir → d ≠ i := fun d hd he => hnot' d he hd
  refine ⟨fun j hj => ?_, fun j hj => ?_, fun j hj => ?_, fun j hj => ?_, fun d hd => ?_, fun d hd e he ht => ?_,
    fun d hd => ?_, ?_⟩
  · by_cases hji : j = i
    · subst hji; rw [hself] at hj; simp at hj
    · rw [hne j hji] at hj; exact hl.bound j hj
  · by_cases hji : j = i
    · subst hji; rw [hself]; exact hi
    · rw [hne j hji] at hj ⊢; exact hl.free j hj
  · have hji := hne j (hdir j hj)
    rw [hji] at hj ⊢
    exact hl.dir j hj
  · have hnl : (g.reap i j).nlink = (g j).nlink := by
      by_cases hji : j = i
      · subst hji; rw [hself]
      · rw [hne j hji]
    rw [hnl, hname, hup]
    exact hl.exact j hj
  · have hdi := hne d (hdir d hd)
    rw [hdi] at hd ⊢
    exact hl.bare d hd
  · have hdi := hne d (hdir d hd.1)
    have hei := hne _ (hdir _ ht)
    rw [hdi] at hd he
    rw [hei] at ht ⊢
    exact hl.child d hd e he ht
  · have hdi := hne d (hdir d hd.1)
    rw [hdi] at hd
    rw [hname]
    exact hl.single d hd
  · rw [hne ROOTINO fun h => hnot _ h hl.root.1]
    exact hl.root

theorem settle (i k : Nat) : (g.settle i k).Links n := by
  unfold Graph.settle
  split_ifs with h
  · exact hl.reap i h.2.1
  · exact hl

theorem add {g' : Graph} (dp i : Nat) (name : Name) (hdp : (g dp).LinkedDir) (hne : i ≠ dp)
    (hi : 0 < i ∧ i < n) (hname : name ≠ dot ∧ name ≠ dotdot) (hold : (g i).type ≠ .dir)
    (hdp' : g' dp = { g dp with nlink := (g dp).nlink + (if (g' i).type = .dir then 1 else 0),
                                ents := dirInsert ⟨i, name⟩ (g dp).ents })
    (hi' : (g' i).type ≠ .free) (hnlink : (g' i).nlink = (g i).nlink + 1)
    (hnew : (g' i).type = .dir → (g i).nlink = 0 ∧ (g' i).IsDir i ∧ (g' i).up = dp ∧ (g' i).names = [])
    (hother : ∀ j, j ≠ i → j ≠ dp → g' j = g j) : g'.Links n := by
  obtain ⟨hup, hnames, hisdir⟩ := (hl.dir dp hdp.1).insert ⟨i, name⟩ hname (g' dp) (by rw [hdp'])
  have hdpn := (hl.bound dp (by rw [hdp.1]; simp)).2
  have hi0 := hl.nlink_nonneg i
  have htype : (g' dp).type = .dir := by rw [hdp']; exact hdp.1
  have hdpl : (g' dp).nlink = (g dp).nlink + (if (g' i).type = .dir then 1 else 0) := by rw [hdp']
  have hlinked : (g' dp).LinkedDir := ⟨htype, by have := hdp.2; split_ifs at hdpl <;> omega⟩
  have hroot : ROOTINO ≠ i := by
    rintro rfl
    exact hold hl.root.1.1
  have hname0 : ∀ c, (g i).nameCount c = 0 ∧ (g' i).nameCount c = 0 := by
    intro c
    refine ⟨Dinode.nameCount_not c fun h => hold h.1, ?_⟩
    by_cases h : (g' i).LinkedDir
    · rw [Dinode.nameCount_linked c h, (hnew h.1).2.2.2]
      simp
    · exact Dinode.nameCount_not c h
  have hnameT : ∀ c, c ≠ 0 → g'.nameTotal n c = g.nameTotal n c + if i = c then 1 else 0 := by
    intro c hc
    have hch := nameTotal_change g g' n dp hdpn c fun j hj => by
      by_cases hji : j = i
      · subst hji; rw [(hname0 c).1, (hname0 c).2]
      · rw [hother j hji hj]
    have hins := countP_dirInsert ⟨i, name⟩ (g dp).names c hc
    rw [Dinode.nameCount_linked c hdp, Dinode.nameCount_linked c hlinked, hnames, hins] at hch
    dsimp only at hch
    omega
  have hupT : ∀ c, g'.upTotal n c = g.upTotal n c + if (g' i).type = .dir ∧ dp = c then 1 else 0 := by
    intro c
    have hch := upTotal_change g g' n i hi.2 c fun j hj => by
      by_cases hjd : j = dp
      · subst hjd; rw [Dinode.upCount_linked c hdp, Dinode.upCount_linked c hlinked, hup]
      · rw [hother j hj hjd]
    rw [Dinode.upCount_not c fun h => hold h.1] at hch
    by_cases hd : (g' i).type = .dir
    · rw [Dinode.upCount_linked c ⟨hd, by omega⟩, (hnew hd).2.2.1] at hch
      simp only [hd, true_and]
      omega
    · rw [Dinode.upCount_not c fun h => hd h.1] at hch
      rw [if_neg fun h => hd h.1]
      omega
  refine ⟨fun j hj => ?_, fun j hj => ?_, fun j hj => ?_, fun c hc => ?_, fun d hd h0 e he => ?_,
    fun d hd e he ht => ?_, fun d hd => ?_, ?_⟩
  · by_cases hji : j = i
    · subst hji; exact hi
    by_cases hjd : j = dp
    · subst hjd; exact hl.bound j (by rw [hdp.1]; simp)
    · rw [hother j hji hjd] at hj; exact hl.bound j hj
  · by_cases hji : j = i
    · subst hji; exact absurd hj hi'
    by_cases hjd : j = dp
    · subst hjd; rw [htype] at hj; cases hj
    · rw [hother j hji hjd] at hj ⊢; exact hl.free j hj
  · by_cases hji : j = i
    · subst hji; exact (hnew hj).2.1
    by_cases hjd : j = dp
    · subst hjd; exact hisdir
    · rw [hother j hji hjd] at hj ⊢; exact hl.dir j hj
  · have hex := hl.exact c hc
    rw [hnameT c hc, hupT c]
    by_cases hci : c = i
    · subst hci
      rw [if_pos rfl, if_neg fun h => hne h.2.symm, hnlink]
      omega
    by_cases hcd : c = dp
    · subst hcd
      rw [hdpl, if_neg (Ne.symm hci), hex]
      simp only [and_true]
      split_ifs <;> push_cast <;> omega
    · rw [hother c hci hcd, if_neg (Ne.symm hci), if_neg fun h => hcd h.2.symm]
      omega
  · by_cases hdi : d = i
    · subst hdi; rw [(hnew hd).2.2.2] at he; simp at he
    by_cases hdd : d = dp
    · subst hdd; have := hlinked.2; omega
    · rw [hother d hdi hdd] at hd h0 he; exact hl.bare d hd h0 e he
  · by_cases hei : e.inum = i
    · rw [hei] at ht ⊢
      obtain ⟨hn0, -, hup', hnames'⟩ := hnew ht
      rw [hup']
      by_contra hdd
      by_cases hdi : d = i
      · subst hdi; rw [hnames'] at he; simp at he
      · rw [hother d hdi (Ne.symm hdd)] at hd he
        have := hl.named_nlink d hd e he (by omega)
        rw [hei] at this
        omega
    · have hue : (g' e.inum).up = (g e.inum).up ∧ (g e.inum).type = .dir := by
        by_cases hed : e.inum = dp
        · rw [hed]; exact ⟨hup, hdp.1⟩
        · rw [hother _ hei hed] at ht ⊢; exact ⟨rfl, ht⟩
      rw [hue.1]
      by_cases hdi : d = i
      · subst hdi; rw [(hnew hd.1).2.2.2] at he; simp at he
      by_cases hdd : d = dp
      · subst hdd
        rw [hnames] at he
        rcases mem_dirInsert _ _ _ he with rfl | he
        · exact absurd rfl hei
        · exact hl.child d hdp e he hue.2
      · rw [hother d hdi hdd] at hd he
        exact hl.child d hd e he hue.2
  · by_cases hdi : d = i
    · subst hdi
      have hex := hl.exact d (by omega)
      rw [(hnew hd.1).1] at hex
      rw [hnameT d (by omega), if_pos rfl, if_neg (Ne.symm hroot)]
      omega
    · have hd' : (g d).LinkedDir := by
        by_cases hdd : d = dp
        · subst hdd; exact hdp
        · rwa [hother d hdi hdd] at hd
      have hd0 := (hl.bound d (by rw [hd'.1]; simp)).1
      rw [hnameT d (by omega), if_neg (Ne.symm hdi)]
      exact hl.single d hd'
  · by_cases hrd : ROOTINO = dp
    · rw [hrd]
      refine ⟨hlinked, ?_⟩
      rw [hup, ← hrd]
      exact hl.root.2
    · rw [hother _ hroot hrd]
      exact hl.root

/-- An empty directory `i` named in `dp` has no other link, and `dp` has one more than the `..` of `i`. -/
theorem empty_dir (dp i : Nat) (hdp : (g dp).LinkedDir) (e : Dirent) (he : e ∈ (g dp).names)
    (hei : e.inum = i) (hd : (g i).type = .dir) (hempty : ∀ e ∈ (g i).names, e.inum = 0) :
    (g i).nlink = 1 ∧ (g i).up = dp ∧ i ≠ ROOTINO ∧ 2 ≤ (g dp).nlink := by
  subst hei
  have hi := hl.bound e.inum (by rw [hd]; simp)
  have hdpb := hl.bound dp (by rw [hdp.1]; simp)
  have hlink : (g e.inum).LinkedDir := ⟨hd, hl.named_nlink dp hdp e he (by omega)⟩
  have hpos := hl.named_pos dp hdp e he
  have hup := hl.child dp hdp e he hd
  have hsingle := hl.single e.inum hlink
  have hr : e.inum ≠ ROOTINO := by
    intro hr
    rw [if_pos hr] at hsingle
    omega
  rw [if_neg hr] at hsingle
  have hup0 : g.upTotal n e.inum = 0 := by
    refine Finset.sum_eq_zero fun d _ => ?_
    by_contra hu
    have hdl : (g d).LinkedDir := by
      by_contra hn
      exact hu (Dinode.upCount_not _ hn)
    rw [Dinode.upCount_linked _ hdl] at hu
    have hdu : (g d).up = e.inum := by
      by_contra hn
      rw [if_neg hn] at hu
      exact hu rfl
    by_cases hdr : d.val = ROOTINO
    · rw [hdr, hl.root.2] at hdu
      exact hr hdu.symm
    · obtain ⟨-, e', he', hd'⟩ := hl.named_up d hdl hdr
      rw [hdu] at he'
      have := hempty e' he'
      have := (hl.bound d (by rw [hdl.1]; simp)).1
      omega
  have hnl := hl.exact e.inum (by omega)
  have hdpl := hl.exact dp (by omega)
  have hcount : (g e.inum).upCount dp = 1 := by rw [Dinode.upCount_linked _ hlink, if_pos hup]
  refine ⟨by omega, hup, hr, ?_⟩
  by_cases hdr : dp = ROOTINO
  · have hsum := add_le_sum (fun d : Fin n => (g d).upCount dp) ⟨e.inum, hi.2⟩ ⟨dp, hdpb.2⟩ (by simpa [hdr] using hr)
    have hroot : (g dp).upCount dp = 1 := by
      rw [Dinode.upCount_linked _ hdp, hdr, if_pos hl.root.2]
    have : (g e.inum).upCount dp + (g dp).upCount dp ≤ g.upTotal n dp := hsum
    omega
  · have hs := hl.single dp hdp
    rw [if_neg hdr] at hs
    have : (g e.inum).upCount dp ≤ g.upTotal n dp := le_sum (fun d : Fin n => (g d).upCount dp) ⟨e.inum, hi.2⟩
    omega

theorem remove {g' : Graph} (dp i off : Nat) (name : Name) (hdp : (g dp).LinkedDir) (hne : i ≠ dp)
    (hi0 : i ≠ 0) (hoff : 2 ≤ off) (hscan : (g dp).names[off - 2]? = some ⟨i, name⟩)
    (hempty : (g i).type = .dir → ∀ e ∈ (g i).names, e.inum = 0)
    (hdp' : g' dp = { g dp with nlink := (g dp).nlink - (if (g i).type = .dir then 1 else 0),
                                ents := (g dp).ents.set off ⟨0, []⟩ })
    (hi' : g' i = { g i with nlink := (g i).nlink - 1 }) (hother : ∀ j, j ≠ i → j ≠ dp → g' j = g j) : g'.Links n := by
  have hmem : (⟨i, name⟩ : Dirent) ∈ (g dp).names := List.mem_of_getElem? hscan
  have hpos : 0 < (g i).nlink := hl.named_nlink dp hdp _ hmem hi0
  have hdirf := fun hd => hl.empty_dir dp i hdp _ hmem rfl hd (hempty hd)
  obtain ⟨hup, hnames, hisdir⟩ := (hl.dir dp hdp.1).erase off hoff (g' dp) (by rw [hdp'])
  have hdpn := (hl.bound dp (by rw [hdp.1]; simp)).2
  have htype : (g' dp).type = .dir := by rw [hdp']; exact hdp.1
  have hdpl : (g' dp).nlink = (g dp).nlink - (if (g i).type = .dir then 1 else 0) := by rw [hdp']
  have hlinked : (g' dp).LinkedDir := by
    refine ⟨htype, ?_⟩
    have := hdp.2
    split_ifs at hdpl with hd
    · have := (hdirf hd).2.2.2; omega
    · omega
  have hnot : ¬ (g' i).LinkedDir := by
    rw [hi']
    rintro ⟨hd, h⟩
    have := (hdirf hd).1
    dsimp only at h
    omega
  have hroot : ROOTINO ≠ i := by
    rintro rfl
    exact (hdirf hl.root.1.1).2.2.1 rfl
  have htypes : ∀ j, (g' j).type = (g j).type := by
    intro j
    by_cases hji : j = i
    · subst hji; rw [hi']
    by_cases hjd : j = dp
    · subst hjd; rw [hdp']
    · rw [hother j hji hjd]
  have hups : ∀ j, (g' j).up = (g j).up := by
    intro j
    by_cases hji : j = i
    · subst hji; rw [hi']; rfl
    by_cases hjd : j = dp
    · subst hjd; exact hup
    · rw [hother j hji hjd]
  have hlink : ∀ d, (g' d).LinkedDir → d ≠ i ∧ (g d).LinkedDir := by
    intro d hd
    have hdi : d ≠ i := by
      rintro rfl
      exact hnot hd
    by_cases hdd : d = dp
    · subst hdd; exact ⟨hdi, hdp⟩
    · rw [hother d hdi hdd] at hd; exact ⟨hdi, hd⟩
  have hnameT : ∀ c, c ≠ 0 → g'.nameTotal n c + (if i = c then 1 else 0) = g.nameTotal n c := by
    intro c hc
    have hch := nameTotal_change g g' n dp hdpn c fun j hj => by
      by_cases hji : j = i
      · subst hji
        rw [Dinode.nameCount_not c hnot]
        by_cases h : (g j).LinkedDir
        · rw [Dinode.nameCount_linked c h, eq_comm, List.countP_eq_zero]
          intro e he
          rw [hempty h.1 e he]
          simpa using Ne.symm hc
        · rw [Dinode.nameCount_not c h]
      · rw [hother j hji hj]
    have hset := countP_erase _ _ _ _ hscan c hc
    rw [Dinode.nameCount_linked c hdp, Dinode.nameCount_linked c hlinked, hnames] at hch
    omega
  have hupT : ∀ c, g'.upTotal n c + (if (g i).type = .dir ∧ dp = c then 1 else 0) = g.upTotal n c := by
    intro c
    have hin : i < n := by
      refine (hl.bound i fun hf => ?_).2
      have := hl.free i hf
      omega
    have hch := upTotal_change g g' n i hin c fun j hj => by
      by_cases hjd : j = dp
      · subst hjd; rw [Dinode.upCount_linked c hdp, Dinode.upCount_linked c hlinked, hup]
      · rw [hother j hj hjd]
    rw [Dinode.upCount_not c hnot] at hch
    by_cases hd : (g i).type = .dir
    · rw [Dinode.upCount_linked c ⟨hd, hpos⟩, (hdirf hd).2.1] at hch
      simp only [hd, true_and]
      omega
    · rw [Dinode.upCount_not c fun h => hd h.1] at hch
      rw [if_neg fun h => hd h.1]
      omega
  refine ⟨fun j hj => ?_, fun j hj => ?_, fun j hj => ?_, fun c hc => ?_, fun d hd h0 e he => ?_,
    fun d hd e he ht => ?_, fun d hd => ?_, ?_⟩
  · rw [htypes] at hj; exact hl.bound j hj
  · rw [htypes] at hj
    have hn := hl.free j hj
    rw [hother j ?_ ?_]
    · exact hn
    · rintro rfl; omega
    · rintro rfl; rw [hdp.1] at hj; cases hj
  · rw [htypes] at hj
    have hj' := hl.dir j hj
    by_cases hji : j = i
    · subst hji; rw [hi']; exact ⟨hj'.ents, hj'.self, hj'.up, hj'.names⟩
    by_cases hjd : j = dp
    · subst hjd; exact hisdir
    · rw [hother j hji hjd]; exact hj'
  · have hex := hl.exact c hc
    have hT := hnameT c hc
    have hU := hupT c
    by_cases hci : c = i
    · subst hci
      rw [if_pos rfl] at hT
      rw [if_neg fun h => hne h.2.symm] at hU
      rw [hi']
      dsimp only
      omega
    rw [if_neg (Ne.symm hci)] at hT
    by_cases hcd : c = dp
    · subst hcd
      rw [hdpl]
      simp only [and_true] at hU
      split_ifs at hU ⊢ <;> omega
    · rw [if_neg fun h => hcd h.2.symm] at hU
      rw [hother c hci hcd]
      omega
  · by_cases hdi : d = i
    · subst hdi
      rw [hi'] at he
      rw [htypes] at hd
      exact hempty hd e he
    by_cases hdd : d = dp
    · subst hdd; have := hlinked.2; omega
    · rw [hother d hdi hdd] at hd h0 he; exact hl.bare d hd h0 e he
  · obtain ⟨hdi, hd'⟩ := hlink d hd
    rw [htypes] at ht
    rw [hups]
    refine hl.child d hd' e ?_ ht
    by_cases hdd : d = dp
    · subst hdd
      rw [hnames] at he
      refine mem_erase _ _ _ he ?_
      have := (hl.bound e.inum (by rw [ht]; simp)).1
      omega
    · rwa [hother d hdi hdd] at he
  · obtain ⟨hdi, hd'⟩ := hlink d hd
    have hd0 := (hl.bound d (by rw [hd'.1]; simp)).1
    have hT := hnameT d (by omega)
    rw [if_neg (Ne.symm hdi)] at hT
    have := hl.single d hd'
    omega
  · rw [hups]
    refine ⟨?_, hl.root.2⟩
    by_cases hrd : ROOTINO = dp
    · rw [hrd]; exact hlinked
    · rw [hother _ hroot hrd]; exact hl.root.1

end

end Links

end Graph

end Xv6
