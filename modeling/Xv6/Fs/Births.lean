import Xv6.Fs.Shared

/-!
# Directories in the order of their births

A directory that gets a name is older than the directory it names. What a process knows of
locked inodes and of open files is true in the graph, and stays true when others change the graph.
-/

open Lib Function

namespace Xv6

namespace Graph

variable {g g' : Graph} {d i : Nat}

/-- An entry other than `.` and `..`. -/
def HasEntry (g : Graph) (d i : Nat) : Prop := ∃ e ∈ (g d).ents, e.inum = i ∧ i ≠ 0 ∧ e.name ≠ dot ∧ e.name ≠ dotdot

theorem HasEntry.congr (h : g.HasEntry d i) (he : (g' d).ents = (g d).ents) : g'.HasEntry d i := by
  unfold HasEntry
  rwa [he]

theorem HasEntry.ne_nil (h : g.HasEntry d i) : (g d).ents ≠ [] := by
  obtain ⟨e, he, -⟩ := h
  exact List.ne_nil_of_mem he

theorem mem_dirInsert_of_mem (new e : Dirent) (ents : List Dirent) (h : e ∈ ents) (he : e.inum ≠ 0) :
    e ∈ dirInsert new ents := by
  induction ents with
  | nil => cases h
  | cons x xs ih =>
    unfold dirInsert
    split_ifs with hx
    · rcases List.mem_cons.mp h with rfl | h
      · exact absurd hx he
      · simp [h]
    · rcases List.mem_cons.mp h with rfl | h
      · simp
      · simp [ih h]

theorem HasEntry.insert (h : g.HasEntry d i) (dp : Nat) (name : Name) (j : Nat) :
    (g.insert dp name j).HasEntry d i := by
  obtain ⟨e, he, rfl, h0, hname⟩ := h
  refine ⟨e, ?_, rfl, h0, hname⟩
  rw [insert_apply]
  split_ifs
  · exact mem_dirInsert_of_mem _ e _ he h0
  · exact he

theorem hasEntry_of_insert (dp : Nat) (name : Name) (j : Nat) (h : (g.insert dp name j).HasEntry d i) :
    g.HasEntry d i ∨ d = dp ∧ i = j ∧ name ≠ dot ∧ name ≠ dotdot := by
  obtain ⟨e, he, rfl, h0, hname⟩ := h
  rw [insert_apply] at he
  split_ifs at he with hd
  · rcases mem_dirInsert _ _ _ he with rfl | he
    · exact .inr ⟨hd, rfl, hname⟩
    · exact .inl ⟨e, he, rfl, h0, hname⟩
  · exact .inl ⟨e, he, rfl, h0, hname⟩

theorem erase_type (dp off j : Nat) : (g.erase dp off j).type = (g j).type := by
  unfold erase modify
  by_cases hj : j = dp
  · subst hj; simp
  · rw [update_of_ne hj]

theorem hasEntry_of_erase (dp off : Nat) (h : (g.erase dp off).HasEntry d i) : g.HasEntry d i := by
  obtain ⟨e, he, rfl, h0, hname⟩ := h
  refine ⟨e, ?_, rfl, h0, hname⟩
  unfold erase at he
  by_cases hd : d = dp
  · subst hd
    rw [modify_self] at he
    rcases List.mem_or_eq_of_mem_set he with he | rfl
    · exact he
    · exact absurd rfl h0
  · rwa [modify_ne _ _ _ _ hd] at he

section

variable (i : Nat) (major minor : Int) (j : Nat)

theorem init_type : (g.modify i (fun d => { d with major := major, minor := minor, nlink := 1 }) j).type =
    (g j).type := by
  by_cases hj : j = i
  · subst hj
    simp
  · rw [modify_ne _ _ _ _ hj]

theorem init_ents : (g.modify i (fun d => { d with major := major, minor := minor, nlink := 1 }) j).ents =
    (g j).ents := by
  by_cases hj : j = i
  · subst hj
    simp
  · rw [modify_ne _ _ _ _ hj]

end

/-- `birth` orders the directories, and nothing is born at `clock` or later. -/
structure Order (g : Graph) (birth : Nat → Nat) (clock : Nat) : Prop where
  entry : ∀ d i, g.HasEntry d i → (g i).type = .dir → birth d < birth i
  ents : ∀ d, (g d).ents ≠ [] → (g d).type = .dir
  clock : ∀ i, birth i < clock

theorem Order.dir {birth : Nat → Nat} {clock : Nat} (ho : g.Order birth clock) (h : g.HasEntry d i) :
    (g d).type = .dir :=
  ho.ents d h.ne_nil

end Graph

namespace Op

def disk (g : Graph) : (a : Op) → Res a → Graph
  | .free i, _ => g.reap i
  | .addNlink i n, _ => g.addNlink i n
  | .init i major minor, _ => g.modify i fun d => { d with major := major, minor := minor, nlink := 1 }
  | .insert d name i, _ => g.insert d name i
  | .erase d off, _ => g.erase d off
  | .ialloc i t, true => g.modify i fun _ => { type := t, major := 0, minor := 0, nlink := 0, ents := [] }
  | _, _ => g

def born : (a : Op) → Res a → Option Nat
  | .ialloc i _, true => some i
  | _, _ => none

def Sees (g : Graph) : (a : Op) → Res a → Prop
  | .load i, _ => (g i).type ≠ .free
  | .type i, t => t = (g i).type
  | .scan d name, r => (g d).type = .dir ∧ r = dirScan name (g d).ents 0
  | .ialloc i _, r => r = true → (g i).type = .free
  | _, _ => True

end Op

variable {nproc : Nat} {s s' : Fs nproc} {L : Fin nproc → Local} {p : Fin nproc} {a : Op} {r : Res a} {l l' : Local}
  {g g' : Graph} {birth birth' : Nat → Nat} {clock : Nat}

theorem perform_dinode (hp : a.perform p s = (.ok r, s')) : s'.dinode = a.disk s.dinode r := by
  cases a with
  | ilock j | iput j =>
    dsimp only [Op.perform, Op.acquiresleep] at hp
    split_ifs at hp <;> cases hp
    rfl
  | iget j | load j | iunlock j | scan d name | insert d name j | ialloc j t | fileclose f =>
    dsimp only [Op.perform] at hp
    split_ifs at hp <;> cases hp <;> rfl
  | filealloc | fdalloc f =>
    dsimp only [Op.perform] at hp
    split at hp <;> cases hp <;> rfl
  | panic msg => exact nomatch r
  | _ => cases hp; rfl

theorem perform_sees (hvalid : ∀ i, (s.inode i).valid = true → (s.dinode i).type ≠ .free)
    (hp : a.perform p s = (.ok r, s')) : a.Sees s.dinode r := by
  cases a with
  | load i =>
    dsimp only [Op.perform] at hp
    split_ifs at hp with h1 h2
    · exact hvalid i h1
    · cases hp
    · exact h2
  | type i => cases hp; rfl
  | scan d name =>
    dsimp only [Op.perform] at hp
    split_ifs at hp with h1 <;> cases hp
    exact ⟨not_not.mp h1, rfl⟩
  | ialloc i t =>
    dsimp only [Op.perform] at hp
    split_ifs at hp with h1
    · exact fun _ => h1
    · cases hp
      exact fun h => nomatch h
  | _ => trivial

def nextBirth (birth : Nat → Nat) (clock : Nat) (o : Option Nat) : Nat → Nat :=
  match o with
  | none => birth
  | some i => update birth i clock

theorem nextBirth_lt (ho : g.Order birth clock) (o : Option Nat) (hfree : ∀ i, o = some i → (g i).type = .free)
    (d i : Nat) (hd : (g d).type ≠ .free) (h : birth d < birth i ∨ o = some i) :
    nextBirth birth clock o d < nextBirth birth clock o i := by
  rcases o with _ | j
  · simpa [nextBirth] using h
  have hdj : d ≠ j := by
    rintro rfl
    exact hd (hfree d rfl)
  have := ho.clock d
  unfold nextBirth
  dsimp only
  rw [update_of_ne hdj]
  by_cases hi : i = j
  · subst hi
    rwa [update_self]
  · rw [update_of_ne hi]
    rcases h with h | h
    · exact h
    · exact absurd (Option.some.inj h).symm hi

theorem nextBirth_clock (ho : g.Order birth clock) (o : Option Nat) (i : Nat) :
    nextBirth birth clock o i < clock + 1 := by
  have := ho.clock i
  unfold nextBirth
  rcases o with _ | j
  · dsimp only
    omega
  · dsimp only
    by_cases hi : i = j
    · subst hi
      rw [update_self]
      omega
    · rw [update_of_ne hi]
      omega

structure Knows (g : Graph) (birth : Nat → Nat) (l : Local) : Prop where
  live : ∀ i ∈ l.live, i ∈ l.locks ∧ (g i).type ≠ .free
  dirs : ∀ i ∈ l.dirs, i ∈ l.locks ∧ (g i).type = .dir
  entry : ∀ d i, l.entry = some (d, i) → d ∈ l.dirs ∧ g.HasEntry d i
  young : ∀ d i, l.young = some (d, i) → d ∈ l.dirs ∧ birth d < birth i
  file : ∀ i, l.file = some i → 0 < l.own i ∧ (g i).type ≠ .dir ∧ (g i).type ≠ .free
  freeing : ∀ i, l.freeing = some i → i ∈ l.locks

variable (hk : Knows g birth l)

section

include hk

theorem Knows.rebirth (h : ∀ d i, (g d).type ≠ .free → birth d < birth i → birth' d < birth' i) :
    Knows g birth' l := by
  refine ⟨hk.live, hk.dirs, hk.entry, fun d i hy => ?_, hk.file, hk.freeing⟩
  obtain ⟨hd, hlt⟩ := hk.young d i hy
  exact ⟨hd, h d i (by rw [(hk.dirs d hd).2]; simp) hlt⟩

theorem Knows.frame (htype : ∀ j, j ∈ l.live ∨ j ∈ l.dirs ∨ l.file = some j → (g' j).type = (g j).type)
    (hentry : ∀ d i, l.entry = some (d, i) → g.HasEntry d i → g'.HasEntry d i) : Knows g' birth l := by
  refine ⟨fun i hi => ?_, fun i hi => ?_, fun d i he => ?_, hk.young, fun i hi => ?_, hk.freeing⟩
  · rw [htype i (.inl hi)]
    exact hk.live i hi
  · rw [htype i (.inr (.inl hi))]
    exact hk.dirs i hi
  · obtain ⟨hd, hentry'⟩ := hk.entry d i he
    exact ⟨hd, hentry d i he hentry'⟩
  · rw [htype i (.inr (.inr hi))]
    exact hk.file i hi

theorem Knows.release (i : Nat) : Knows g birth (l.release i) := by
  refine ⟨fun j hj => ?_, fun j hj => ?_, nofun, nofun, hk.file, nofun⟩
  · obtain ⟨hne, hj⟩ := Finset.mem_erase.mp hj
    exact ⟨Finset.mem_erase.mpr ⟨hne, (hk.live j hj).1⟩, (hk.live j hj).2⟩
  · obtain ⟨hne, hj⟩ := Finset.mem_erase.mp hj
    exact ⟨Finset.mem_erase.mpr ⟨hne, (hk.dirs j hj).1⟩, (hk.dirs j hj).2⟩

theorem Knows.take (i : Nat) (own : Nat → Nat) (drop f : Option Nat)
    (hf : ∀ j, f = some j → l.file = some j ∧ 0 < own j) :
    Knows g birth { l with own := own, drop := drop, file := f, locks := insert i l.locks } := by
  refine ⟨fun j hj => ?_, fun j hj => ?_, hk.entry, hk.young, fun j hj => ?_, fun j hj => ?_⟩
  · exact ⟨Finset.mem_insert_of_mem (hk.live j hj).1, (hk.live j hj).2⟩
  · exact ⟨Finset.mem_insert_of_mem (hk.dirs j hj).1, (hk.dirs j hj).2⟩
  · exact ⟨(hf j hj).2, (hk.file j (hf j hj).1).2⟩
  · exact Finset.mem_insert_of_mem (hk.freeing j hj)

theorem Knows.refs (own : Nat → Nat) (drop : Option Nat) (taken : Bool)
    (hf : ∀ j, l.file = some j → 0 < own j) : Knows g birth { l with own := own, drop := drop, taken := taken } :=
  ⟨hk.live, hk.dirs, hk.entry, hk.young, fun j hj => ⟨hf j hj, (hk.file j hj).2⟩, hk.freeing⟩

theorem Knows.hold (i : Nat) (taken : Bool) :
    Knows g birth { l with own := Xv6.hold l.own i, taken := taken } :=
  hk.refs _ l.drop taken fun j hj => Nat.add_pos_left (hk.file j hj).1 _

theorem Knows.scan (d : Nat) (hd : d ∈ l.locks) (hdir : (g d).type = .dir)
    (e : Option (Nat × Nat)) (he : e = l.entry ∨ ∃ i, e = some (d, i) ∧ g.HasEntry d i) :
    Knows g birth { l with dirs := insert d l.dirs, entry := e } := by
  refine ⟨hk.live, fun i hi => ?_, fun d' i h => ?_, fun d' i h => ?_, hk.file, hk.freeing⟩
  · rcases Finset.mem_insert.mp hi with rfl | hi
    · exact ⟨hd, hdir⟩
    · exact hk.dirs i hi
  · rcases he with rfl | ⟨j, rfl, hj⟩
    · exact ⟨Finset.mem_insert_of_mem (hk.entry d' i h).1, (hk.entry d' i h).2⟩
    · cases h
      exact ⟨Finset.mem_insert_self .., hj⟩
  · exact ⟨Finset.mem_insert_of_mem (hk.young d' i h).1, (hk.young d' i h).2⟩

theorem knows_next (hpre : a.pre l) (hsees : a.Sees g r) (hn : Op.next l a r l')
    (hborn : ∀ d i, d ∈ l.dirs → a.born r = some i → birth d < birth i) : Knows g birth l' := by
  cases a with
  | cwd =>
    rcases hn with rfl | ⟨-, rfl⟩
    · exact hk
    · exact hk.hold r true
  | setCwd i =>
    obtain ⟨hf, h, -, rfl⟩ := hn
    exact hk.refs h l.drop false (by simp [hf])
  | setIp f i =>
    obtain ⟨hf, h, -, rfl⟩ := hn
    exact hk.refs h l.drop l.taken (by simp [hf])
  | iget i | idup i =>
    cases hn
    exact hk.hold i l.taken
  | ilock i =>
    cases hn
    exact hk.take i l.own l.drop l.file fun j hj => ⟨hj, (hk.file j hj).1⟩
  | load i =>
    cases hn
    refine ⟨fun j hj => ?_, hk.dirs, hk.entry, hk.young, hk.file, hk.freeing⟩
    rcases Finset.mem_insert.mp hj with rfl | hj
    · exact ⟨hpre, hsees⟩
    · exact hk.live j hj
  | iunlock i | releasesleep i =>
    cases hn
    exact hk.release i
  | iput i =>
    obtain ⟨h, f, hown, hf, rfl⟩ := hn
    refine hk.take i h (some i) f fun j hj => ?_
    rcases hf with rfl | ⟨rfl, hf⟩
    · cases hj
    refine ⟨hj, ?_⟩
    have hpos := (hk.file j hj).1
    rw [hown] at hpos
    unfold hold at hpos
    by_cases hji : j = i
    · subst hji
      exact hf hj
    · rwa [if_neg hji] at hpos
  | readRef i =>
    rcases hn with rfl | ⟨-, rfl⟩
    · exact hk
    refine ⟨hk.live, hk.dirs, hk.entry, hk.young, hk.file, ?_⟩
    rintro j ⟨⟩
    exact hpre.1
  | free i =>
    cases hn
    refine ⟨fun j hj => hk.live j (Finset.mem_of_mem_erase hj), fun j hj => hk.dirs j (Finset.mem_of_mem_erase hj),
      nofun, nofun, hk.file, nofun⟩
  | decRef i =>
    cases hn
    exact hk.refs l.own none l.taken fun j hj => (hk.file j hj).1
  | type i =>
    rcases hn with rfl | ⟨hdir, hfree, hown, rfl⟩
    · exact hk
    refine ⟨hk.live, hk.dirs, hk.entry, hk.young, ?_, hk.freeing⟩
    rintro j ⟨⟩
    rw [hsees] at hdir hfree
    exact ⟨hown, hdir, hfree⟩
  | scan d name =>
    obtain ⟨hdir, hscan⟩ := hsees
    rcases hn with rfl | ⟨i, off, hr, hdot, hdotdot, rfl⟩
    · exact hk.scan d hpre hdir l.entry (.inl rfl)
    · rw [hr] at hscan
      obtain ⟨e, he, hei, h0, rfl⟩ := dirScan_mem _ _ _ _ _ hscan.symm
      exact hk.scan d hpre hdir _ (.inr ⟨i, rfl, e, he, hei, h0, hdot, hdotdot⟩)
  | erase d off =>
    cases hn
    exact ⟨hk.live, hk.dirs, nofun, hk.young, hk.file, hk.freeing⟩
  | ialloc i t =>
    rcases hn with rfl | ⟨rfl, d, hd, rfl⟩
    · exact hk
    refine ⟨hk.live, hk.dirs, hk.entry, ?_, hk.file, hk.freeing⟩
    rintro d' i' ⟨⟩
    exact ⟨hd, hborn d i hd rfl⟩
  | fileclose f =>
    rcases r with _ | i
    · rw [hn.1 rfl]
      exact hk
    · rw [hn.2 i rfl]
      exact hk.hold i l.taken
  | _ => cases hn; exact hk

end

/-- The operation changes nothing that is known. -/
def Op.Spares (l : Local) : Op → Prop
  | .erase d _ => ∀ i, l.entry ≠ some (d, i)
  | .free i => i ∉ l.live ∧ i ∉ l.dirs ∧ l.file ≠ some i
  | _ => True

theorem Knows.not_free (hk : Knows g birth l) (j : Nat) (hj : j ∈ l.live ∨ j ∈ l.dirs ∨ l.file = some j) :
    (g j).type ≠ .free := by
  rcases hj with hj | hj | hj
  · exact (hk.live j hj).2
  · rw [(hk.dirs j hj).2]
    simp
  · exact (hk.file j hj).2.2

theorem knows_disk (hk : Knows g birth l) (hsees : a.Sees g r) (hspares : a.Spares l) : Knows (a.disk g r) birth l := by
  cases a with
  | free i =>
    have htype : ∀ j, j ≠ i → g.reap i j = g j := fun j hj => Graph.modify_ne _ _ _ _ hj
    refine hk.frame (fun j hj => ?_) fun d j he h => h.congr ?_
    · rw [Op.disk, htype]
      rintro rfl
      exact hj.elim hspares.1 fun hj => hj.elim hspares.2.1 hspares.2.2
    · rw [Op.disk, htype]
      rintro rfl
      exact hspares.2.1 (hk.entry d j he).1
  | addNlink i n =>
    exact hk.frame (fun j _ => g.addNlink_type i n j) fun d j _ h => h.congr (g.addNlink_ents i n d)
  | init i major minor =>
    exact hk.frame (fun j _ => Graph.init_type i major minor j) fun d j _ h => h.congr (Graph.init_ents i major minor d)
  | insert d name i =>
    refine hk.frame (fun j _ => ?_) fun d' j _ h => h.insert d name i
    rw [Op.disk, Graph.insert_apply]
  | erase d off =>
    refine hk.frame (fun j _ => Graph.erase_type d off j) fun d' j he h => h.congr ?_
    rw [Op.disk, Graph.erase, Graph.modify_ne]
    rintro rfl
    exact hspares j he
  | ialloc i t =>
    rcases r with _ | _
    · exact hk
    have hne : ∀ j, (g j).type ≠ .free → j ≠ i := by
      rintro j hj rfl
      exact hj (hsees rfl)
    refine hk.frame (fun j hj => ?_) fun d j he h => h.congr ?_
    · rw [Op.disk, Graph.modify_ne _ _ _ _ (hne j (hk.not_free j hj))]
    · rw [Op.disk, Graph.modify_ne _ _ _ _ (hne d (hk.not_free d (.inr (.inl (hk.entry d j he).1))))]
  | _ => exact hk

theorem entry_disk (ho : g.Order birth clock) (hk : Knows g birth l) (hpre : a.pre l) (hsees : a.Sees g r) (d i : Nat)
    (hd : d ∉ l.locks) (h : g.HasEntry d i) : (a.disk g r).HasEntry d i := by
  cases a with
  | free j =>
    refine h.congr ?_
    rw [Op.disk, Graph.reap, Graph.modify_ne]
    rintro rfl
    exact hd (hk.freeing d hpre)
  | addNlink j n => exact h.congr (g.addNlink_ents j n d)
  | init j major minor => exact h.congr (Graph.init_ents j major minor d)
  | insert dp name j => exact h.insert dp name j
  | erase dp off =>
    refine h.congr ?_
    rw [Op.disk, Graph.erase, Graph.modify_ne]
    rintro rfl
    exact hd hpre
  | ialloc j t =>
    rcases r with _ | _
    · exact h
    refine h.congr ?_
    rw [Op.disk, Graph.modify_ne]
    rintro rfl
    have := hsees rfl
    rw [ho.dir h] at this
    cases this
  | _ => exact h

theorem Graph.Order.congr (ho : g.Order birth clock) (htype : ∀ i, (g' i).type = (g i).type)
    (hents : ∀ i, (g' i).ents = (g i).ents) :
    g'.Order birth (clock + 1) := by
  refine ⟨fun d i he hi => ?_, fun d hd => ?_, fun i => Nat.lt_succ_of_lt (ho.clock i)⟩
  · rw [htype] at hi
    exact ho.entry d i (he.congr (hents d).symm) hi
  · rw [hents] at hd
    rw [htype]
    exact ho.ents d hd

theorem order_disk (ho : g.Order birth clock) (hk : Knows g birth l) (hpre : a.pre l) (hsees : a.Sees g r) :
    (a.disk g r).Order (nextBirth birth clock (a.born r)) (clock + 1) := by
  cases a with
  | free i =>
    have happly : ∀ j, j ≠ i → g.reap i j = g j := fun j hj => Graph.modify_ne _ _ _ _ hj
    have hself : g.reap i i = { g i with type := .free, ents := [] } := Graph.modify_self ..
    refine ⟨fun d j he hj => ?_, fun d hd => ?_, nextBirth_clock ho _⟩
    · have hdi : d ≠ i := by
        rintro rfl
        apply he.ne_nil
        rw [Op.disk, hself]
      have hji : j ≠ i := by
        rintro rfl
        rw [Op.disk, hself] at hj
        cases hj
      rw [Op.disk, happly j hji] at hj
      exact ho.entry d j (he.congr (by rw [Op.disk, happly d hdi])) hj
    · rw [Op.disk] at hd ⊢
      by_cases hdi : d = i
      · subst hdi
        rw [hself] at hd
        exact absurd rfl hd
      · rw [happly d hdi] at hd ⊢
        exact ho.ents d hd
  | addNlink i n => exact ho.congr (g.addNlink_type i n) (g.addNlink_ents i n)
  | init i major minor => exact ho.congr (Graph.init_type i major minor) (Graph.init_ents i major minor)
  | insert d name i =>
    obtain ⟨hd, hname⟩ := hpre
    have htype : ∀ j, (g.insert d name i j).type = (g j).type := fun j => by rw [Graph.insert_apply]
    refine ⟨fun d' j he hj => ?_, fun d' hd' => ?_, nextBirth_clock ho _⟩
    · rw [Op.disk, htype] at hj
      rcases Graph.hasEntry_of_insert d name i he with he | ⟨rfl, rfl, hdot, hdotdot⟩
      · exact ho.entry d' j he hj
      -- A name is given to a file, or to an inode allocated after the directory was locked.
      rcases hname with h | h | h | h
      · exact absurd h hdot
      · exact absurd h hdotdot
      · exact absurd hj (hk.file j h).2.1
      · exact (hk.young d' j h).2
    · rw [Op.disk, htype]
      by_cases hdd : d' = d
      · subst hdd
        exact (hk.dirs d' hd).2
      · rw [Op.disk, Graph.insert_apply, if_neg hdd] at hd'
        exact ho.ents d' hd'
  | erase d off =>
    refine ⟨fun d' j he hj => ?_, fun d' hd' => ?_, nextBirth_clock ho _⟩
    · rw [Op.disk, Graph.erase_type] at hj
      exact ho.entry d' j (Graph.hasEntry_of_erase d off he) hj
    · rw [Op.disk, Graph.erase_type]
      apply ho.ents d'
      intro hnil
      apply hd'
      rw [Op.disk, Graph.erase]
      by_cases hdd : d' = d
      · subst hdd
        simp [hnil]
      · rw [Graph.modify_ne _ _ _ _ hdd, hnil]
  | ialloc i t =>
    rcases r with _ | _
    · exact ho.congr (fun _ => rfl) fun _ => rfl
    have hfree : (g i).type = .free := hsees rfl
    have hnone : ∀ j, some i = some j → (g j).type = .free := by
      rintro j ⟨⟩
      exact hfree
    refine ⟨fun d j he hj => ?_, fun d hd => ?_, nextBirth_clock ho _⟩
    · have hdi : d ≠ i := by
        rintro rfl
        apply he.ne_nil
        simp [Op.disk]
      have he' : g.HasEntry d j := he.congr (by rw [Op.disk, Graph.modify_ne _ _ _ _ hdi])
      refine nextBirth_lt ho (some i) hnone d j (by rw [ho.dir he']; simp) ?_
      by_cases hji : j = i
      · exact .inr (by rw [hji])
      · rw [Op.disk, Graph.modify_ne _ _ _ _ hji] at hj
        exact .inl (ho.entry d j he' hj)
    · rw [Op.disk] at hd ⊢
      by_cases hdi : d = i
      · subst hdi
        simp at hd
      · rw [Graph.modify_ne _ _ _ _ hdi] at hd ⊢
        exact ho.ents d hd
  | _ => exact ho.congr (fun _ => rfl) fun _ => rfl

end Xv6
