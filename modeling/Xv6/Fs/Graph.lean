import Xv6.Fs.Code

/-!
# What the system calls do to the naming graph

The graph of all inodes with their entries and link counts, and `h`, the number of references to
each inode that current directories and open files hold. `Outcome` says what a whole call may do
to them. It is compared with the code in `Xv6.Fs.Seq`.
-/

open Lib Function

namespace Xv6

def hold (h : Nat → Nat) (i : Nat) : Nat → Nat := fun j => h j + if j = i then 1 else 0

theorem hold_comm (h : Nat → Nat) (i j : Nat) : hold (hold h i) j = hold (hold h j) i := by
  funext k
  unfold hold
  omega

def withRef {α : Type} (r : Option (Nat × α)) (L : List Nat) : List Nat := (r.map (·.1)).toList ++ L

@[simp]
theorem withRef_none {α : Type} (L : List Nat) : withRef (none : Option (Nat × α)) L = L := rfl

@[simp]
theorem withRef_some {α : Type} (i : Nat) (x : α) (L : List Nat) : withRef (some (i, x)) L = i :: L := rfl

theorem dirScan_mem (name : Name) (ents : List Dirent) (off i k : Nat) (h : dirScan name ents off = some (i, k)) :
    ∃ e ∈ ents, e.inum = i ∧ i ≠ 0 ∧ e.name = name := by
  induction ents generalizing off with
  | nil => cases h
  | cons e es ih =>
    rw [dirScan] at h
    split_ifs at h with he
    · cases h; exact ⟨e, by simp, rfl, he.1, he.2⟩
    · obtain ⟨e', h1, h2⟩ := ih _ h
      exact ⟨e', by simp [h1], h2⟩

namespace Graph

variable (g : Graph)

/-- What `namex` finds from `ip` on, with the last element. -/
def lookup (parent : Bool) (ip : Nat) : List Name → Option (Nat × Name)
  | [] => if parent then none else some (ip, [])
  | name :: rest =>
    if (g ip).type ≠ .dir then none
    else if parent ∧ rest = [] then some (ip, name)
    else
      match dirScan name (g ip).ents 0 with
      | none => none
      | some (next, _) => lookup parent next rest

def start (cwd : Nat) (path : List Char) : Nat := if path.head? = some '/' then ROOTINO else cwd

def parent (cwd : Nat) (path : List Char) : Option (Nat × Name) := g.lookup true (start cwd path) (elems path)

def namei (cwd : Nat) (path : List Char) : Option Nat := (g.lookup false (start cwd path) (elems path)).map (·.1)

def modify (i : Nat) (f : Dinode → Dinode) : Graph := update g i (f (g i))

@[simp]
theorem modify_self (i : Nat) (f : Dinode → Dinode) : g.modify i f i = f (g i) := update_self ..

theorem modify_ne (i : Nat) (f : Dinode → Dinode) (j : Nat) (h : j ≠ i) : g.modify i f j = g j := update_of_ne h ..

@[simp]
theorem modify_modify (i : Nat) (f f' : Dinode → Dinode) : (g.modify i f).modify i f' = g.modify i (f' ∘ f) := by
  unfold modify
  simp

theorem modify_comm (i j : Nat) (h : i ≠ j) (f f' : Dinode → Dinode) :
    (g.modify i f).modify j f' = (g.modify j f').modify i f := by
  unfold modify
  rw [update_of_ne (Ne.symm h), update_of_ne h, update_comm h]

def addNlink (i : Nat) (n : Int) : Graph := g.modify i fun d => { d with nlink := d.nlink + n }

theorem addNlink_apply (i : Nat) (n : Int) (j : Nat) :
    g.addNlink i n j = { g j with nlink := (g j).nlink + if j = i then n else 0 } := by
  by_cases hj : j = i
  · subst hj; simp [addNlink]
  · simp [addNlink, modify_ne _ _ _ _ hj, hj]

theorem addNlink_type (i : Nat) (n : Int) (j : Nat) : (g.addNlink i n j).type = (g j).type := by rw [addNlink_apply]

theorem addNlink_ents (i : Nat) (n : Int) (j : Nat) : (g.addNlink i n j).ents = (g j).ents := by rw [addNlink_apply]

def insert (dp : Nat) (name : Name) (i : Nat) : Graph :=
  g.modify dp fun d => { d with ents := dirInsert ⟨i, name⟩ d.ents }

theorem insert_apply (dp : Nat) (name : Name) (i j : Nat) :
    g.insert dp name i j = { g j with ents := if j = dp then dirInsert ⟨i, name⟩ (g j).ents else (g j).ents } := by
  by_cases hj : j = dp
  · subst hj; simp [insert]
  · simp [insert, modify_ne _ _ _ _ hj, hj]

def erase (dp off : Nat) : Graph := g.modify dp fun d => { d with ents := d.ents.set off ⟨0, []⟩ }

def reap (i : Nat) : Graph := g.modify i fun d => { d with type := .free, ents := [] }

def settle (i n : Nat) : Graph := if (g i).type ≠ .free ∧ (g i).nlink = 0 ∧ n = 0 then g.reap i else g

def newEnts (dp i : Nat) (t : FileType) : List Dirent := if t = .dir then [⟨i, dot⟩, ⟨dp, dotdot⟩] else []

def make (dp : Nat) (name : Name) (i : Nat) (t : FileType) (major minor : Int) : Graph :=
  let g := g.modify i fun _ => { type := t, major, minor, nlink := 1, ents := newEnts dp i t }
  let g := if t = .dir then g.addNlink dp 1 else g
  g.insert dp name i

def link (dp : Nat) (name : Name) (i : Nat) : Graph := (g.addNlink i 1).insert dp name i

/-- The entry of `i` at `off` in `dp` goes, and then each of the two inodes if nothing is left of it. -/
def unlink (h : Nat → Nat) (dp off i : Nat) : Graph :=
  let g' := g.erase dp off
  let g' := if (g i).type = .dir then g'.addNlink dp (-1) else g'
  let g' := g'.settle dp (h dp)
  let g' := g'.addNlink i (-1)
  g'.settle i (h i)

section

variable (dp : Nat) (name : Name) (i : Nat) (t : FileType) (major minor : Int)

theorem make_self (hne : i ≠ dp) :
    g.make dp name i t major minor i = { type := t, major, minor, nlink := 1, ents := newEnts dp i t } := by
  unfold make
  rw [insert_apply, if_neg hne]
  split_ifs
  · simp [addNlink_apply, hne]
  · simp

theorem make_parent (hne : i ≠ dp) : g.make dp name i t major minor dp =
    { g dp with nlink := (g dp).nlink + if t = .dir then 1 else 0, ents := dirInsert ⟨i, name⟩ (g dp).ents } := by
  unfold make
  rw [insert_apply, if_pos rfl]
  split_ifs
  · simp [addNlink_apply, modify_ne _ _ _ _ (Ne.symm hne)]
  · simp [modify_ne _ _ _ _ (Ne.symm hne)]

theorem make_other (j : Nat) (hi : j ≠ i) (hd : j ≠ dp) : g.make dp name i t major minor j = g j := by
  unfold make
  rw [insert_apply, if_neg hd]
  split_ifs
  · simp [addNlink_apply, modify_ne _ _ _ _ hi, hd]
  · simp [modify_ne _ _ _ _ hi]

end

theorem make_dots (dp i : Nat) (hne : i ≠ dp) (h0 : 0 < i) (major minor : Int) :
    (((g.modify i fun _ => { type := .dir, major, minor, nlink := 1, ents := [] }).addNlink dp 1).insert i dot i).insert
      i dotdot dp =
    (g.modify i fun _ => { type := .dir, major, minor, nlink := 1, ents := newEnts dp i .dir }).addNlink dp 1 := by
  unfold addNlink insert
  rw [modify_comm _ i dp hne, modify_comm _ i dp hne, modify_modify, modify_modify]
  congr 1
  funext d
  have hi : i ≠ 0 := by omega
  simp [dirInsert, newEnts, hi]

/-- The call makes a new inode of type `t` at `path` if there is none. -/
inductive Creates : Call → List Char → FileType → Int → Int → Prop where
  | open (path : List Char) (omode : Nat) (h : omode &&& O_CREATE ≠ 0) : Creates (.open path omode) path .file 0 0
  | mkdir (path : List Char) : Creates (.mkdir path) path .dir 0 0
  | mknod (path : List Char) (major minor : Int) : Creates (.mknod path major minor) path .dev major minor

/-- What call `c` of a process in directory `cwd` may turn `g` and `h` into. There are `n` inodes. -/
inductive Outcome (n : Nat) (h : Nat → Nat) (cwd : Nat) : Call → Graph → (Nat → Nat) → Prop where
  | same (c : Call) : Outcome n h cwd c g h
  | opened (path : List Char) (omode i : Nat) (hi : (g i).type ≠ .free) :
      Outcome n h cwd (.open path omode) g (hold h i)
  | made (c : Call) (path : List Char) (t : FileType) (major minor : Int) (dp : Nat) (name : Name) (i : Nat)
      (h' : Nat → Nat) (hc : Creates c path t major minor) (hp : g.parent cwd path = some (dp, name))
      (hd : (g dp).type = .dir) (hs : dirScan name (g dp).ents 0 = none) (hi : (g i).type = .free) (h0 : 0 < i)
      (hi' : i < n) (hh : h' = h ∨ h' = hold h i) : Outcome n h cwd c (g.make dp name i t major minor) h'
  | linked (old new : List Char) (dp : Nat) (name : Name) (i : Nat) (ho : g.namei cwd old = some i)
      (hp : g.parent cwd new = some (dp, name)) (hd : (g dp).type = .dir) (hs : dirScan name (g dp).ents 0 = none)
      (hi : (g i).type ≠ .free) (hn : (g i).type ≠ .dir) : Outcome n h cwd (.link old new) (g.link dp name i) h
  | unlinked (path : List Char) (dp : Nat) (name : Name) (off i : Nat) (hp : g.parent cwd path = some (dp, name))
      (hd : (g dp).type = .dir) (h1 : name ≠ dot) (h2 : name ≠ dotdot) (hs : dirScan name (g dp).ents 0 = some (i, off))
      (hl : 1 ≤ (g i).nlink) (hi : (g i).type ≠ .free) (he : (g i).type = .dir → dirEmpty (g i).ents = true)
      (hne : i ≠ dp) : Outcome n h cwd (.unlink path) (g.unlink h dp off i) h
  | moved (path : List Char) (h₀ : Nat → Nat) (hh : h = hold h₀ cwd) (i : Nat) (hi : (g i).type = .dir) :
      Outcome n h cwd (.chdir path) (g.settle cwd (hold h₀ i cwd)) (hold h₀ i)
  | closed (fd : Nat) (i : Nat) (h' : Nat → Nat) (hh : h = hold h' i) : Outcome n h cwd (.close fd)
      (g.settle i (h' i)) h'

structure Tidy (h : Nat → Nat) : Prop where
  nlink : ∀ i, 0 ≤ (g i).nlink
  kept : ∀ i, (g i).type ≠ .free → (g i).nlink = 0 → 0 < h i

variable {g} in
theorem Tidy.settle {h : Nat → Nat} (ht : g.Tidy h) (i n : Nat) : g.settle i (h i + n) = g := by
  unfold Graph.settle
  rw [if_neg]
  rintro ⟨h1, h2, h3⟩
  have := ht.kept i h1 h2
  omega

variable {g} in
theorem Tidy.settle_self {h : Nat → Nat} (ht : g.Tidy h) (i : Nat) : g.settle i (h i) = g := ht.settle i 0

variable {g} in
theorem Tidy.insert {h : Nat → Nat} (ht : g.Tidy h) (dp : Nat) (name : Name) (i : Nat) :
    (g.insert dp name i).Tidy h := by
  constructor <;> intro j <;> rw [insert_apply]
  · exact ht.nlink j
  · exact ht.kept j

variable {g} in
theorem Tidy.addNlink {h : Nat → Nat} (ht : g.Tidy h) (i : Nat) : (g.addNlink i 1).Tidy h := by
  constructor <;> intro j <;> rw [addNlink_apply] <;> have hj := ht.nlink j <;> dsimp only
  · split_ifs <;> omega
  · intro h1 h2
    refine ht.kept j h1 ?_
    split_ifs at h2 <;> omega

structure Sound (h : Nat → Nat) : Prop where
  root : (g ROOTINO).type ≠ .free
  held : ∀ i, 0 < h i → (g i).type ≠ .free
  named : ∀ d, (g d).type = .dir → ∀ e ∈ (g d).ents, e.inum ≠ 0 → (g e.inum).type ≠ .free

variable {g} {h : Nat → Nat}

theorem parent_dir (cwd : Nat) (path : List Char) (dp : Nat) (name : Name) (hp : g.parent cwd path = some (dp, name)) :
    (g dp).type = .dir := by
  unfold parent at hp
  generalize start cwd path = ip at hp
  generalize elems path = names at hp
  induction names generalizing ip with
  | nil => cases hp
  | cons e rest ih =>
    unfold lookup at hp
    split_ifs at hp with hd h1
    · cases hp; simpa using hd
    · rcases hr : dirScan e (g ip).ents 0 with _ | ⟨next, off⟩ <;> rw [hr] at hp
      · cases hp
      · exact ih next hp

theorem Sound.start (hg : g.Sound h) (cwd : Nat) (hcwd : 0 < h cwd) (path : List Char) :
    (g (start cwd path)).type ≠ .free := by
  unfold Graph.start
  split_ifs
  · exact hg.root
  · exact hg.held cwd hcwd

theorem Sound.scan (hg : g.Sound h) (d : Nat) (hd : (g d).type = .dir) (name : Name) (i off : Nat)
    (hs : dirScan name (g d).ents 0 = some (i, off)) : (g i).type ≠ .free := by
  obtain ⟨e, he, rfl, h0, -⟩ := dirScan_mem _ _ _ _ _ hs
  exact hg.named d hd e he h0

theorem Sound.lookup (hg : g.Sound h) (parent : Bool) (names : List Name) (ip : Nat) (hip : (g ip).type ≠ .free)
    (r : Nat × Name) (hr : g.lookup parent ip names = some r) : (g r.1).type ≠ .free := by
  induction names generalizing ip with
  | nil =>
    unfold Graph.lookup at hr
    split_ifs at hr
    cases hr
    exact hip
  | cons e rest ih =>
    unfold Graph.lookup at hr
    split_ifs at hr with hd h1
    · cases hr; exact hip
    · rcases hs : dirScan e (g ip).ents 0 with _ | ⟨next, off⟩ <;> rw [hs] at hr
      · cases hr
      · exact ih next (hg.scan ip (by simpa using hd) e next off hs) hr

theorem Sound.addNlink (hg : g.Sound h) (i : Nat) (n : Int) : (g.addNlink i n).Sound h := by
  have htype : ∀ j, (g.addNlink i n j).type = (g j).type := addNlink_type g i n
  have hents : ∀ j, (g.addNlink i n j).ents = (g j).ents := addNlink_ents g i n
  refine ⟨?_, fun j => ?_, fun d => ?_⟩
  · rw [htype]; exact hg.root
  · rw [htype]; exact hg.held j
  · simp only [htype, hents]; exact hg.named d

theorem lookup_addNlink (g : Graph) (i : Nat) (n : Int) (parent : Bool) (ip : Nat) (names : List Name) :
    (g.addNlink i n).lookup parent ip names = g.lookup parent ip names := by
  induction names generalizing ip with
  | nil => rfl
  | cons e rest ih =>
    unfold Graph.lookup
    rw [addNlink_type, addNlink_ents]
    simp only [ih]

theorem parent_addNlink (g : Graph) (i : Nat) (n : Int) (cwd : Nat) (path : List Char) :
    (g.addNlink i n).parent cwd path = g.parent cwd path := lookup_addNlink ..

end Graph

end Xv6
