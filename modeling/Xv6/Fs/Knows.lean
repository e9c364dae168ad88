import Mathlib.Data.Finset.Basic
import Xv6.Fs.Graph

/-!
# What a process knows inside a system call

The references and locks a call has, and what it knows of the inodes behind them no matter what
other processes do: a locked inode keeps its type and its entries, and an inode that is no
directory stays so while a reference to it is kept. The rules say what each operation needs
and teaches. Each system call obeys them.
-/

open Lib

namespace Xv6

/-- References the call has, inodes it has locked, whether it took over the reference of its current directory, and an
inode with a reference that is no directory. -/
structure Core where
  own : Nat → Nat
  locks : Finset Nat
  taken : Bool
  file : Option Nat

structure Local extends Core where
  /-- The reference that `iput` drops, and whether it is about to free the inode. -/
  drop : Option Nat
  freeing : Option Nat
  /-- Locked inodes that are allocated, and those that are directories. -/
  live : Finset Nat
  dirs : Finset Nat
  /-- A locked directory with an entry for an inode, and one that is older than an inode. -/
  entry : Option (Nat × Nat)
  young : Option (Nat × Nat)

namespace Local

def release (l : Local) (i : Nat) : Local :=
  { l with locks := l.locks.erase i, live := l.live.erase i, dirs := l.dirs.erase i, entry := none, young := none,
           freeing := none }

structure Rest (l : Local) (c : Core) : Prop where
  core : l.toCore = c
  drop : l.drop = none
  freeing : l.freeing = none

end Local

namespace Op

def pre (l : Local) : Op → Prop
  | .setCwd i => l.taken = true ∧ 0 < l.own i
  | .ilock i => ∀ d ∈ l.locks, l.entry = some (d, i) ∨ l.young = some (d, i)
  | .load i => i ∈ l.locks
  | .iput i => 0 < l.own i ∧ l.drop = none
  | .readRef i => i ∈ l.locks ∧ l.drop = some i
  | .free i => l.freeing = some i
  | .releasesleep i => i ∈ l.locks
  | .decRef i => l.drop = some i
  | .type i => i ∈ l.locks ∧ l.freeing = none
  | .scan d _ => d ∈ l.locks
  | .insert d name i => d ∈ l.dirs ∧ (name = dot ∨ name = dotdot ∨ l.file = some i ∨ l.young = some (d, i))
  | .erase d _ => d ∈ l.locks
  | .setIp _ i => 0 < l.own i
  | _ => True

def ok (l : Local) : (a : Op) → Res a → Prop
  | .ilock i, _ | .iput i, _ => i ∉ l.locks
  | .type i, t => i ∈ l.live → t ≠ .free
  | _, _ => True

def next (l : Local) : (a : Op) → Res a → Local → Prop
  | .cwd, c, l' => l' = l ∨ l.taken = false ∧ l' = { l with taken := true, own := hold l.own c }
  | .setCwd i, _, l' => l.file = none ∧ ∃ h, l.own = hold h i ∧ l' = { l with taken := false, own := h }
  | .iget i, _, l' | .idup i, _, l' => l' = { l with own := hold l.own i }
  | .ilock i, _, l' => l' = { l with locks := Insert.insert i l.locks }
  | .load i, _, l' => l' = { l with live := Insert.insert i l.live }
  | .iunlock i, _, l' | .releasesleep i, _, l' => l' = l.release i
  | .iput i, _, l' => ∃ h f, l.own = hold h i ∧ (f = none ∨ f = l.file ∧ (f = some i → 0 < h i)) ∧
      l' = { l with own := h, drop := some i, locks := Insert.insert i l.locks, file := f }
  | .readRef i, r, l' => l' = l ∨ r = 1 ∧ l' = { l with freeing := some i }
  | .free i, _, l' =>
    l' = { l with freeing := none, live := l.live.erase i, dirs := l.dirs.erase i, entry := none, young := none }
  | .decRef _, _, l' => l' = { l with drop := none }
  | .type i, t, l' => l' = l ∨ t ≠ .dir ∧ t ≠ .free ∧ 0 < l.own i ∧ l' = { l with file := some i }
  | .scan d name, r, l' => l' = { l with dirs := Insert.insert d l.dirs } ∨
      ∃ i off, r = some (i, off) ∧ name ≠ dot ∧ name ≠ dotdot ∧
        l' = { l with dirs := Insert.insert d l.dirs, entry := some (d, i) }
  | .erase _ _, _, l' => l' = { l with entry := none }
  | .ialloc i _, r, l' => l' = l ∨ r = true ∧ ∃ d ∈ l.dirs, l' = { l with young := some (d, i) }
  | .setIp _ i, _, l' => l.file = none ∧ ∃ h, l.own = hold h i ∧ l' = { l with own := h }
  | .fileclose _, r, l' => (r = none → l' = l) ∧ ∀ i, r = some i → l' = { l with own := hold l.own i }
  | _, _, l' => l' = l

end Op

def rules : Prog.Rules Local Op Res := ⟨Op.pre, Op.ok, Op.next⟩

abbrev Obeys {α : Type} (x : P α) (Q : α → Local → Prop) (l : Local) : Prop := Prog.Safe rules x Q l

theorem obeys_bind {α β : Type} (x : P α) (f : α → P β) (Q : β → Local → Prop) (l : Local) :
    Obeys (x >>= f) Q l ↔ Obeys x (fun a => Obeys (f a) Q) l := Prog.safe_bind ..

theorem obeys_op {a : Op} {Q : Res a → Local → Prop} {l : Local} :
    Obeys (op a) Q l ↔ a.pre l ∧ ∀ r, Op.ok l a r → ∃ l', Op.next l a r l' ∧ Q r l' := Iff.rfl

theorem obeys_op_bind {β : Type} {a : Op} {f : Res a → P β} {Q : β → Local → Prop} {l : Local} :
    Obeys (op a >>= f) Q l ↔ a.pre l ∧ ∀ r, Op.ok l a r → ∃ l', Op.next l a r l' ∧ Obeys (f r) Q l' := Iff.rfl

section

variable {l : Local} {c : Core}

theorem obeys_panic {α : Type} (msg : String) (Q : α → Local → Prop) : Obeys (panic msg) Q l :=
  ⟨trivial, fun r => nomatch r⟩

theorem obeys_expect (b : Bool) (msg : String) (Q : Unit → Local → Prop) (h : b = true → Q () l) :
    Obeys (expect b msg) Q l := by
  unfold expect
  split_ifs with hb
  · exact h hb
  · exact obeys_panic msg Q

theorem ilock_obeys (i : Nat) (h : ∀ d ∈ l.locks, l.entry = some (d, i) ∨ l.young = some (d, i)) :
    Obeys (ilock i) (fun _ l' => i ∉ l.locks ∧ l' = { l with locks := insert i l.locks, live := insert i l.live }) l :=
  ⟨h, fun _ hi => ⟨_, rfl, by simp [Op.pre, rules], fun _ _ => ⟨_, rfl, hi, rfl⟩⟩⟩

theorem iunlock_obeys (i : Nat) : Obeys (iunlock i) (fun _ l' => l' = l.release i) l :=
  ⟨trivial, fun _ _ => ⟨_, rfl, rfl⟩⟩

theorem iput_obeys (i : Nat) (h : Nat → Nat) (f : Option Nat) (hl : l.Rest c) (hown : c.own = hold h i)
    (hf : f = none ∨ f = c.file ∧ (f = some i → 0 < h i)) :
    Obeys (iput i) (fun _ l' => l'.Rest { c with own := h, file := f }) l := by
  obtain ⟨rfl, hdrop, hfreeing⟩ := hl
  have hpos : 0 < l.own i := by rw [hown]; unfold hold; simp
  have hend : ∀ l₁ : Local, i ∉ l.locks → l₁.own = h → l₁.drop = some i → l₁.locks = insert i l.locks →
      l₁.taken = l.taken → l₁.file = f → Obeys (do op (.releasesleep i); op (.decRef i))
        (fun _ l' => l'.Rest { l.toCore with own := h, file := f }) l₁ := by
    intro l₁ hi h1 h2 h3 h4 h5
    refine ⟨by simp [rules, Op.pre, h3], fun _ _ => ⟨_, rfl, h2, fun _ _ => ⟨_, rfl, ?_, rfl, rfl⟩⟩⟩
    simp [Local.release, h1, h3, h4, h5, Finset.erase_insert hi]
  unfold iput freeUnlinked
  refine obeys_op_bind.mpr ⟨⟨hpos, hdrop⟩, fun _ hi => ⟨_, ⟨h, f, hown, hf, rfl⟩, ?_⟩⟩
  refine obeys_op_bind.mpr ⟨trivial, fun u _ => ⟨_, rfl, ?_⟩⟩
  rw [obeys_bind]
  by_cases hu : u = true
  · rw [if_pos hu]
    refine obeys_op_bind.mpr ⟨⟨by simp, rfl⟩, fun r _ => ?_⟩
    by_cases hr : r = 1
    · refine ⟨_, .inr ⟨hr, rfl⟩, ?_⟩
      rw [if_pos hr]
      exact obeys_op.mpr ⟨rfl, fun _ _ => ⟨_, rfl, hend _ hi rfl rfl rfl rfl rfl⟩⟩
    · refine ⟨_, .inl rfl, ?_⟩
      rw [if_neg hr]
      exact hend _ hi rfl rfl rfl rfl rfl
  · rw [if_neg hu]
    exact hend _ hi rfl rfl rfl rfl rfl

theorem iunlockput_obeys (i : Nat) (h : Nat → Nat) (f : Option Nat) (hl : l.Rest c) (hown : c.own = hold h i)
    (hf : f = none ∨ f = c.file ∧ (f = some i → 0 < h i)) :
    Obeys (iunlockput i) (fun _ l' => l'.Rest { c with own := h, locks := c.locks.erase i, file := f }) l := by
  unfold iunlockput
  rw [obeys_bind]
  refine (iunlock_obeys i).mono ?_
  rintro _ l' rfl
  have hl' : (l.release i).Rest { c with locks := c.locks.erase i } := ⟨by rw [← hl.core]; rfl, hl.drop, rfl⟩
  exact iput_obeys i h f hl' hown hf

theorem ilock_rest (i : Nat) (hl : l.Rest c) (hlocks : c.locks = ∅) :
    Obeys (ilock i) (fun _ l' => l'.Rest { c with locks := {i} } ∧ i ∈ l'.live) l := by
  refine (ilock_obeys i ?_).mono ?_
  · rw [show l.locks = ∅ by rw [← hlocks, ← hl.core]]
    simp
  · rintro _ l' ⟨-, rfl⟩
    refine ⟨⟨?_, hl.drop, hl.freeing⟩, by simp⟩
    rw [← hl.core, show l.locks = ∅ by rw [← hlocks, ← hl.core]]
    rfl

theorem Local.Rest.scanned (hl : l.Rest c) (ds : Finset Nat) : Local.Rest { l with dirs := ds } c :=
  ⟨hl.core, hl.drop, hl.freeing⟩

theorem Local.Rest.locked (hl : l.Rest c) (i : Nat) (live : Finset Nat) :
    Local.Rest { l with locks := insert i l.locks, live := live } { c with locks := insert i c.locks } :=
  ⟨by rw [← hl.core], hl.drop, hl.freeing⟩

theorem Local.Rest.found (hl : l.Rest c) (ds : Finset Nat) (e : Option (Nat × Nat)) (i : Nat) :
    Local.Rest { l with dirs := ds, entry := e, own := hold l.own i } { c with own := hold c.own i } :=
  ⟨by rw [← hl.core], hl.drop, hl.freeing⟩

theorem dirlookup_obeys (d : Nat) (name : Name) (hd : d ∈ l.locks) :
    Obeys (dirlookup d name) (fun r l' => (r = none → l' = { l with dirs := insert d l.dirs }) ∧
      ∀ i off, r = some (i, off) → ∃ e, (name ≠ dot → name ≠ dotdot → e = some (d, i)) ∧
        l' = { l with dirs := insert d l.dirs, entry := e, own := hold l.own i }) l := by
  unfold dirlookup
  refine obeys_op_bind.mpr ⟨hd, fun r _ => ?_⟩
  rcases r with _ | ⟨i, off⟩
  · exact ⟨_, .inl rfl, fun _ => rfl, by simp⟩
  · by_cases hdots : name ≠ dot ∧ name ≠ dotdot
    · refine ⟨_, .inr ⟨i, off, rfl, hdots.1, hdots.2, rfl⟩, ?_⟩
      refine obeys_op_bind.mpr ⟨trivial, fun _ _ => ⟨_, rfl, by simp, ?_⟩⟩
      rintro i' off' ⟨⟩
      exact ⟨_, fun _ _ => rfl, rfl⟩
    · refine ⟨_, .inl rfl, ?_⟩
      refine obeys_op_bind.mpr ⟨trivial, fun _ _ => ⟨_, rfl, by simp, ?_⟩⟩
      rintro i' off' ⟨⟩
      exact ⟨l.entry, fun h1 h2 => absurd ⟨h1, h2⟩ hdots, rfl⟩

theorem dirlink_obeys (d : Nat) (name : Name) (i : Nat) (hd : d ∈ l.locks) (hl : l.Rest c)
    (hpre : name = dot ∨ name = dotdot ∨ l.file = some i ∨ l.young = some (d, i))
    (hfile : ∀ f, c.file = some f → 0 < c.own f) :
    Obeys (dirlink d name i) (fun r l' => (r = true → l' = { l with dirs := insert d l.dirs }) ∧
      (r = false → l'.Rest c)) l := by
  unfold dirlink
  rw [obeys_bind]
  refine (dirlookup_obeys d name hd).mono ?_
  rintro (_ | ⟨j, off⟩) l' ⟨hnone, hsome⟩
  · rw [hnone rfl]
    exact obeys_op_bind.mpr ⟨⟨by simp, hpre⟩, fun _ _ => ⟨_, rfl, fun _ => rfl, by simp⟩⟩
  · obtain ⟨e, -, rfl⟩ := hsome j off rfl
    rw [obeys_bind]
    exact (iput_obeys j c.own c.file (hl.found _ e j) rfl (.inr ⟨rfl, hfile j⟩)).mono
      fun _ l' hl' => ⟨by simp, fun _ => hl'⟩

theorem namexFrom_obeys (parent : Bool) (names : List Name) (ip : Nat) (hl : l.Rest { c with own := hold c.own ip })
    (hlocks : c.locks = ∅) (hfile : ∀ f, c.file = some f → 0 < c.own f) :
    Obeys (namexFrom parent ip names) (fun r l' => (r = none → l'.Rest c) ∧
      ∀ i n, r = some (i, n) → l'.Rest { c with own := hold c.own i }) l := by
  have hput : ∀ (l : Local) (ip : Nat), l.Rest { c with own := hold c.own ip, locks := {ip} } →
      Obeys (iunlockput ip) (fun _ l' => l'.Rest c) l := by
    intro l ip hl
    refine (iunlockput_obeys ip c.own c.file hl rfl (.inr ⟨rfl, hfile ip⟩)).mono fun _ l' hl' => ?_
    simpa [← hlocks] using hl'
  induction names generalizing ip l with
  | nil =>
    unfold namexFrom
    split_ifs
    · rw [obeys_bind]
      refine (iput_obeys ip c.own c.file hl rfl (.inr ⟨rfl, hfile ip⟩)).mono fun _ l' hl' => ⟨fun _ => hl', by simp⟩
    · refine ⟨by simp, ?_⟩
      rintro i n ⟨⟩
      exact hl
  | cons name rest ih =>
    unfold namexFrom
    rw [obeys_bind]
    refine (ilock_rest ip hl hlocks).mono ?_
    rintro _ l ⟨hl, -⟩
    have hmem : ip ∈ l.locks := by rw [show l.locks = {ip} from congrArg Core.locks hl.core]; simp
    refine obeys_op_bind.mpr ⟨⟨hmem, hl.freeing⟩, fun t _ => ⟨l, .inl rfl, ?_⟩⟩
    split_ifs
    · rw [obeys_bind]
      exact (hput l ip hl).mono fun _ l' hl' => ⟨fun _ => hl', by simp⟩
    · rw [obeys_bind]
      refine (iunlock_obeys ip).mono ?_
      rintro _ l' rfl
      refine ⟨by simp, ?_⟩
      rintro i n ⟨⟩
      refine ⟨?_, hl.drop, rfl⟩
      have hc := hl.core
      unfold Local.release
      rw [hc]
      simp [hlocks]
    · rw [obeys_bind]
      refine (dirlookup_obeys ip name hmem).mono ?_
      rintro (_ | ⟨j, off⟩) l' ⟨hnone, hsome⟩
      · rw [hnone rfl]
        rw [obeys_bind]
        exact (hput _ ip (hl.scanned _)).mono fun _ l' hl' => ⟨fun _ => hl', by simp⟩
      · obtain ⟨e, -, rfl⟩ := hsome j off rfl
        rw [obeys_bind]
        refine (iunlockput_obeys ip (hold c.own j) c.file (hl.found _ e j) (hold_comm _ _ _)
          (.inr ⟨rfl, fun hf => ?_⟩)).mono fun _ l' hl' => ih j ?_
        · have := hfile ip hf
          unfold hold
          omega
        · simpa [← hlocks] using hl'

theorem namex_obeys (path : List Char) (parent : Bool) (hl : l.Rest c) (hlocks : c.locks = ∅)
    (hfile : ∀ f, c.file = some f → 0 < c.own f) :
    Obeys (namex path parent) (fun r l' => (r = none → l'.Rest c) ∧
      ∀ i n, r = some (i, n) → l'.Rest { c with own := hold c.own i }) l := by
  have hstart : Obeys (startInode path) (fun ip l' => l'.Rest { c with own := hold c.own ip }) l := by
    have hheld : ∀ i, Local.Rest { l with own := hold l.own i } { c with own := hold c.own i } :=
      fun i => hl.found l.dirs l.entry i
    unfold startInode
    split_ifs
    · exact obeys_op_bind.mpr ⟨trivial, fun _ _ => ⟨_, rfl, hheld _⟩⟩
    · exact obeys_op_bind.mpr ⟨trivial, fun cwd _ => ⟨_, .inl rfl, trivial, fun _ _ => ⟨_, rfl, hheld cwd⟩⟩⟩
  unfold namex
  rw [obeys_bind]
  exact hstart.mono fun ip l' hl' => namexFrom_obeys parent _ ip hl' hlocks hfile

theorem namei_obeys (path : List Char) (hl : l.Rest c) (hlocks : c.locks = ∅)
    (hfile : ∀ f, c.file = some f → 0 < c.own f) :
    Obeys (namei path) (fun r l' => (r = none → l'.Rest c) ∧
      ∀ i, r = some i → l'.Rest { c with own := hold c.own i }) l := by
  unfold namei
  rw [obeys_bind]
  refine (namex_obeys path false hl hlocks hfile).mono ?_
  rintro (_ | ⟨i, n⟩) l' ⟨hnone, hsome⟩
  · exact ⟨fun _ => hnone rfl, by simp⟩
  · refine ⟨by simp, ?_⟩
    rintro j ⟨⟩
    exact hsome i n rfl

theorem iallocFrom_obeys (t : FileType) (n inum : Nat) {d : Nat} (hd : d ∈ l.dirs) :
    Obeys (iallocFrom t n inum) (fun i l' => l' = { l with young := some (d, i), own := hold l.own i }) l := by
  induction n generalizing inum with
  | zero => exact obeys_panic _ _
  | succ n ih =>
    unfold iallocFrom
    refine obeys_op_bind.mpr ⟨trivial, fun r _ => ?_⟩
    rcases r with _ | _
    · exact ⟨l, .inl rfl, ih (inum + 1)⟩
    · exact ⟨_, .inr ⟨rfl, d, hd, rfl⟩, trivial, fun _ _ => ⟨_, rfl, rfl⟩⟩

theorem ialloc_obeys (t : FileType) {d : Nat} (hd : d ∈ l.dirs) :
    Obeys (ialloc t) (fun i l' => l' = { l with young := some (d, i), own := hold l.own i }) l :=
  obeys_op_bind.mpr ⟨trivial, fun _ _ => ⟨l, rfl, iallocFrom_obeys t _ 1 hd⟩⟩

end

def Core.idle : Core := ⟨0, ∅, false, none⟩

section

variable {l : Local}

abbrev Local.Has (l : Local) (own : Nat → Nat) (locks : Finset Nat) : Prop := l.Rest ⟨own, locks, false, none⟩

theorem Local.Rest.mem {c : Core} (hl : l.Rest c) {i : Nat} (hi : i ∈ c.locks) : i ∈ l.locks := by
  rwa [show l.locks = c.locks from congrArg Core.locks hl.core]

theorem lock_obeys {h : Nat → Nat} (i : Nat) (hl : l.Has h ∅) :
    Obeys (ilock i) (fun _ l' => l'.Has h {i} ∧ i ∈ l'.live) l := ilock_rest i hl rfl

theorem unlock_obeys {h : Nat → Nat} (i : Nat) (hl : l.Has h {i}) : Obeys (iunlock i) (fun _ l' => l'.Has h ∅) l := by
  refine (iunlock_obeys i).mono ?_
  rintro _ l' rfl
  refine ⟨?_, hl.drop, rfl⟩
  have hc := hl.core
  unfold Local.release
  rw [hc]
  simp

theorem put_obeys {h h' : Nat → Nat} (i : Nat) (locks : Finset Nat) (hl : l.Has h locks) (hown : h = hold h' i) :
    Obeys (iunlockput i) (fun _ l' => l'.Has h' (locks.erase i)) l :=
  iunlockput_obeys i h' none hl hown (.inl rfl)

theorem put_last_obeys {h h' : Nat → Nat} (i : Nat) (hl : l.Has h {i}) (hown : h = hold h' i) :
    Obeys (iunlockput i) (fun _ l' => l'.Has h' ∅) l :=
  (put_obeys i {i} hl hown).mono fun _ _ hl' => by simpa using hl'

theorem parent_obeys (path : List Char) (hl : l.Has 0 ∅) :
    Obeys (nameiparent path) (fun r l' => (r = none → l'.Has 0 ∅) ∧ ∀ i n, r = some (i, n) → l'.Has (hold 0 i) ∅) l :=
  namex_obeys path true hl rfl (by simp)

theorem path_obeys (path : List Char) (hl : l.Has 0 ∅) :
    Obeys (namei path) (fun r l' => (r = none → l'.Has 0 ∅) ∧ ∀ i, r = some i → l'.Has (hold 0 i) ∅) l :=
  namei_obeys path hl rfl (by simp)

theorem lock_second_obeys {h : Nat → Nat} {dp : Nat} (ip : Nat) (hl : l.Has h {dp})
    (hpre : l.entry = some (dp, ip) ∨ l.young = some (dp, ip)) :
    Obeys (ilock ip) (fun _ l' => ip ≠ dp ∧ l'.Has h {ip, dp} ∧ l'.young = l.young) l := by
  have hlocks : l.locks = {dp} := congrArg Core.locks hl.core
  refine (ilock_obeys ip ?_).mono ?_
  · intro d hd
    obtain rfl : d = dp := by simpa [hlocks] using hd
    exact hpre
  · rintro _ l' ⟨hnot, rfl⟩
    exact ⟨by simpa [hlocks] using hnot, hl.locked ip _, rfl⟩

theorem linkBad_obeys (ip : Nat) (hl : l.Rest ⟨hold 0 ip, ∅, false, some ip⟩) :
    Obeys (linkBad ip) (fun _ l' => l'.Has 0 ∅) l := by
  unfold linkBad
  rw [obeys_bind]
  refine (ilock_rest ip hl rfl).mono ?_
  rintro _ l ⟨hl, -⟩
  refine obeys_op_bind.mpr ⟨trivial, fun _ _ => ⟨l, rfl, ?_⟩⟩
  rw [obeys_bind]
  refine (iunlockput_obeys ip 0 none hl rfl (.inl rfl)).mono fun _ l' hl' => ?_
  simpa using hl'

theorem linkTo_obeys (ip dp : Nat) (name : Name) (hl : l.Rest ⟨hold (hold 0 ip) dp, ∅, false, some ip⟩) :
    Obeys (ilock dp >>= fun _ => dirlink dp name ip >>= fun ok =>
      if ok then do iunlockput dp; iput ip; pure 0 else do iunlockput dp; linkBad ip) (fun _ l' => l'.Has 0 ∅) l := by
  have hput : ∀ l : Local, l.Rest ⟨hold (hold 0 ip) dp, {dp}, false, some ip⟩ →
      Obeys (iunlockput dp) (fun _ l' => l'.Rest ⟨hold 0 ip, ∅, false, some ip⟩) l := by
    intro l hl
    refine (iunlockput_obeys dp (hold 0 ip) (some ip) hl rfl (.inr ⟨rfl, ?_⟩)).mono fun _ l' hl' => by simpa using hl'
    rintro ⟨⟩
    simp [hold]
  rw [obeys_bind]
  refine (ilock_rest dp hl rfl).mono ?_
  rintro _ l ⟨hl, -⟩
  rw [obeys_bind]
  have hfile : l.file = some ip := congrArg Core.file hl.core
  refine (dirlink_obeys dp name ip (hl.mem (by simp)) hl (.inr (.inr (.inl hfile))) ?_).mono ?_
  · rintro f ⟨⟩
    simp [hold]
  rintro (_ | _) l' ⟨htrue, hfalse⟩
  · rw [if_neg Bool.false_ne_true, obeys_bind]
    exact (hput l' (hfalse rfl)).mono fun _ l hl => linkBad_obeys ip hl
  · rw [htrue rfl, if_pos rfl, obeys_bind]
    refine (hput _ (hl.scanned _)).mono fun _ l hl => ?_
    rw [obeys_bind]
    exact (iput_obeys ip 0 none hl rfl (.inl rfl)).mono fun _ _ hl' => hl'

theorem sys_link_obeys (old new : List Char) (hl : l.Has 0 ∅) :
    Obeys (sys_link old new) (fun _ l' => l'.Has 0 ∅) l := by
  unfold sys_link
  rw [obeys_bind]
  refine (path_obeys old hl).mono ?_
  rintro (_ | ip) l ⟨hnone, hsome⟩
  · exact hnone rfl
  rw [obeys_bind]
  refine (lock_obeys ip (hsome ip rfl)).mono ?_
  rintro _ l ⟨hl, hlive⟩
  refine obeys_op_bind.mpr ⟨⟨hl.mem (by simp), hl.freeing⟩, fun t ht => ?_⟩
  by_cases hdir : t = .dir
  · refine ⟨l, .inl rfl, ?_⟩
    rw [if_pos hdir, obeys_bind]
    exact (put_last_obeys ip hl rfl).mono fun _ _ hl' => hl'
  have hown : l.own = hold 0 ip := congrArg Core.own hl.core
  refine ⟨_, .inr ⟨hdir, ht hlive, by rw [hown]; simp [hold], rfl⟩, ?_⟩
  rw [if_neg hdir]
  refine obeys_op_bind.mpr ⟨trivial, fun _ _ => ⟨_, rfl, ?_⟩⟩
  rw [obeys_bind]
  refine (iunlock_obeys ip).mono ?_
  rintro _ l' rfl
  have hl' : Local.Rest (Local.release { l with file := some ip } ip) ⟨hold 0 ip, ∅, false, some ip⟩ := by
    refine ⟨?_, hl.drop, rfl⟩
    have hc := hl.core
    unfold Local.release
    rw [hc]
    simp
  have hfile : ∀ f, some ip = some f → 0 < hold 0 ip f := by
    rintro f ⟨⟩
    simp [hold]
  rw [obeys_bind]
  refine (namex_obeys new true hl' rfl hfile).mono ?_
  rintro (_ | ⟨dp, name⟩) l ⟨hnone, hsome⟩
  · exact linkBad_obeys ip (hnone rfl)
  · exact linkTo_obeys ip dp name (hsome dp name rfl)

theorem unlinkEntry_obeys (dp off ip : Nat) (t : FileType) (hl : l.Has (hold (hold 0 dp) ip) {ip, dp}) (hne : ip ≠ dp) :
    Obeys (unlinkEntry dp off ip t) (fun _ l' => l'.Has 0 ∅) l := by
  have hlast : ∀ l : Local, l.Has (hold (hold 0 dp) ip) {ip, dp} →
      Obeys (do iunlockput dp; op (.addNlink ip (-1)); iunlockput ip; pure (0 : Int)) (fun _ l' => l'.Has 0 ∅) l := by
    intro l hl
    rw [obeys_bind]
    refine (put_obeys dp _ hl (hold_comm _ _ _)).mono fun _ l hl => ?_
    refine obeys_op_bind.mpr ⟨trivial, fun _ _ => ⟨l, rfl, ?_⟩⟩
    rw [obeys_bind]
    rw [show ({ip, dp} : Finset Nat).erase dp = {ip} by grind] at hl
    exact (put_last_obeys ip hl rfl).mono fun _ _ hl' => hl'
  unfold unlinkEntry
  refine obeys_op_bind.mpr ⟨hl.mem (by simp), fun _ _ => ⟨_, rfl, ?_⟩⟩
  have hl' : Local.Has { l with entry := none } (hold (hold 0 dp) ip) {ip, dp} := ⟨hl.core, hl.drop, hl.freeing⟩
  split_ifs
  · exact obeys_op_bind.mpr ⟨trivial, fun _ _ => ⟨_, rfl, hlast _ hl'⟩⟩
  · exact hlast _ hl'

theorem sys_unlink_obeys (path : List Char) (hl : l.Has 0 ∅) : Obeys (sys_unlink path) (fun _ l' => l'.Has 0 ∅) l := by
  unfold sys_unlink
  rw [obeys_bind]
  refine (parent_obeys path hl).mono ?_
  rintro (_ | ⟨dp, name⟩) l ⟨hnone, hsome⟩
  · exact hnone rfl
  rw [obeys_bind]
  refine (lock_obeys dp (hsome dp name rfl)).mono ?_
  rintro _ l ⟨hl, -⟩
  by_cases hdots : name = dot ∨ name = dotdot
  · rw [if_pos hdots, obeys_bind]
    exact (put_last_obeys dp hl rfl).mono fun _ _ hl' => hl'
  rw [if_neg hdots, obeys_bind]
  obtain ⟨hdot, hdotdot⟩ := not_or.mp hdots
  refine (dirlookup_obeys dp name (hl.mem (by simp))).mono ?_
  rintro (_ | ⟨ip, off⟩) l' ⟨hnone, hsome⟩
  · rw [hnone rfl]
    rw [obeys_bind]
    exact (put_last_obeys dp (hl.scanned _) rfl).mono fun _ _ hl' => hl'
  obtain ⟨e, he, rfl⟩ := hsome ip off rfl
  obtain rfl := he hdot hdotdot
  rw [obeys_bind]
  refine (lock_second_obeys ip (hl.found _ _ ip) (.inl rfl)).mono ?_
  rintro _ l ⟨hne, hl, -⟩
  refine obeys_op_bind.mpr ⟨trivial, fun _ _ => ⟨l, rfl, ?_⟩⟩
  rw [obeys_bind]
  refine obeys_expect _ _ _ fun _ => ?_
  refine obeys_op_bind.mpr ⟨⟨hl.mem (by simp), hl.freeing⟩, fun t _ => ⟨l, .inl rfl, ?_⟩⟩
  have hfull : Obeys (fullDir ip t) (fun _ l' => l'.Has (hold (hold 0 dp) ip) {ip, dp}) l := by
    unfold fullDir
    split_ifs
    · exact obeys_op_bind.mpr ⟨trivial, fun _ _ => ⟨l, rfl, hl⟩⟩
    · exact hl
  rw [obeys_bind]
  refine hfull.mono fun full l hl => ?_
  split_ifs
  · rw [obeys_bind]
    refine (put_obeys ip _ hl rfl).mono fun _ l hl => ?_
    rw [obeys_bind]
    rw [show ({ip, dp} : Finset Nat).erase ip = {dp} by grind] at hl
    exact (put_last_obeys dp hl rfl).mono fun _ _ hl' => hl'
  · exact unlinkEntry_obeys dp off ip t hl hne

theorem link_dots_obeys (d : Nat) (name : Name) (i : Nat) (msg : String) {h : Nat → Nat} {locks : Finset Nat}
    (hl : l.Has h locks) (hd : d ∈ locks) (hpre : name = dot ∨ name = dotdot ∨ l.young = some (d, i)) :
    Obeys (do let ok ← dirlink d name i; expect ok msg) (fun _ l' => l'.Has h locks ∧ l'.young = l.young) l := by
  have hpre' : name = dot ∨ name = dotdot ∨ l.file = some i ∨ l.young = some (d, i) := by tauto
  rw [obeys_bind]
  refine (dirlink_obeys d name i (hl.mem hd) hl hpre' (by simp)).mono fun ok l' hok => ?_
  refine obeys_expect _ _ _ fun htrue => ?_
  rw [hok.1 htrue]
  exact ⟨hl.scanned _, rfl⟩

theorem createDots_obeys (dp ip : Nat) {h : Nat → Nat} {locks : Finset Nat} (hl : l.Has h locks) (hip : ip ∈ locks) :
    Obeys (createDots dp ip) (fun _ l' => l'.Has h locks ∧ l'.young = l.young) l := by
  have hsecond : ∀ l : Local, l.Has h locks →
      Obeys (do let ok ← dirlink ip dotdot dp; expect ok "create dots")
        (fun _ l' => l'.Has h locks ∧ l'.young = l.young) l :=
    fun l hl => link_dots_obeys ip dotdot dp _ hl hip (.inr (.inl rfl))
  unfold createDots
  refine obeys_op_bind.mpr ⟨trivial, fun _ _ => ⟨l, rfl, ?_⟩⟩
  have hfirst := link_dots_obeys ip dot ip "create dots" hl hip (.inl rfl)
  rw [obeys_bind] at hfirst ⊢
  refine hfirst.mono fun ok l' hok => ?_
  rw [obeys_bind]
  refine hok.mono fun _ l'' hl'' => ?_
  rw [← hl''.2]
  exact hsecond l'' hl''.1

theorem createEntry_obeys (dp : Nat) (name : Name) (ip : Nat) (t : FileType) (hne : ip ≠ dp)
    (hl : l.Has (hold (hold 0 dp) ip) {ip, dp}) (hyoung : l.young = some (dp, ip)) :
    Obeys (createEntry dp name ip t) (fun r l' => r = some ip ∧ l'.Has (hold 0 ip) {ip}) l := by
  have hdots : Obeys (if t = .dir then createDots dp ip else pure ())
      (fun _ l' => l'.Has (hold (hold 0 dp) ip) {ip, dp} ∧ l'.young = some (dp, ip)) l := by
    split_ifs
    · rw [← hyoung]
      exact createDots_obeys dp ip hl (by simp)
    · exact ⟨hl, hyoung⟩
  unfold createEntry
  rw [obeys_bind]
  refine hdots.mono ?_
  rintro _ l ⟨hl, hyoung⟩
  have hentry := link_dots_obeys dp name ip "create: dirlink" hl (by simp) (.inr (.inr hyoung))
  rw [obeys_bind] at hentry ⊢
  refine hentry.mono fun ok l' hok => ?_
  rw [obeys_bind]
  refine hok.mono fun _ l hl => ?_
  rw [obeys_bind]
  refine (put_obeys dp _ hl.1 (hold_comm _ _ _)).mono fun _ l' hl' => ⟨rfl, ?_⟩
  rwa [show ({ip, dp} : Finset Nat).erase dp = {ip} by grind] at hl'

theorem create_obeys (path : List Char) (t : FileType) (major minor : Int) (hl : l.Has 0 ∅) :
    Obeys (create path t major minor) (fun r l' => (r = none → l'.Has 0 ∅) ∧ ∀ i, r = some i → l'.Has (hold 0 i)
      {i}) l := by
  unfold create
  rw [obeys_bind]
  refine (parent_obeys path hl).mono ?_
  rintro (_ | ⟨dp, name⟩) l ⟨hnone, hsome⟩
  · exact ⟨fun _ => hnone rfl, by simp⟩
  rw [obeys_bind]
  refine (lock_obeys dp (hsome dp name rfl)).mono ?_
  rintro _ l ⟨hl, -⟩
  rw [obeys_bind]
  refine (dirlookup_obeys dp name (hl.mem (by simp))).mono ?_
  rintro (_ | ⟨ip, off⟩) l' ⟨hnone, hsome⟩
  · rw [hnone rfl]
    rw [obeys_bind]
    refine (ialloc_obeys t (Finset.mem_insert_self dp l.dirs)).mono ?_
    rintro ip l' rfl
    have hheld : Local.Has { l with dirs := insert dp l.dirs, young := some (dp, ip), own := hold l.own ip } _ _ :=
      ⟨(hl.found l.dirs l.entry ip).core, hl.drop, hl.freeing⟩
    rw [obeys_bind]
    refine (lock_second_obeys ip hheld (.inr rfl)).mono ?_
    rintro _ l ⟨hne, hl, hyoung⟩
    refine obeys_op_bind.mpr ⟨trivial, fun _ _ => ⟨l, rfl, ?_⟩⟩
    refine (createEntry_obeys dp name ip t hne hl hyoung).mono ?_
    rintro r l ⟨rfl, hl⟩
    refine ⟨by simp, ?_⟩
    rintro i ⟨⟩
    exact hl
  · obtain ⟨e, -, rfl⟩ := hsome ip off rfl
    rw [obeys_bind]
    refine (put_last_obeys dp (hl.found _ e ip) (hold_comm _ _ _)).mono fun _ l hl => ?_
    rw [obeys_bind]
    refine (lock_obeys ip hl).mono ?_
    rintro _ l ⟨hl, -⟩
    refine obeys_op_bind.mpr ⟨⟨hl.mem (by simp), hl.freeing⟩, fun old _ => ⟨l, .inl rfl, ?_⟩⟩
    split_ifs
    · refine ⟨by simp, ?_⟩
      rintro i ⟨⟩
      exact hl
    · rw [obeys_bind]
      exact (put_last_obeys ip hl rfl).mono fun _ _ hl' => ⟨fun _ => hl', by simp⟩

theorem created_obeys (ip : Option Nat) (hnone : ip = none → l.Has 0 ∅)
    (hsome : ∀ i, ip = some i → l.Has (hold 0 i) {i}) :
    Obeys (created ip) (fun _ l' => l'.Has 0 ∅) l := by
  unfold created
  rcases ip with _ | ip
  · exact hnone rfl
  · rw [obeys_bind]
    exact (put_last_obeys ip (hsome ip rfl) rfl).mono fun _ _ hl' => hl'

theorem openInode_obeys (path : List Char) (omode : Nat) (hl : l.Has 0 ∅) :
    Obeys (openInode path omode) (fun r l' => (r = none → l'.Has 0 ∅) ∧ ∀ i, r = some i → l'.Has (hold 0 i) {i}) l := by
  unfold openInode
  split_ifs
  · exact create_obeys path .file 0 0 hl
  rw [obeys_bind]
  refine (path_obeys path hl).mono ?_
  rintro (_ | ip) l ⟨hnone, hsome⟩
  · exact ⟨fun _ => hnone rfl, by simp⟩
  rw [obeys_bind]
  refine (lock_obeys ip (hsome ip rfl)).mono ?_
  rintro _ l ⟨hl, -⟩
  refine obeys_op_bind.mpr ⟨⟨hl.mem (by simp), hl.freeing⟩, fun t _ => ⟨l, .inl rfl, ?_⟩⟩
  split_ifs
  · rw [obeys_bind]
    exact (put_last_obeys ip hl rfl).mono fun _ _ hl' => ⟨fun _ => hl', by simp⟩
  · refine ⟨by simp, ?_⟩
    rintro i ⟨⟩
    exact hl

theorem fileclose_obeys (f : Fin NFILE) {h : Nat → Nat} {locks : Finset Nat} (hl : l.Has h locks) :
    Obeys (fileclose f) (fun _ l' => l'.Has h locks) l := by
  unfold fileclose
  refine obeys_op_bind.mpr ⟨trivial, fun r _ => ?_⟩
  rcases r with _ | ip
  · exact ⟨l, ⟨fun _ => rfl, by simp⟩, hl⟩
  · refine ⟨{ l with own := hold l.own ip }, ⟨by simp, ?_⟩, ?_⟩
    · rintro i ⟨⟩
      rfl
    · exact iput_obeys ip h none (hl.found l.dirs l.entry ip) rfl (.inl rfl)

theorem openFile_obeys (ip : Nat) (hl : l.Has (hold 0 ip) {ip}) : Obeys (openFile ip) (fun _ l' => l'.Has 0 ∅) l := by
  unfold openFile
  refine obeys_op_bind.mpr ⟨trivial, fun f _ => ⟨l, rfl, ?_⟩⟩
  rcases f with _ | f
  · rw [obeys_bind]
    exact (put_last_obeys ip hl rfl).mono fun _ _ hl' => hl'
  refine obeys_op_bind.mpr ⟨trivial, fun fd _ => ⟨l, rfl, ?_⟩⟩
  rcases fd with _ | fd
  · rw [obeys_bind]
    refine (fileclose_obeys f hl).mono fun _ l hl => ?_
    rw [obeys_bind]
    exact (put_last_obeys ip hl rfl).mono fun _ _ hl' => hl'
  · rw [obeys_bind]
    refine (unlock_obeys ip hl).mono fun _ l hl => ?_
    have hown : l.own = hold 0 ip := congrArg Core.own hl.core
    refine obeys_op_bind.mpr ⟨?_, fun _ _ => ⟨_, ⟨congrArg Core.file hl.core, 0, hown, rfl⟩, ?_⟩⟩
    · show 0 < l.own ip
      rw [hown]
      simp [hold]
    · exact ⟨by rw [hl.core], hl.drop, hl.freeing⟩

theorem sys_chdir_obeys (path : List Char) (hl : l.Has 0 ∅) : Obeys (sys_chdir path) (fun _ l' => l'.Has 0 ∅) l := by
  unfold sys_chdir
  rw [obeys_bind]
  refine (path_obeys path hl).mono ?_
  rintro (_ | ip) l ⟨hnone, hsome⟩
  · exact hnone rfl
  rw [obeys_bind]
  refine (lock_obeys ip (hsome ip rfl)).mono ?_
  rintro _ l ⟨hl, -⟩
  refine obeys_op_bind.mpr ⟨⟨hl.mem (by simp), hl.freeing⟩, fun t _ => ⟨l, .inl rfl, ?_⟩⟩
  split_ifs
  · rw [obeys_bind]
    exact (put_last_obeys ip hl rfl).mono fun _ _ hl' => hl'
  rw [obeys_bind]
  refine (unlock_obeys ip hl).mono fun _ l hl => ?_
  -- The reference of the old current directory goes before `setCwd` gives up the new one.
  refine obeys_op_bind.mpr ⟨trivial, fun cwd _ => ⟨_, .inr ⟨congrArg Core.taken hl.core, rfl⟩, ?_⟩⟩
  have htaken : Local.Rest { l with taken := true, own := hold l.own cwd } ⟨hold (hold 0 ip) cwd, ∅, true, none⟩ :=
    ⟨by rw [hl.core], hl.drop, hl.freeing⟩
  rw [obeys_bind]
  refine (iput_obeys cwd (hold 0 ip) none htaken rfl (.inl rfl)).mono fun _ l hl => ?_
  have hown : l.own = hold 0 ip := congrArg Core.own hl.core
  refine obeys_op_bind.mpr ⟨⟨congrArg Core.taken hl.core, ?_⟩, fun _ _ =>
    ⟨_, ⟨congrArg Core.file hl.core, 0, hown, rfl⟩, by rw [hl.core], hl.drop, hl.freeing⟩⟩
  rw [hown]
  simp [hold]

theorem sys_close_obeys (fd : Nat) (hl : l.Has 0 ∅) : Obeys (sys_close fd) (fun _ l' => l'.Has 0 ∅) l := by
  unfold sys_close
  refine obeys_op_bind.mpr ⟨trivial, fun f _ => ⟨l, rfl, ?_⟩⟩
  rcases f with _ | f
  · exact hl
  · refine obeys_op_bind.mpr ⟨trivial, fun _ _ => ⟨l, rfl, ?_⟩⟩
    rw [obeys_bind]
    exact (fileclose_obeys f hl).mono fun _ _ hl' => hl'

theorem call_obeys (c : Call) (hl : l.Rest .idle) : Obeys c.prog (fun _ l' => l'.Rest .idle) l := by
  rcases c with ⟨old, new⟩ | path | ⟨path, omode⟩ | path | ⟨path, major, minor⟩ | path | fd
  · exact sys_link_obeys old new hl
  · exact sys_unlink_obeys path hl
  · refine (obeys_bind ..).mpr ((openInode_obeys path omode hl).mono ?_)
    rintro (_ | ip) l ⟨hnone, hsome⟩
    · exact hnone rfl
    · exact openFile_obeys ip (hsome ip rfl)
  · exact (obeys_bind ..).mpr ((create_obeys path .dir 0 0 hl).mono fun ip _ h => created_obeys ip h.1 h.2)
  · exact (obeys_bind ..).mpr ((create_obeys path .dev major minor hl).mono fun ip _ h => created_obeys ip h.1 h.2)
  · exact sys_chdir_obeys path hl
  · exact sys_close_obeys fd hl

end

end Xv6
