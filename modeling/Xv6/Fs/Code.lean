import Mathlib.Data.List.DropRight
import Xv6.Bio.Code
import Xv6.Lib.Prog

/-!
# Inodes, directories and system calls (`fs.c`, `file.c`, `sysfile.c`)

A system call is a program over `Op`. One operation is what the code does under `icache.lock` or
`ftable.lock`, or with the fields of an inode that the caller has locked, with nothing in between
that another process could see. The fields of a cached inode are written through by `iupdate`, so
one copy of them is kept. Of an inode's content only directory entries are kept, and an offset
counts entries. `begin_op` and `end_op` take no inode lock and are left out.
-/

open Lib Function

namespace Xv6

/-! ## Constants -/

/-- Most active inodes. -/
def NINODE : Nat := 50

/-- Open files per system. -/
def NFILE : Nat := 100

def ROOTINO : Nat := 1

def DIRSIZ : Nat := 14

/-- Entries of 16 bytes in a file of `MAXFILE` blocks. -/
def MAXENTS : Nat := (12 + BSIZE / 4) * BSIZE / 16

/-! ## State -/

/-- `free` is type 0 of an inode that is not allocated. -/
inductive FileType where
  | free | dir | file | dev
  deriving DecidableEq, Repr

abbrev Name := List Char

def dot : Name := ['.']

def dotdot : Name := ['.', '.']

structure Dirent where
  inum : Nat
  name : Name
  deriving DecidableEq, Repr

structure Dinode where
  type : FileType
  major : Int
  minor : Int
  /-- A `short` in the source. A disk of `FSSIZE` blocks holds fewer than 2^15 entries. -/
  nlink : Int
  ents : List Dirent
  deriving DecidableEq, Repr

/-- All inodes on disk. -/
abbrev Graph := Nat → Dinode

/-- Fields of an `icache` entry. `owner` is the process that holds the sleep-lock. -/
structure Inode (nproc : Nat) where
  ref : Nat
  valid : Bool
  owner : Option (Fin nproc)
  deriving DecidableEq

/-- An entry of `ftable`. `ip` is `none` for type `FD_NONE`. -/
structure File where
  ref : Nat
  ip : Option Nat
  deriving DecidableEq, Repr

structure Fs (nproc : Nat) where
  ninodes : Nat
  dinode : Graph
  inode : Nat → Inode nproc
  cwd : Fin nproc → Nat
  file : Fin NFILE → File
  ofile : Fin nproc → Nat → Option (Fin NFILE)

variable {nproc : Nat}

namespace Fs

def setDinode (s : Fs nproc) (i : Nat) (f : Dinode → Dinode) : Fs nproc :=
  { s with dinode := update s.dinode i (f (s.dinode i)) }

def setInode (s : Fs nproc) (i : Nat) (f : Inode nproc → Inode nproc) : Fs nproc :=
  { s with inode := update s.inode i (f (s.inode i)) }

def setFile (s : Fs nproc) (f : Fin NFILE) (v : File) : Fs nproc := { s with file := update s.file f v }

def setOfile (s : Fs nproc) (p : Fin nproc) (fd : Nat) (v : Option (Fin NFILE)) : Fs nproc :=
  { s with ofile := update s.ofile p (update (s.ofile p) fd v) }

section

variable (s : Fs nproc) (i : Nat) (f f' : Inode nproc → Inode nproc) (d : Dinode → Dinode)

@[simp]
theorem setInode_inode_self : (s.setInode i f).inode i = f (s.inode i) := update_self ..

theorem setInode_inode_ne (j : Nat) (h : j ≠ i) : (s.setInode i f).inode j = s.inode j := update_of_ne h ..

@[simp]
theorem setInode_dinode : (s.setInode i f).dinode = s.dinode := rfl

@[simp]
theorem setDinode_inode : (s.setDinode i d).inode = s.inode := rfl

@[simp]
theorem setDinode_dinode_self : (s.setDinode i d).dinode i = d (s.dinode i) := update_self ..

@[simp]
theorem setDinode_setDinode (d' : Dinode → Dinode) : (s.setDinode i d).setDinode i d' = s.setDinode i (d' ∘ d) := by
  unfold setDinode
  simp

@[simp]
theorem setInode_setInode : (s.setInode i f).setInode i f' = s.setInode i (f' ∘ f) := by
  unfold setInode
  simp

theorem setInode_setDinode (j : Nat) : (s.setInode i f).setDinode j d = (s.setDinode j d).setInode i f := rfl

end

/-- Entries of `icache` in use. -/
def active (s : Fs nproc) : Nat := (List.range s.ninodes).countP fun i => 0 < (s.inode i).ref

end Fs

/-! ## Directory entries -/

/-- The scan of `dirlookup` from offset `off` on. -/
def dirScan (name : Name) : List Dirent → Nat → Option (Nat × Nat)
  | [], _ => none
  | e :: es, off => if e.inum ≠ 0 ∧ e.name = name then some (e.inum, off) else dirScan name es (off + 1)

/-- The entry that `dirlink` writes goes to the first empty slot, or to the end. -/
def dirInsert (new : Dirent) : List Dirent → List Dirent
  | [] => [new]
  | e :: es => if e.inum = 0 then new :: es else e :: dirInsert new es

def dirEmpty (ents : List Dirent) : Bool := (ents.drop 2).all fun e => e.inum = 0

/-! ## Operations -/

inductive Op where
  | cwd
  | setCwd (ip : Nat)
  | iget (inum : Nat)
  | idup (ip : Nat)
  /-- `ilock` up to and with `acquiresleep`. -/
  | ilock (ip : Nat)
  /-- The rest of `ilock`: read the inode from disk. -/
  | load (ip : Nat)
  | iunlock (ip : Nat)
  /-- `acquiresleep` in `iput`. -/
  | iput (ip : Nat)
  | unlinked (ip : Nat)
  | readRef (ip : Nat)
  /-- `itrunc`, `ip->type = 0`, `iupdate`, `ip->valid = 0` -/
  | free (ip : Nat)
  | releasesleep (ip : Nat)
  | decRef (ip : Nat)
  | type (ip : Nat)
  | nlink (ip : Nat)
  | addNlink (ip : Nat) (n : Int)
  /-- `ip->major = major`, `ip->minor = minor`, `ip->nlink = 1`, `iupdate` -/
  | init (ip : Nat) (major minor : Int)
  | scan (dp : Nat) (name : Name)
  | insert (dp : Nat) (name : Name) (inum : Nat)
  | erase (dp : Nat) (off : Nat)
  | isdirempty (dp : Nat)
  | ninodes
  /-- One turn of the loop of `ialloc`, `false` when the inode is in use. -/
  | ialloc (inum : Nat) (type : FileType)
  | filealloc
  | fdalloc (f : Fin NFILE)
  | setIp (f : Fin NFILE) (ip : Nat)
  | argfd (fd : Nat)
  | clearFd (fd : Nat)
  /-- `fileclose` under `ftable.lock`, with the inode to put. -/
  | fileclose (f : Fin NFILE)
  | panic (msg : String)
  deriving DecidableEq

abbrev Res : Op → Type
  | .cwd | .readRef _ | .ninodes => Nat
  | .unlinked _ | .isdirempty _ | .ialloc _ _ => Bool
  | .type _ => FileType
  | .nlink _ => Int
  | .scan _ _ => Option (Nat × Nat)
  | .fdalloc _ | .fileclose _ => Option Nat
  | .filealloc | .argfd _ => Option (Fin NFILE)
  | .panic _ => Empty
  | _ => Unit

namespace Op

def stop {α : Type} (msg : String) : Cmd (Fs nproc) Stop α := Cmd.fail (.panic msg)

/-- `acquiresleep`. A process that runs alone waits forever for a lock that is held. -/
def acquiresleep (p : Fin nproc) (ip : Nat) : Cmd (Fs nproc) Stop Unit := fun s =>
  if (s.inode ip).owner = none then (.ok (), s.setInode ip fun i => { i with owner := some p }) else (.error .hang, s)

def perform (p : Fin nproc) : (op : Op) → Cmd (Fs nproc) Stop (Res op)
  | .cwd => fun s => (.ok (s.cwd p), s)
  | .setCwd ip => fun s => (.ok (), { s with cwd := update s.cwd p ip })
  | .iget inum => fun s =>
    if 0 < (s.inode inum).ref then (.ok (), s.setInode inum fun i => { i with ref := i.ref + 1 })
    else if NINODE ≤ s.active then stop "iget: no inodes" s
    else (.ok (), s.setInode inum fun i => { i with ref := 1, valid := false })
  | .idup ip => fun s => (.ok (), s.setInode ip fun i => { i with ref := i.ref + 1 })
  | .ilock ip => fun s => if (s.inode ip).ref < 1 then stop "ilock" s else acquiresleep p ip s
  | .load ip => fun s =>
    if (s.inode ip).valid then (.ok (), s)
    else if (s.dinode ip).type = .free then stop "ilock: no type" s
    else (.ok (), s.setInode ip fun i => { i with valid := true })
  | .iunlock ip => fun s =>
    if (s.inode ip).owner ≠ some p ∨ (s.inode ip).ref < 1 then stop "iunlock" s
    else (.ok (), s.setInode ip fun i => { i with owner := none })
  | .iput ip => acquiresleep p ip
  | .unlinked ip => fun s => (.ok ((s.inode ip).valid && (s.dinode ip).nlink = 0), s)
  | .readRef ip => fun s => (.ok (s.inode ip).ref, s)
  | .free ip => fun s =>
    (.ok (), (s.setDinode ip fun d => { d with type := .free, ents := [] }).setInode ip
      fun i => { i with valid := false })
  | .releasesleep ip => fun s => (.ok (), s.setInode ip fun i => { i with owner := none })
  | .decRef ip => fun s => (.ok (), s.setInode ip fun i => { i with ref := i.ref - 1 })
  | .type ip => fun s => (.ok (s.dinode ip).type, s)
  | .nlink ip => fun s => (.ok (s.dinode ip).nlink, s)
  | .addNlink ip n => fun s => (.ok (), s.setDinode ip fun d => { d with nlink := d.nlink + n })
  | .init ip major minor => fun s =>
    (.ok (), s.setDinode ip fun d => { d with major := major, minor := minor, nlink := 1 })
  | .scan dp name => fun s =>
    if (s.dinode dp).type ≠ .dir then stop "dirlookup not DIR" s
    else (.ok (dirScan name (s.dinode dp).ents 0), s)
  | .insert dp name inum => fun s =>
    if MAXENTS < (dirInsert ⟨inum, name⟩ (s.dinode dp).ents).length then stop "dirlink" s
    else (.ok (), s.setDinode dp fun d => { d with ents := dirInsert ⟨inum, name⟩ d.ents })
  | .erase dp off => fun s => (.ok (), s.setDinode dp fun d => { d with ents := d.ents.set off ⟨0, []⟩ })
  | .isdirempty dp => fun s => (.ok (dirEmpty (s.dinode dp).ents), s)
  | .ninodes => fun s => (.ok s.ninodes, s)
  | .ialloc inum t => fun s =>
    if (s.dinode inum).type = .free then
      (.ok true, s.setDinode inum fun _ => { type := t, major := 0, minor := 0, nlink := 0, ents := [] })
    else (.ok false, s)
  | .filealloc => fun s =>
    match (List.finRange NFILE).find? fun f => (s.file f).ref = 0 with
    | some f => (.ok (some f), s.setFile f ⟨1, (s.file f).ip⟩)
    | none => (.ok none, s)
  | .fdalloc f => fun s =>
    match (List.range NOFILE).find? fun fd => s.ofile p fd = none with
    | some fd => (.ok (some fd), s.setOfile p fd (some f))
    | none => (.ok none, s)
  | .setIp f ip => fun s => (.ok (), s.setFile f ⟨(s.file f).ref, some ip⟩)
  | .argfd fd => fun s => (.ok (if fd < NOFILE then s.ofile p fd else none), s)
  | .clearFd fd => fun s => (.ok (), s.setOfile p fd none)
  | .fileclose f => fun s =>
    if (s.file f).ref < 1 then stop "fileclose" s
    else if 1 < (s.file f).ref then (.ok none, s.setFile f ⟨(s.file f).ref - 1, (s.file f).ip⟩)
    else (.ok (s.file f).ip, s.setFile f ⟨0, none⟩)
  | .panic msg => stop msg

end Op

abbrev P := Prog Op Res

/-! ## Inodes (`fs.c`) -/

def op (a : Op) : P (Res a) := Prog.lift a

def panic {α : Type} (msg : String) : P α := op (.panic msg) >>= fun e => nomatch e

def expect (ok : Bool) (msg : String) : P Unit := if ok then pure () else panic msg

def ilock (ip : Nat) : P Unit := do
  op (.ilock ip)
  op (.load ip)

def iunlock (ip : Nat) : P Unit := op (.iunlock ip)

/-- The part of `iput` that frees an inode without links. -/
def freeUnlinked (ip : Nat) : P Unit := do
  let r ← op (.readRef ip)
  if r = 1 then op (.free ip) else pure ()

def iput (ip : Nat) : P Unit := do
  op (.iput ip)
  let unlinked ← op (.unlinked ip)
  (if unlinked then freeUnlinked ip else pure ())
  op (.releasesleep ip)
  op (.decRef ip)

def iunlockput (ip : Nat) : P Unit := do
  iunlock ip
  iput ip

def iallocFrom (type : FileType) : Nat → Nat → P Nat
  | 0, _ => panic "ialloc: no inodes"
  | n + 1, inum => do
    let free ← op (.ialloc inum type)
    if free then do op (.iget inum); pure inum else iallocFrom type n (inum + 1)

def ialloc (type : FileType) : P Nat := do
  let ninodes ← op .ninodes
  iallocFrom type (ninodes - 1) 1

/-! ## Directories and paths (`fs.c`) -/

/-- Returns the inode and the offset of the entry. -/
def dirlookup (dp : Nat) (name : Name) : P (Option (Nat × Nat)) := do
  let found ← op (.scan dp name)
  match found with
  | none => pure none
  | some (inum, off) => do op (.iget inum); pure (some (inum, off))

/-- `false` for -1. -/
def dirlink (dp : Nat) (name : Name) (inum : Nat) : P Bool := do
  let found ← dirlookup dp name
  match found with
  | some (ip, _) => do iput ip; pure false
  | none => do op (.insert dp name inum); pure true

/-- The next path element, and the path after it without leading slashes. -/
def skipelem (path : List Char) : Option (Name × List Char) :=
  match path.dropWhile (· = '/') with
  | [] => none
  | s => some ((s.takeWhile (· ≠ '/')).take DIRSIZ, (s.dropWhile (· ≠ '/')).dropWhile (· = '/'))

def elemsFrom : Nat → List Char → List Name
  | 0, _ => []
  | n + 1, path =>
    match skipelem path with
    | none => []
    | some (name, rest) => name :: elemsFrom n rest

/-- The names that `skipelem` returns one after the other. -/
def elems (path : List Char) : List Name := elemsFrom path.length path

theorem skipelem_length (path : List Char) (name : Name) (rest : List Char) (h : skipelem path = some (name, rest)) :
    rest.length < path.length := by
  have hdrop := (List.dropWhile_sublist (l := path) (· = '/')).length_le
  unfold skipelem at h
  rcases hs : path.dropWhile (· = '/') with _ | ⟨c, s⟩ <;> rw [hs] at h hdrop
  · cases h
  · have hc : c ≠ '/' := by
      have := List.head_dropWhile_not (l := path) (· = '/') (by rw [hs]; simp)
      simpa [hs] using this
    simp only [Option.some.injEq, Prod.mk.injEq] at h
    have h1 := (List.dropWhile_sublist (l := s.dropWhile (· ≠ '/')) (· = '/')).length_le
    have h2 := (List.dropWhile_sublist (l := s) (· ≠ '/')).length_le
    rw [← h.2, List.dropWhile_cons_of_pos (by simpa using hc)]
    simp only [List.length_cons] at hdrop
    omega

theorem elemsFrom_eq (n m : Nat) (path : List Char) (hn : path.length ≤ n) (hm : path.length ≤ m) :
    elemsFrom n path = elemsFrom m path := by
  have hnil : ∀ k, elemsFrom k [] = [] := by
    intro k
    rcases k with _ | k <;> rfl
  induction n generalizing m path with
  | zero =>
    obtain rfl := List.length_eq_zero_iff.mp (Nat.le_zero.mp hn)
    rw [hnil, hnil]
  | succ n ih =>
    rcases m with _ | m
    · obtain rfl := List.length_eq_zero_iff.mp (Nat.le_zero.mp hm)
      rw [hnil, hnil]
    unfold elemsFrom
    rcases hs : skipelem path with _ | ⟨name, rest⟩
    · rfl
    · have := skipelem_length path name rest hs
      dsimp only
      rw [ih m rest (by omega) (by omega)]

theorem elems_eq (path : List Char) :
    elems path = match skipelem path with
      | none => []
      | some (name, rest) => name :: elems rest := by
  rw [show elems path = elemsFrom (path.length + 1) path from elemsFrom_eq _ _ path (by omega) (by omega), elemsFrom]
  rcases hs : skipelem path with _ | ⟨name, rest⟩
  · rfl
  · have := skipelem_length path name rest hs
    exact congrArg (name :: ·) (elemsFrom_eq _ _ rest (by omega) (by omega))

theorem elems_rest (path : List Char) (name : Name) (rest : List Char) (h : skipelem path = some (name, rest)) :
    elems rest = [] ↔ rest = [] := by
  have hhead : rest.dropWhile (· = '/') = rest := by
    unfold skipelem at h
    split at h
    · cases h
    · simp only [Option.some.injEq, Prod.mk.injEq] at h
      rw [← h.2]
      exact List.dropWhile_idempotent _ _
  rw [elems_eq]
  unfold skipelem
  rw [hhead]
  rcases rest with _ | ⟨c, rest⟩ <;> simp

/-- The loop of `namex`. The path after the last element is empty. -/
def namexFrom (nameiparent : Bool) (ip : Nat) : List Name → P (Option (Nat × Name))
  | [] => if nameiparent then do iput ip; pure none else pure (some (ip, []))
  | name :: rest => do
    ilock ip
    let type ← op (.type ip)
    if type ≠ .dir then do iunlockput ip; pure none
    else if nameiparent ∧ rest = [] then do iunlock ip; pure (some (ip, name))
    else do
      let next ← dirlookup ip name
      match next with
      | none => do iunlockput ip; pure none
      | some (next, _) => do iunlockput ip; namexFrom nameiparent next rest

def startInode (path : List Char) : P Nat :=
  if path.head? = some '/' then do op (.iget ROOTINO); pure ROOTINO
  else do let cwd ← op .cwd; op (.idup cwd); pure cwd

def namex (path : List Char) (nameiparent : Bool) : P (Option (Nat × Name)) := do
  let ip ← startInode path
  namexFrom nameiparent ip (elems path)

def namei (path : List Char) : P (Option Nat) := do
  let r ← namex path false
  pure (r.map (·.1))

def nameiparent (path : List Char) : P (Option (Nat × Name)) := namex path true

/-! ## System calls (`sysfile.c`) -/

/-- Label `bad` of `sys_link`. -/
def linkBad (ip : Nat) : P Int := do
  ilock ip
  op (.addNlink ip (-1))
  iunlockput ip
  pure (-1)

def sys_link (old new : List Char) : P Int := do
  let ip ← namei old
  match ip with
  | none => pure (-1)
  | some ip => do
    ilock ip
    let type ← op (.type ip)
    if type = .dir then do iunlockput ip; pure (-1)
    else do
      op (.addNlink ip 1)
      iunlock ip
      let parent ← nameiparent new
      match parent with
      | none => linkBad ip
      | some (dp, name) => do
        ilock dp
        let ok ← dirlink dp name ip
        if ok then do iunlockput dp; iput ip; pure 0
        else do iunlockput dp; linkBad ip

/-- `ip->type == T_DIR && !isdirempty(ip)` -/
def fullDir (ip : Nat) (type : FileType) : P Bool :=
  if type = .dir then do let empty ← op (.isdirempty ip); pure !empty else pure false

/-- `sys_unlink` from where both inodes are locked and the entry at `off` may go. -/
def unlinkEntry (dp off ip : Nat) (type : FileType) : P Int := do
  op (.erase dp off)
  (if type = .dir then op (.addNlink dp (-1)) else pure ())
  iunlockput dp
  op (.addNlink ip (-1))
  iunlockput ip
  pure 0

def sys_unlink (path : List Char) : P Int := do
  let parent ← nameiparent path
  match parent with
  | none => pure (-1)
  | some (dp, name) => do
    ilock dp
    if name = dot ∨ name = dotdot then do iunlockput dp; pure (-1)
    else do
      let found ← dirlookup dp name
      match found with
      | none => do iunlockput dp; pure (-1)
      | some (ip, off) => do
        ilock ip
        let nlink ← op (.nlink ip)
        expect (1 ≤ nlink) "unlink: nlink < 1"
        let type ← op (.type ip)
        let full ← fullDir ip type
        if full then do iunlockput ip; iunlockput dp; pure (-1)
        else unlinkEntry dp off ip type

/-- The entries `.` and `..` of a new directory. -/
def createDots (dp ip : Nat) : P Unit := do
  op (.addNlink dp 1)
  let ok ← dirlink ip dot ip
  expect ok "create dots"
  let ok ← dirlink ip dotdot dp
  expect ok "create dots"

/-- `create` once the new inode is locked and has its fields. -/
def createEntry (dp : Nat) (name : Name) (ip : Nat) (type : FileType) : P (Option Nat) := do
  (if type = .dir then createDots dp ip else pure ())
  let ok ← dirlink dp name ip
  expect ok "create: dirlink"
  iunlockput dp
  pure (some ip)

/-- Returns the inode locked. -/
def create (path : List Char) (type : FileType) (major minor : Int) : P (Option Nat) := do
  let parent ← nameiparent path
  match parent with
  | none => pure none
  | some (dp, name) => do
    ilock dp
    let found ← dirlookup dp name
    match found with
    | some (ip, _) => do
      iunlockput dp
      ilock ip
      let old ← op (.type ip)
      if type = .file ∧ old = .file then pure (some ip)
      else do iunlockput ip; pure none
    | none => do
      let ip ← ialloc type
      ilock ip
      op (.init ip major minor)
      createEntry dp name ip type

/-- The inode that `sys_open` opens, locked. -/
def openInode (path : List Char) (omode : Nat) : P (Option Nat) :=
  if omode &&& O_CREATE ≠ 0 then create path .file 0 0
  else do
    let ip ← namei path
    match ip with
    | none => pure none
    | some ip => do
      ilock ip
      let type ← op (.type ip)
      if type = .dir ∧ omode ≠ O_RDONLY then do iunlockput ip; pure none
      else pure (some ip)

def fileclose (f : Fin NFILE) : P Unit := do
  let ip ← op (.fileclose f)
  match ip with
  | none => pure ()
  | some ip => iput ip

/-- `sys_open` once it has the locked inode. -/
def openFile (ip : Nat) : P Int := do
  let f ← op .filealloc
  match f with
  | none => do iunlockput ip; pure (-1)
  | some f => do
    let fd ← op (.fdalloc f)
    match fd with
    | none => do fileclose f; iunlockput ip; pure (-1)
    | some fd => do iunlock ip; op (.setIp f ip); pure fd

def sys_open (path : List Char) (omode : Nat) : P Int := do
  let ip ← openInode path omode
  match ip with
  | none => pure (-1)
  | some ip => openFile ip

/-- `sys_mkdir` and `sys_mknod` once `create` has returned. -/
def created (ip : Option Nat) : P Int :=
  match ip with
  | none => pure (-1)
  | some ip => do iunlockput ip; pure 0

def sys_mkdir (path : List Char) : P Int := do
  let ip ← create path .dir 0 0
  created ip

def sys_mknod (path : List Char) (major minor : Int) : P Int := do
  let ip ← create path .dev major minor
  created ip

def sys_chdir (path : List Char) : P Int := do
  let ip ← namei path
  match ip with
  | none => pure (-1)
  | some ip => do
    ilock ip
    let type ← op (.type ip)
    if type ≠ .dir then do iunlockput ip; pure (-1)
    else do
      iunlock ip
      let cwd ← op .cwd
      iput cwd
      op (.setCwd ip)
      pure 0

def sys_close (fd : Nat) : P Int := do
  let f ← op (.argfd fd)
  match f with
  | none => pure (-1)
  | some f => do
    op (.clearFd fd)
    fileclose f
    pure 0

inductive Call where
  | link (old new : List Char)
  | unlink (path : List Char)
  | open (path : List Char) (omode : Nat)
  | mkdir (path : List Char)
  | mknod (path : List Char) (major minor : Int)
  | chdir (path : List Char)
  | close (fd : Nat)
  deriving DecidableEq

def Call.prog : Call → P Int
  | link old new => sys_link old new
  | unlink path => sys_unlink path
  | .open path omode => sys_open path omode
  | mkdir path => sys_mkdir path
  | mknod path major minor => sys_mknod path major minor
  | chdir path => sys_chdir path
  | close fd => sys_close fd

/-- A call by `p` while no other process runs. -/
def Call.run (p : Fin nproc) (c : Call) : Cmd (Fs nproc) Stop Int := Prog.run (Op.perform p) c.prog

end Xv6
