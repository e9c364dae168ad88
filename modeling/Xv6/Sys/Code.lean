import Xv6.Blocks.Code

/-!
# System calls with the inode cache and transactions

`fs.c`, `file.c`, `sysfile.c`, `exec.c` and `proc.c` with the entries of `icache`, the copies of inodes in
them, `begin_op` and `end_op`. A call is a program over `Op`. One operation is what the code does under a
spin-lock, or with an inode that the caller has locked or with data of its own process, with nothing in
between that another process could see. The panics of `log_write` are left out.
-/

open Lib Function

namespace Xv6.Sys

open Blocks (Disk Dev FsM T_DIR T_FILE T_DEV)

abbrev Slot := Fin NINODE

def ELF_MAGIC : Nat := 0x464C457F

def ELF_PROG_LOAD : Nat := 1

/-! ## State -/

/-- An entry of `icache`. `lock` is the process with the sleep-lock, `ip` the copy of the inode. -/
structure Entry where
  dev : Nat
  inum : Nat
  ref : Int
  valid : Bool
  lock : Option (Fin NPROC)
  ip : Blocks.Dinode

/-- An entry of `ftable`. `ip` is `none` for type `FD_NONE`; pipes are left out. -/
structure File where
  ref : Nat
  ip : Option Slot
  off : Nat
  readable : Bool
  writable : Bool

/-- `alive` is `RUNNABLE`, `RUNNING` or `SLEEPING`. -/
inductive Procstate where
  | unused | embryo | alive | zombie
  deriving DecidableEq, Repr

structure Proc where
  state : Procstate
  pid : Int
  parent : Option (Fin NPROC)
  cwd : Option Slot
  ofile : Fin NOFILE → Option (Fin NFILE)
  exit_status : Int

/-- `inOp` is history: the process is between `begin_op` and `end_op`. -/
structure Kernel where
  disk : Disk
  outstanding : Int
  inOp : Fin NPROC → Bool
  entry : Slot → Entry
  file : Fin NFILE → File
  proc : Fin NPROC → Proc
  nextpid : Int
  initproc : Fin NPROC

namespace Kernel

def setEntry (s : Kernel) (i : Slot) (f : Entry → Entry) : Kernel :=
  { s with entry := update s.entry i (f (s.entry i)) }

def setFile (s : Kernel) (f : Fin NFILE) (v : File) : Kernel := { s with file := update s.file f v }

def setProc (s : Kernel) (p : Fin NPROC) (f : Proc → Proc) : Kernel :=
  { s with proc := update s.proc p (f (s.proc p)) }

/-- Blocks in the log: `log_write` absorbs a block that is already there. -/
def logged (s : Kernel) : Nat := s.disk.log.dedup.length

end Kernel

/-- `nested` is history: `begin_op` by a process that is in an operation. -/
inductive Stop where
  | panic (msg : String)
  | fs (e : Blocks.Panic)
  | hang
  | null
  | nested
  deriving DecidableEq, Repr

/-! ## Operations -/

inductive Op where
  | begin_op
  | end_op
  | iget (dev inum : Nat)
  /-- `idup(myproc()->cwd)` -/
  | idup
  | readRef (ip : Slot)
  | decRef (ip : Slot)
  /-- `ilock` up to and with `acquiresleep`. -/
  | ilock (ip : Slot)
  | acquiresleep (ip : Slot)
  | iunlock (ip : Slot)
  | releasesleep (ip : Slot)
  /-- `ip->dev` and `ip->inum` -/
  | id (ip : Slot)
  /-- `ip->valid` and the copy. -/
  | fields (ip : Slot)
  | modify (ip : Slot) (f : Blocks.Dinode → Blocks.Dinode)
  /-- `ip->type = 0` -/
  | clearType (ip : Slot)
  /-- `ip->valid = 0` -/
  | invalidate (ip : Slot)
  /-- The rest of `ilock`: read the inode from disk. -/
  | load (ip : Slot)
  | iupdate (ip : Slot)
  | itrunc (ip : Slot)
  | readi (ip : Slot) (off n : Nat)
  | writei (ip : Slot) (off : Nat) (src : List Byte)
  | scan (dp : Slot) (name : Name)
  | insert (dp : Slot) (name : Name) (inum : Nat)
  | erase (dp : Slot) (off : Nat)
  | isdirempty (dp : Slot)
  | ninodes
  /-- One turn of the loop of `ialloc`, `false` when the inode is in use. -/
  | ialloc (inum type : Nat)
  | filealloc
  | fdalloc (f : Fin NFILE)
  | ofile (fd : Fin NOFILE)
  | clearFd (fd : Fin NOFILE)
  | filedup (f : Fin NFILE)
  /-- `fileclose` under `ftable.lock`, with the inode to put. -/
  | fileclose (f : Fin NFILE)
  | file (f : Fin NFILE)
  /-- `f->type = FD_INODE` and the other fields. -/
  | setFile (f : Fin NFILE) (ip : Slot) (readable writable : Bool)
  | addOff (f : Fin NFILE) (n : Nat)
  | myproc
  | initproc
  | cwd
  | setCwd (ip : Option Slot)
  /-- `kalloc` is whether there is memory for the kernel stack. -/
  | allocproc (kalloc : Bool)
  /-- `np->state = UNUSED` -/
  | unalloc (np : Fin NPROC)
  /-- `np->ofile[fd] = f` -/
  | childFd (np : Fin NPROC) (fd : Fin NOFILE) (f : Fin NFILE)
  /-- `np->cwd = ip`, `np->state = RUNNABLE`; no other process reads `np` before. -/
  | start (np : Fin NPROC) (ip : Slot)
  | exit (status : Int)
  | wait
  | panic (msg : String)

abbrev Res : Op → Type
  | .iget _ _ | .idup | .cwd => Slot
  | .readRef _ | .writei _ _ _ | .start _ _ | .wait => Int
  | .id _ => Nat × Nat
  | .fields _ => Bool × Blocks.Dinode
  | .readi _ _ _ => Option (List Byte)
  | .scan _ _ => Option (Nat × Nat)
  | .isdirempty _ | .ialloc _ _ => Bool
  | .ninodes => Nat
  | .filealloc | .ofile _ => Option (Fin NFILE)
  | .fdalloc _ => Option (Fin NOFILE)
  | .fileclose _ => Option Slot
  | .file _ => File
  | .myproc | .initproc => Fin NPROC
  | .allocproc _ => Option (Fin NPROC)
  | .panic _ => Empty
  | _ => Unit

namespace Kernel

def stop {α : Type} (e : Stop) : Cmd Kernel Stop α := Cmd.fail e

/-- `acquiresleep`. A process that runs alone waits forever for a lock that is held. -/
def acquire (p : Fin NPROC) (ip : Slot) : Cmd Kernel Stop Unit := fun s =>
  if (s.entry ip).lock = none then (.ok (), s.setEntry ip fun e => { e with lock := some p }) else (.error .hang, s)

def release (ip : Slot) : Cmd Kernel Stop Unit := Cmd.modify fun s => s.setEntry ip fun e => { e with lock := none }

/-- A function of `fs.c` with the copy of the inode. -/
def onInode {α : Type} (ip : Slot) (f : Nat → Blocks.Dinode → FsM (α × Blocks.Dinode)) : Cmd Kernel Stop α := fun s =>
  match f (s.entry ip).inum (s.entry ip).ip s.disk with
  | (.ok (r, d), disk) => (.ok r, { s with disk := disk }.setEntry ip fun e => { e with ip := d })
  | (.error e, disk) => (.error (.fs e), { s with disk := disk })

def onDisk {α : Type} (f : FsM α) : Cmd Kernel Stop α := fun s =>
  match f s.disk with
  | (.ok r, disk) => (.ok r, { s with disk := disk })
  | (.error e, disk) => (.error (.fs e), { s with disk := disk })

/-- With no result but the copy. -/
def copy (x : FsM Blocks.Dinode) : FsM (Unit × Blocks.Dinode) := do
  let ip ← x
  pure ((), ip)

def begin_op (p : Fin NPROC) : Cmd Kernel Stop Unit := fun s =>
  if s.inOp p then stop .nested s
  else if (LOGSIZE : Int) < s.logged + (s.outstanding + 1) * MAXOPBLOCKS then stop .hang s
  else (.ok (), { s with outstanding := s.outstanding + 1, inOp := update s.inOp p true })

/-- `commit` empties the log. -/
def end_op (p : Fin NPROC) : Cmd Kernel Stop Unit := Cmd.modify fun s =>
  { s with
    outstanding := s.outstanding - 1
    inOp := update s.inOp p false
    disk := if s.outstanding - 1 = 0 then { s.disk with log := [] } else s.disk }

def iget (dev inum : Nat) : Cmd Kernel Stop Slot := fun s =>
  match (List.finRange NINODE).find? fun i => 0 < (s.entry i).ref ∧ (s.entry i).dev = dev ∧ (s.entry i).inum = inum with
  | some i => (.ok i, s.setEntry i fun e => { e with ref := e.ref + 1 })
  | none =>
    match (List.finRange NINODE).find? fun i => (s.entry i).ref = 0 with
    | some i => (.ok i, s.setEntry i fun e => { e with dev := dev, inum := inum, ref := 1, valid := false })
    | none => stop (.panic "iget: no inodes") s

def load (dev : Dev) (ip : Slot) : Cmd Kernel Stop Unit := fun s =>
  if (s.entry ip).valid then (.ok (), s)
  else if (s.disk.dinode dev (s.entry ip).inum).type = 0 then stop (.panic "ilock: no type") s
  else (.ok (), s.setEntry ip fun e => { e with ip := s.disk.dinode dev e.inum, valid := true })

def ialloc (dev : Dev) (inum type : Nat) : FsM Bool := do
  let s ← Cmd.get
  if (s.dinode dev inum).type = 0 then do
    Blocks.putDinode dev inum { Blocks.Dinode.zero with type := type }
    pure true
  else pure false

def fileclose (f : Fin NFILE) : Cmd Kernel Stop (Option Slot) := fun s =>
  if (s.file f).ref < 1 then stop (.panic "fileclose") s
  else if 1 < (s.file f).ref then (.ok none, s.setFile f { s.file f with ref := (s.file f).ref - 1 })
  else (.ok (s.file f).ip, s.setFile f { s.file f with ref := 0, ip := none })

def allocproc (kalloc : Bool) : Cmd Kernel Stop (Option (Fin NPROC)) := fun s =>
  match (List.finRange NPROC).find? fun np => (s.proc np).state = .unused with
  | none => (.ok none, s)
  | some np =>
    let s := { s with nextpid := Int.bmod (s.nextpid + 1) (2 ^ 32) }.setProc np fun q => { q with pid := s.nextpid }
    if kalloc then (.ok (some np), s.setProc np fun q => { q with state := .embryo }) else (.ok none, s)

/-- Children go to `initproc`. -/
def exit (p : Fin NPROC) (status : Int) : Cmd Kernel Stop Unit := Cmd.modify fun s =>
  { s with proc := fun q => if (s.proc q).parent = some p then { s.proc q with parent := some s.initproc }
    else s.proc q }.setProc
    p fun q => { q with state := .zombie, exit_status := status }

def wait (p : Fin NPROC) : Cmd Kernel Stop Int := fun s =>
  match (List.finRange NPROC).find? fun q => (s.proc q).parent = some p ∧ (s.proc q).state = .zombie with
  | some q => (.ok (s.proc q).pid, s.setProc q fun v => { v with pid := 0, parent := none, state := .unused })
  | none => if ∃ q, (s.proc q).parent = some p then stop .hang s else (.ok (-1), s)

end Kernel

open Sys.Kernel (stop acquire release onInode onDisk copy)

def Op.act (dev : Dev) (p : Fin NPROC) : (op : Op) → Cmd Kernel Stop (Res op)
  | .begin_op => Kernel.begin_op p
  | .end_op => Kernel.end_op p
  | .iget dev inum => Kernel.iget dev inum
  | .idup => fun s =>
    match (s.proc p).cwd with
    | some ip => (.ok ip, s.setEntry ip fun e => { e with ref := e.ref + 1 })
    | none => stop .null s
  | .readRef ip => fun s => (.ok (s.entry ip).ref, s)
  | .decRef ip => fun s => (.ok (), s.setEntry ip fun e => { e with ref := e.ref - 1 })
  | .ilock ip => fun s => if (s.entry ip).ref < 1 then stop (.panic "ilock") s else acquire p ip s
  | .acquiresleep ip => acquire p ip
  | .iunlock ip => fun s =>
    if (s.entry ip).lock ≠ some p ∨ (s.entry ip).ref < 1 then stop (.panic "iunlock") s else release ip s
  | .releasesleep ip => release ip
  | .id ip => fun s => (.ok ((s.entry ip).dev, (s.entry ip).inum), s)
  | .fields ip => fun s => (.ok ((s.entry ip).valid, (s.entry ip).ip), s)
  | .modify ip f => fun s => (.ok (), s.setEntry ip fun e => { e with ip := f e.ip })
  | .clearType ip => fun s => (.ok (), s.setEntry ip fun e => { e with ip := { e.ip with type := 0 } })
  | .invalidate ip => fun s => (.ok (), s.setEntry ip fun e => { e with valid := false })
  | .load ip => Kernel.load dev ip
  | .iupdate ip => fun s => onDisk (Blocks.iupdate dev (s.entry ip).inum (s.entry ip).ip) s
  | .itrunc ip => onInode ip fun inum d => copy (Blocks.itrunc dev inum d)
  | .readi ip off n => onInode ip fun _ d => Blocks.readi dev d off n
  | .writei ip off src => onInode ip fun inum d => Blocks.writei dev inum d off src
  | .scan dp name => onInode dp fun _ d => Blocks.scan dev d name
  | .insert dp name i => onInode dp fun inum d => copy (Blocks.insert dev inum d name i)
  | .erase dp off => onInode dp fun inum d => copy (Blocks.erase dev inum d off)
  | .isdirempty dp => onInode dp fun _ d => Blocks.isdirempty dev d
  | .ninodes => fun s => (.ok dev.sb.ninodes, s)
  | .ialloc inum type => onDisk (Kernel.ialloc dev inum type)
  | .filealloc => fun s =>
    match (List.finRange NFILE).find? fun f => (s.file f).ref = 0 with
    | some f => (.ok (some f), s.setFile f { s.file f with ref := 1 })
    | none => (.ok none, s)
  | .fdalloc f => fun s =>
    match (List.finRange NOFILE).find? fun fd => (s.proc p).ofile fd = none with
    | some fd => (.ok (some fd), s.setProc p fun q => { q with ofile := update q.ofile fd (some f) })
    | none => (.ok none, s)
  | .ofile fd => fun s => (.ok ((s.proc p).ofile fd), s)
  | .clearFd fd => fun s => (.ok (), s.setProc p fun q => { q with ofile := update q.ofile fd none })
  | .filedup f => fun s =>
    if (s.file f).ref < 1 then stop (.panic "filedup") s
    else (.ok (), s.setFile f { s.file f with ref := (s.file f).ref + 1 })
  | .fileclose f => Kernel.fileclose f
  | .file f => fun s => (.ok (s.file f), s)
  | .setFile f ip readable writable => fun s =>
    (.ok (), s.setFile f { s.file f with ip := some ip, off := 0, readable := readable, writable := writable })
  | .addOff f n => fun s => (.ok (), s.setFile f { s.file f with off := ((s.file f).off + n) % 2 ^ 32 })
  | .myproc => fun s => (.ok p, s)
  | .initproc => fun s => (.ok s.initproc, s)
  | .cwd => fun s =>
    match (s.proc p).cwd with
    | some ip => (.ok ip, s)
    | none => stop .null s
  | .setCwd ip => fun s => (.ok (), s.setProc p fun q => { q with cwd := ip })
  | .allocproc kalloc => Kernel.allocproc kalloc
  | .unalloc np => fun s => (.ok (), s.setProc np fun q => { q with state := .unused })
  | .childFd np fd f => fun s => (.ok (), s.setProc np fun q => { q with ofile := update q.ofile fd (some f) })
  | .start np ip => fun s =>
    (.ok (s.proc np).pid, s.setProc np fun q => { q with parent := some p, cwd := some ip, state := .alive })
  | .exit status => Kernel.exit p status
  | .wait => Kernel.wait p
  | .panic msg => stop (.panic msg)

/-- Only a living process runs. -/
def Op.perform (dev : Dev) (p : Fin NPROC) (op : Op) : Cmd Kernel Stop (Res op) := fun s =>
  if (s.proc p).state = .alive then op.act dev p s else stop .hang s

abbrev P := Prog Op Res

def op (a : Op) : P (Res a) := Prog.lift a

def panic {α : Type} (msg : String) : P α := op (.panic msg) >>= fun e => nomatch e

def expect (ok : Bool) (msg : String) : P Unit := if ok then pure () else panic msg

/-! ## Inodes (`fs.c`) -/

def ilock (ip : Slot) : P Unit := do
  op (.ilock ip)
  op (.load ip)

def iunlock (ip : Slot) : P Unit := op (.iunlock ip)

def iupdate (ip : Slot) : P Unit := op (.iupdate ip)

/-- The part of `iput` that frees an inode without links. -/
def freeUnlinked (ip : Slot) : P Unit := do
  let r ← op (.readRef ip)
  if r = 1 then do
    op (.itrunc ip)
    op (.clearType ip)
    iupdate ip
    op (.invalidate ip)
  else pure ()

def iput (ip : Slot) : P Unit := do
  op (.acquiresleep ip)
  let (valid, d) ← op (.fields ip)
  (if valid = true ∧ d.nlink = 0 then freeUnlinked ip else pure ())
  op (.releasesleep ip)
  op (.decRef ip)

def iunlockput (ip : Slot) : P Unit := do
  iunlock ip
  iput ip

def iallocFrom (dev type : Nat) : Nat → Nat → P Slot
  | 0, _ => panic "ialloc: no inodes"
  | n + 1, inum => do
    let free ← op (.ialloc inum type)
    if free then op (.iget dev inum) else iallocFrom dev type n (inum + 1)

def ialloc (dev type : Nat) : P Slot := do
  let ninodes ← op .ninodes
  iallocFrom dev type (ninodes - 1) 1

/-! ## Directories and paths (`fs.c`) -/

/-- Returns the inode and the offset of the entry. -/
def dirlookup (dp : Slot) (name : Name) : P (Option (Slot × Nat)) := do
  let found ← op (.scan dp name)
  match found with
  | none => pure none
  | some (inum, off) => do
    let (dev, _) ← op (.id dp)
    let ip ← op (.iget dev inum)
    pure (some (ip, off))

/-- `false` for -1. -/
def dirlink (dp : Slot) (name : Name) (inum : Nat) : P Bool := do
  let found ← dirlookup dp name
  match found with
  | some (ip, _) => do iput ip; pure false
  | none => do op (.insert dp name inum); pure true

/-- The loop of `namex`. The path after the last element is empty. -/
def namexFrom (nameiparent : Bool) (ip : Slot) : List Name → P (Option (Slot × Name))
  | [] => if nameiparent then do iput ip; pure none else pure (some (ip, []))
  | name :: rest => do
    ilock ip
    let (_, d) ← op (.fields ip)
    if d.type ≠ T_DIR then do iunlockput ip; pure none
    else if nameiparent ∧ rest = [] then do iunlock ip; pure (some (ip, name))
    else do
      let next ← dirlookup ip name
      match next with
      | none => do iunlockput ip; pure none
      | some (next, _) => do iunlockput ip; namexFrom nameiparent next rest

def namex (path : List Char) (nameiparent : Bool) : P (Option (Slot × Name)) := do
  let ip ← (if path.head? = some '/' then op (.iget ROOTDEV ROOTINO) else op .idup)
  namexFrom nameiparent ip (elems path)

def namei (path : List Char) : P (Option Slot) := do
  let r ← namex path false
  pure (r.map (·.1))

def nameiparent (path : List Char) : P (Option (Slot × Name)) := namex path true

/-! ## Files (`file.c`) -/

def fileclose (f : Fin NFILE) : P Unit := do
  let ip ← op (.fileclose f)
  match ip with
  | none => pure ()
  | some ip => do
    op .begin_op
    iput ip
    op .end_op

/-- -1 when the bytes cannot be read. -/
def readCount (r : Option (List Byte)) : Int := r.elim (-1) fun bytes => bytes.length

def fileread (f : Fin NFILE) (n : Nat) : P Int := do
  let v ← op (.file f)
  if v.readable = false then pure (-1)
  else
    match v.ip with
    | none => panic "fileread"
    | some ip => do
      ilock ip
      let v ← op (.file f)
      let r ← op (.readi ip v.off n)
      (if 0 < readCount r then op (.addOff f (readCount r).toNat) else pure ())
      iunlock ip
      pure (readCount r)

/-- Bytes that `filewrite` gives to one `writei`. -/
def maxWrite : Nat := (MAXOPBLOCKS - 1 - 1 - 2) / 2 * 512

/-- One turn of the loop of `filewrite`. -/
def writeChunk (f : Fin NFILE) (ip : Slot) (src : List Byte) : P Int := do
  op .begin_op
  ilock ip
  let v ← op (.file f)
  let r ← op (.writei ip v.off src)
  (if 0 < r then op (.addOff f r.toNat) else pure ())
  iunlock ip
  op .end_op
  pure r

/-- The loop of `filewrite`: whether all bytes were written. -/
def writeChunks (f : Fin NFILE) (ip : Slot) : Nat → List Byte → P Bool
  | 0, src => pure (src.isEmpty)
  | fuel + 1, src =>
    if src = [] then pure true
    else do
      let r ← writeChunk f ip (src.take maxWrite)
      if r < 0 then pure false
      else do
        expect (r = (src.take maxWrite).length) "short filewrite"
        writeChunks f ip fuel (src.drop maxWrite)

def filewrite (f : Fin NFILE) (src : List Byte) : P Int := do
  let v ← op (.file f)
  if v.writable = false then pure (-1)
  else
    match v.ip with
    | none => panic "filewrite"
    | some ip => do
      let all ← writeChunks f ip src.length src
      pure (if all then src.length else -1)

/-! ## System calls (`sysfile.c`)

An argument that cannot be fetched is `none`. -/

def argfd (fd : Option Nat) : P (Option (Fin NOFILE × Fin NFILE)) :=
  match fd with
  | none => pure none
  | some fd =>
    if h : fd < NOFILE then do
      let f ← op (.ofile ⟨fd, h⟩)
      pure (f.map (⟨fd, h⟩, ·))
    else pure none

def sys_dup (fd : Option Nat) : P Int := do
  let arg ← argfd fd
  match arg with
  | none => pure (-1)
  | some (_, f) => do
    let fd ← op (.fdalloc f)
    match fd with
    | none => pure (-1)
    | some fd => do op (.filedup f); pure fd.val

/-- `n` is how much fits the buffer of the caller. -/
def sys_read (fd : Option Nat) (n : Option Nat) : P Int := do
  let arg ← argfd fd
  match arg, n with
  | some (_, f), some n => fileread f n
  | _, _ => pure (-1)

def sys_write (fd : Option Nat) (src : Option (List Byte)) : P Int := do
  let arg ← argfd fd
  match arg, src with
  | some (_, f), some src => filewrite f src
  | _, _ => pure (-1)

def sys_close (fd : Option Nat) : P Int := do
  let arg ← argfd fd
  match arg with
  | none => pure (-1)
  | some (fd, f) => do
    op (.clearFd fd)
    fileclose f
    pure 0

/-- `short` arithmetic. -/
def addNlink (n : Int) (d : Blocks.Dinode) : Blocks.Dinode := { d with nlink := ((d.nlink + n) % 2 ^ 16).toNat }

/-- Label `bad` of `sys_link`. -/
def linkBad (ip : Slot) : P Int := do
  ilock ip
  op (.modify ip (addNlink (-1)))
  iupdate ip
  iunlockput ip
  op .end_op
  pure (-1)

/-- `dp->dev != ip->dev || dirlink(dp, name, ip->inum) < 0`, negated. -/
def linkEntry (dp : Slot) (name : Name) (ip : Slot) : P Bool := do
  let (ddev, _) ← op (.id dp)
  let (idev, inum) ← op (.id ip)
  if ddev ≠ idev then pure false else dirlink dp name inum

def sys_link (old new : Option (List Char)) : P Int :=
  match old, new with
  | some old, some new => do
    op .begin_op
    let ip ← namei old
    match ip with
    | none => do op .end_op; pure (-1)
    | some ip => do
      ilock ip
      let (_, d) ← op (.fields ip)
      if d.type = T_DIR then do
        iunlockput ip
        op .end_op
        pure (-1)
      else do
        op (.modify ip (addNlink 1))
        iupdate ip
        iunlock ip
        let parent ← nameiparent new
        match parent with
        | none => linkBad ip
        | some (dp, name) => do
          ilock dp
          let ok ← linkEntry dp name ip
          if ok then do
            iunlockput dp
            iput ip
            op .end_op
            pure 0
          else do
            iunlockput dp
            linkBad ip
  | _, _ => pure (-1)

/-- Label `bad` of `sys_unlink`. -/
def unlinkBad (dp : Slot) : P Int := do
  iunlockput dp
  op .end_op
  pure (-1)

/-- `ip->nlink < 1` for a `short`. -/
def unlinkedShort (nlink : Nat) : Bool := nlink = 0 ∨ 2 ^ 15 ≤ nlink

/-- `ip->type == T_DIR && !isdirempty(ip)` -/
def fullDir (ip : Slot) (type : Nat) : P Bool :=
  if type = T_DIR then do let empty ← op (.isdirempty ip); pure !empty else pure false

/-- `sys_unlink` from where both inodes are locked and the entry at `off` may go. -/
def unlinkEntry (dp : Slot) (off : Nat) (ip : Slot) (type : Nat) : P Int := do
  op (.erase dp off)
  (if type = T_DIR then do op (.modify dp (addNlink (-1))); iupdate dp else pure ())
  iunlockput dp
  op (.modify ip (addNlink (-1)))
  iupdate ip
  iunlockput ip
  op .end_op
  pure 0

def sys_unlink (path : Option (List Char)) : P Int :=
  match path with
  | none => pure (-1)
  | some path => do
    op .begin_op
    let parent ← nameiparent path
    match parent with
    | none => do op .end_op; pure (-1)
    | some (dp, name) => do
      ilock dp
      if name = dot ∨ name = dotdot then unlinkBad dp
      else do
        let found ← dirlookup dp name
        match found with
        | none => unlinkBad dp
        | some (ip, off) => do
          ilock ip
          let (_, d) ← op (.fields ip)
          expect (!unlinkedShort d.nlink) "unlink: nlink < 1"
          let full ← fullDir ip d.type
          if full then do
            iunlockput ip
            unlinkBad dp
          else unlinkEntry dp off ip d.type

/-- The entries `.` and `..` of a new directory. -/
def createDots (dp ip : Slot) : P Unit := do
  op (.modify dp (addNlink 1))
  iupdate dp
  let (_, inum) ← op (.id ip)
  let ok ← dirlink ip dot inum
  expect ok "create dots"
  let (_, dinum) ← op (.id dp)
  let ok ← dirlink ip dotdot dinum
  expect ok "create dots"

/-- `create` once the new inode is locked and has its fields. -/
def createEntry (dp : Slot) (name : Name) (ip : Slot) (type : Nat) : P (Option Slot) := do
  (if type = T_DIR then createDots dp ip else pure ())
  let (_, inum) ← op (.id ip)
  let ok ← dirlink dp name inum
  expect ok "create: dirlink"
  iunlockput dp
  pure (some ip)

/-- The fields of a new inode. -/
def initInode (major minor : Nat) (d : Blocks.Dinode) : Blocks.Dinode :=
  { d with major := major % 2 ^ 16, minor := minor % 2 ^ 16, nlink := 1 }

/-- Returns the inode locked. -/
def create (path : List Char) (type major minor : Nat) : P (Option Slot) := do
  let parent ← nameiparent path
  match parent with
  | none => pure none
  | some (dp, name) => do
    ilock dp
    let found ← dirlookup dp name
    match found with
    | some (ip, _) => do
      iunlockput dp
      ilock ip
      let (_, d) ← op (.fields ip)
      if type = T_FILE ∧ d.type = T_FILE then pure (some ip)
      else do iunlockput ip; pure none
    | none => do
      let (dev, _) ← op (.id dp)
      let ip ← ialloc dev type
      ilock ip
      op (.modify ip (initInode major minor))
      iupdate ip
      createEntry dp name ip type

/-- The inode that `sys_open` opens, locked. -/
def openInode (path : List Char) (omode : Nat) : P (Option Slot) :=
  if omode &&& O_CREATE ≠ 0 then create path T_FILE 0 0
  else do
    let ip ← namei path
    match ip with
    | none => pure none
    | some ip => do
      ilock ip
      let (_, d) ← op (.fields ip)
      if d.type = T_DIR ∧ omode ≠ O_RDONLY then do iunlockput ip; pure none
      else pure (some ip)

/-- `sys_open` without a free file or descriptor. -/
def openBad (ip : Slot) : P Int := do
  iunlockput ip
  op .end_op
  pure (-1)

/-- `sys_open` once it has the locked inode. -/
def openFile (ip : Slot) (omode : Nat) : P Int := do
  let f ← op .filealloc
  match f with
  | none => openBad ip
  | some f => do
    let fd ← op (.fdalloc f)
    match fd with
    | none => do fileclose f; openBad ip
    | some fd => do
      iunlock ip
      op .end_op
      op (.setFile f ip (omode &&& O_WRONLY = 0) (omode &&& O_WRONLY ≠ 0 ∨ omode &&& O_RDWR ≠ 0))
      pure fd.val

def sys_open (path : Option (List Char)) (omode : Option Nat) : P Int :=
  match path, omode with
  | some path, some omode => do
    op .begin_op
    let ip ← openInode path omode
    match ip with
    | none => do op .end_op; pure (-1)
    | some ip => openFile ip omode
  | _, _ => pure (-1)

/-- `sys_mkdir` and `sys_mknod` once `create` was tried. -/
def created (ip : Option Slot) : P Int :=
  match ip with
  | none => do op .end_op; pure (-1)
  | some ip => do
    iunlockput ip
    op .end_op
    pure 0

def sys_mkdir (path : Option (List Char)) : P Int := do
  op .begin_op
  match path with
  | none => created none
  | some path => do
    let ip ← create path T_DIR 0 0
    created ip

def sys_mknod (path : Option (List Char)) (major minor : Option Nat) : P Int := do
  op .begin_op
  match path, major, minor with
  | some path, some major, some minor => do
    let ip ← create path T_DEV major minor
    created ip
  | _, _, _ => created none

/-- `sys_chdir` once it has the inode. -/
def chdirTo (ip : Slot) : P Int := do
  ilock ip
  let (_, d) ← op (.fields ip)
  if d.type ≠ T_DIR then do
    iunlockput ip
    op .end_op
    pure (-1)
  else do
    iunlock ip
    let cwd ← op .cwd
    iput cwd
    op .end_op
    op (.setCwd (some ip))
    pure 0

def sys_chdir (path : Option (List Char)) : P Int := do
  op .begin_op
  match path with
  | none => do op .end_op; pure (-1)
  | some path => do
    let ip ← namei path
    match ip with
    | none => do op .end_op; pure (-1)
    | some ip => chdirTo ip

/-! ## Programs (`exec.c`) -/

/-- What the memory functions return in one call of `exec`: `allocuvm` and `copyout` for each of their calls. -/
structure Memory where
  setupkvm : Bool
  allocuvm : Nat → Nat
  copyout : Nat → Bool

/-- The number in `len` bytes from `off` on. -/
def num (bytes : List Byte) (off len : Nat) : Nat := leVal (fun i => bytes.getD (off + i) 0) len

/-- `readi(ip, dst, off, n) != n` gives `none`. -/
def readAll (ip : Slot) (off n : Nat) : P (Option (List Byte)) := do
  let r ← op (.readi ip off n)
  pure (r.filter fun bytes => bytes.length = n)

/-- The loop of `loaduvm` from byte `i` of the segment on. -/
def loaduvm (ip : Slot) (off sz : Nat) : Nat → Nat → P Bool
  | 0, _ => pure true
  | fuel + 1, i =>
    if i < sz then do
      let r ← readAll ip ((off + i) % 2 ^ 32) (min (sz - i) PGSIZE)
      if r = none then pure false else loaduvm ip off sz fuel (i + PGSIZE)
    else pure true

/-- The loop over the program headers: `n` of them are left, `k` is the number of calls of `allocuvm` so far. -/
def loadSegments (mem : Memory) (ip : Slot) : Nat → Nat → Nat → P (Option Nat)
  | 0, _, k => pure (some k)
  | n + 1, off, k => do
    let r ← readAll ip off 32
    match r with
    | none => pure none
    | some ph =>
      if num ph 0 4 ≠ ELF_PROG_LOAD then loadSegments mem ip n ((off + 32) % 2 ^ 32) k
      else if num ph 20 4 < num ph 16 4 then pure none
      else if (num ph 8 4 + num ph 20 4) % 2 ^ 32 < num ph 8 4 then pure none
      else if mem.allocuvm k = 0 then pure none
      else if num ph 8 4 % PGSIZE ≠ 0 then pure none
      else do
        let ok ← loaduvm ip (num ph 4 4) (num ph 16 4) (num ph 16 4) 0
        if ok then loadSegments mem ip n ((off + 32) % 2 ^ 32) (k + 1) else pure none

/-- `exec` with the inode locked, up to the last segment. -/
def loadProgram (mem : Memory) (ip : Slot) : P (Option Nat) := do
  let r ← readAll ip 0 52
  match r with
  | none => pure none
  | some elf =>
    if num elf 0 4 ≠ ELF_MAGIC then pure none
    else if mem.setupkvm = false then pure none
    else loadSegments mem ip (num elf 44 2) (num elf 28 4) 0

/-- The stack with the arguments. -/
def setupStack (mem : Memory) (k : Nat) (argv : List (List Char)) : Bool :=
  mem.allocuvm k ≠ 0 ∧ argv.length ≤ MAXARG ∧ (List.range (argv.length + 1)).all mem.copyout

def exec (mem : Memory) (path : List Char) (argv : List (List Char)) : P Int := do
  op .begin_op
  let ip ← namei path
  match ip with
  | none => do op .end_op; pure (-1)
  | some ip => do
    ilock ip
    let loaded ← loadProgram mem ip
    match loaded with
    | none => do
      iunlockput ip
      op .end_op
      pure (-1)
    | some k => do
      iunlockput ip
      op .end_op
      pure (if setupStack mem k argv then 0 else -1)

/-! ## Processes (`proc.c`) -/

/-- The files of `fork`. -/
def dupFiles (np : Fin NPROC) : List (Fin NOFILE) → P Unit
  | [] => pure ()
  | fd :: fds => do
    let f ← op (.ofile fd)
    (match f with
      | none => pure ()
      | some f => do op (.filedup f); op (.childFd np fd f))
    dupFiles np fds

/-- There is memory for the stack (`kalloc`), and for a copy of the caller's memory (`copyuvm`). -/
def fork (kalloc copyuvm : Bool) : P Int := do
  let np ← op (.allocproc kalloc)
  match np with
  | none => pure (-1)
  | some np =>
    if copyuvm = false then do op (.unalloc np); pure (-1)
    else do
      dupFiles np (List.finRange NOFILE)
      let cwd ← op .idup
      op (.start np cwd)

/-- The files of `exit`. -/
def closeFiles : List (Fin NOFILE) → P Unit
  | [] => pure ()
  | fd :: fds => do
    let f ← op (.ofile fd)
    (match f with
      | none => pure ()
      | some f => do fileclose f; op (.clearFd fd))
    closeFiles fds

def exit2 (status : Int) : P Unit := do
  let curproc ← op .myproc
  let initproc ← op .initproc
  expect (curproc ≠ initproc) "init exiting"
  closeFiles (List.finRange NOFILE)
  op .begin_op
  let cwd ← op .cwd
  iput cwd
  op .end_op
  op (.setCwd none)
  op (.exit status)

def exit : P Unit := exit2 0

def wait : P Int := op .wait

inductive Call where
  | link (old new : Option (List Char))
  | unlink (path : Option (List Char))
  | open (path : Option (List Char)) (omode : Option Nat)
  | mkdir (path : Option (List Char))
  | mknod (path : Option (List Char)) (major minor : Option Nat)
  | chdir (path : Option (List Char))
  | close (fd : Option Nat)
  | dup (fd : Option Nat)
  | read (fd : Option Nat) (n : Option Nat)
  | write (fd : Option Nat) (src : Option (List Byte))
  | exec (mem : Memory) (path : List Char) (argv : List (List Char))
  | fork (kalloc copyuvm : Bool)
  | exit
  | exit2 (status : Int)
  | wait

/-- `exit` and `exit2` do not return; their result stands for the end of the process. -/
def Call.prog : Call → P Int
  | link old new => sys_link old new
  | unlink path => sys_unlink path
  | .open path omode => sys_open path omode
  | mkdir path => sys_mkdir path
  | mknod path major minor => sys_mknod path major minor
  | chdir path => sys_chdir path
  | close fd => sys_close fd
  | dup fd => sys_dup fd
  | read fd n => sys_read fd n
  | write fd src => sys_write fd src
  | exec mem path argv => Sys.exec mem path argv
  | fork kalloc copyuvm => Sys.fork kalloc copyuvm
  | exit => do Sys.exit; pure 0
  | exit2 status => do Sys.exit2 status; pure 0
  | wait => Sys.wait

/-- A call by `p` while no other process runs. -/
def Call.run (dev : Dev) (p : Fin NPROC) (c : Call) : Cmd Kernel Stop Int := Prog.run (Op.perform dev p) c.prog

end Xv6.Sys
