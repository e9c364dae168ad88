import Mathlib
import Xv6.Lib.Cmd
import Xv6.Param
import Xv6.Pipe.Code
import Xv6.Proc.Table

/-!
# Open files (`file.c`, `pipe.c`, `sysfile.c`, `proc.c`)

The file table, the descriptors of all processes and the pages that hold pipes. A step is one system
call. What it meets elsewhere is in its label: arguments that cannot be fetched, the inode that `open`
finds or creates, and whether there is memory. Inodes and the log are left out.
-/

open Lib Function

namespace Xv6.Files

open Procs (Ptable Exit)
open Pipes (Pipe)

/-- `FD_NONE`, `FD_PIPE` and `FD_INODE`. -/
inductive FdType where
  | none | pipe | inode
  deriving DecidableEq, Repr

structure File where
  type : FdType
  ref : Nat
  readable : Bool
  writable : Bool
  pipe : Page
  ip : Nat
  off : Nat
  deriving DecidableEq, Repr

/-- What happens to pages that hold pipes. -/
inductive Event where
  | kalloc (pg : Page)
  | kfree (pg : Page)
  deriving DecidableEq, Repr

/-- The page holds a pipe. The latest event comes first. -/
def inUse (pg : Page) : List Event → Bool
  | [] => false
  | .kalloc q :: l => if q = pg then true else inUse pg l
  | .kfree q :: l => if q = pg then false else inUse pg l

/-- `heap` is history. -/
structure State (nfile nofile nproc : Nat) where
  file : Fin nfile → File
  ofile : Fin nproc → Fin nofile → Option (Fin nfile)
  pipe : Page → Pipe
  heap : List Event
  proc : Ptable nproc
  nextpid : Int
  initproc : Fin nproc

inductive Panic where
  | filedup | fileclose | initExiting
  deriving DecidableEq, Repr

variable {nfile nofile nproc : Nat}

namespace State

def setFile (s : State nfile nofile nproc) (f : Fin nfile) (v : File) : State nfile nofile nproc :=
  { s with file := update s.file f v }

def setOfile (s : State nfile nofile nproc) (p : Fin nproc) (fd : Fin nofile) (v : Option (Fin nfile)) :
    State nfile nofile nproc :=
  { s with ofile := update s.ofile p (update (s.ofile p) fd v) }

def setPipe (s : State nfile nofile nproc) (pg : Page) (v : Pipe) : State nfile nofile nproc :=
  { s with pipe := update s.pipe pg v }

def setProc (s : State nfile nofile nproc) (p : Fin nproc) (f : Procs.Proc nproc → Procs.Proc nproc) :
    State nfile nofile nproc :=
  { s with proc := s.proc.set p f }

/-- The page is filled with ones, so both ends read as open. -/
def kfree (s : State nfile nofile nproc) (pg : Page) : State nfile nofile nproc :=
  { s with heap := .kfree pg :: s.heap
           pipe := update s.pipe pg
             { data := fun _ => 1, nread := 0x01010101, nwrite := 0x01010101, readopen := true, writeopen := true } }

end State

abbrev M (nfile nofile nproc : Nat) := Cmd (State nfile nofile nproc) Panic

open Cmd (get modify fail forEach)

/-! ## Files -/

def filealloc : M nfile nofile nproc (Option (Fin nfile)) := do
  let s ← get
  match (List.finRange nfile).find? fun f => (s.file f).ref = 0 with
  | some f => do modify (·.setFile f { s.file f with ref := 1 }); pure (some f)
  | none => pure none

def filedup (f : Fin nfile) : M nfile nofile nproc Unit := do
  let s ← get
  if (s.file f).ref < 1 then fail .filedup
  else modify (·.setFile f { s.file f with ref := (s.file f).ref + 1 })

def pipeclose (pg : Page) (writable : Bool) : M nfile nofile nproc Unit := do
  let s ← get
  let p := if writable then { s.pipe pg with writeopen := false } else { s.pipe pg with readopen := false }
  modify (·.setPipe pg p)
  if p.readopen = false ∧ p.writeopen = false then modify (·.kfree pg) else pure ()

def fileclose (f : Fin nfile) : M nfile nofile nproc Unit := do
  let s ← get
  let ff := s.file f
  if ff.ref < 1 then fail .fileclose
  else if ff.ref - 1 > 0 then modify (·.setFile f { ff with ref := ff.ref - 1 })
  else do
    modify (·.setFile f { ff with ref := 0, type := .none })
    match ff.type with
    | .pipe => pipeclose ff.pipe ff.writable
    -- `begin_op`, `iput` and `end_op`
    | .inode => pure ()
    | .none => pure ()

/-- `mem` is what `kalloc` returns. -/
def pipealloc (mem : Option Page) : M nfile nofile nproc (Option (Fin nfile × Fin nfile)) := do
  match ← filealloc with
  | none => pure none
  | some f0 =>
    match ← filealloc with
    | none => do fileclose f0; pure none
    | some f1 =>
      match mem with
      | none => do fileclose f0; fileclose f1; pure none
      | some pg => do
        modify fun s => { s with heap := .kalloc pg :: s.heap }
        modify fun s => s.setPipe pg { s.pipe pg with readopen := true, writeopen := true, nwrite := 0, nread := 0 }
        modify fun s => s.setFile f0 { s.file f0 with type := .pipe, readable := true, writable := false, pipe := pg }
        modify fun s => s.setFile f1 { s.file f1 with type := .pipe, readable := false, writable := true, pipe := pg }
        pure (some (f0, f1))

/-! ## System calls of process `p` -/

/-- The file of descriptor `fd`. `none` stands for an argument that cannot be fetched. -/
def argfd (p : Fin nproc) (fd : Option Int) : M nfile nofile nproc (Option (Fin nofile × Fin nfile)) := do
  let s ← get
  match fd with
  | none => pure none
  | some fd =>
    if h : 0 ≤ fd ∧ fd < nofile then
      let fd : Fin nofile := ⟨fd.toNat, by omega⟩
      pure ((s.ofile p fd).map fun f => (fd, f))
    else pure none

def fdalloc (p : Fin nproc) (f : Fin nfile) : M nfile nofile nproc (Option (Fin nofile)) := do
  let s ← get
  match (List.finRange nofile).find? fun fd => s.ofile p fd = none with
  | some fd => do modify (·.setOfile p fd (some f)); pure (some fd)
  | none => pure none

def sys_dup (p : Fin nproc) (fd : Option Int) : M nfile nofile nproc Int := do
  match ← argfd p fd with
  | none => pure (-1)
  | some (_, f) =>
    match ← fdalloc p f with
    | none => pure (-1)
    | some fd => do filedup f; pure fd.val

def sys_close (p : Fin nproc) (fd : Option Int) : M nfile nofile nproc Int := do
  match ← argfd p fd with
  | none => pure (-1)
  | some (fd, f) => do
    modify (·.setOfile p fd none)
    fileclose f
    pure 0

/-- What `create` or `namei` gives to `open`. -/
structure Found where
  ip : Nat
  /-- `ip->type == T_DIR`, without `O_CREATE`. -/
  dir : Bool

/-- `omode` is `none` when an argument cannot be fetched. -/
def sys_open (p : Fin nproc) (omode : Option Nat) (found : Option Found) : M nfile nofile nproc Int := do
  match omode, found with
  | none, _ => pure (-1)
  | _, none => pure (-1)
  | some omode, some ip =>
    if ip.dir = true ∧ omode ≠ O_RDONLY then pure (-1)
    else
      match ← filealloc with
      | none => pure (-1)
      | some f =>
        match ← fdalloc p f with
        | none => do fileclose f; pure (-1)
        | some fd => do
          modify fun s => s.setFile f
            { s.file f with type := .inode, ip := ip.ip, off := 0, readable := omode &&& O_WRONLY = 0,
                            writable := omode &&& O_WRONLY ≠ 0 ∨ omode &&& O_RDWR ≠ 0 }
          pure fd.val

/-- `ok` is false when `argptr` fails. -/
def sys_pipe (p : Fin nproc) (ok : Bool) (mem : Option Page) : M nfile nofile nproc Int := do
  if ok = false then pure (-1)
  else
    match ← pipealloc mem with
    | none => pure (-1)
    | some (rf, wf) =>
      match ← fdalloc p rf with
      | none => do fileclose rf; fileclose wf; pure (-1)
      | some fd0 =>
        match ← fdalloc p wf with
        | none => do
          modify (·.setOfile p fd0 none)
          fileclose rf
          fileclose wf
          pure (-1)
        | some _ => pure 0

/-- `stack` and `mem` say whether `kalloc` in `allocproc` and `copyuvm` succeed. -/
def fork (p : Fin nproc) (stack mem : Bool) : M nfile nofile nproc Int := do
  let s ← get
  match (List.finRange nproc).find? fun np => (s.proc np).state = .unused with
  | none => pure (-1)
  | some np => do
    modify fun s =>
      { s with nextpid := Int.bmod (s.nextpid + 1) (2 ^ 32) }.setProc np fun v =>
      { v with state := .embryo, pid := s.nextpid }
    if stack = false ∨ mem = false then do
      modify (·.setProc np fun v => { v with state := .unused })
      pure (-1)
    else do
      modify (·.setProc np fun v => { v with parent := some p })
      forEach (fun i => do
        let s ← get
        match s.ofile p i with
        | some f => do filedup f; modify (·.setOfile np i (some f))
        | none => pure ()) (List.finRange nofile)
      modify (·.setProc np fun v => { v with state := .runnable })
      pure s.nextpid

/-- One turn of the loop of `exit` and `exit2`. -/
def closeFd (p : Fin nproc) (fd : Fin nofile) : M nfile nofile nproc Unit := do
  let s ← get
  match s.ofile p fd with
  | some f => do fileclose f; modify (·.setOfile p fd none)
  | none => pure ()

/-- `exit` and `exit2`. -/
def exit (p : Fin nproc) (how : Exit) : M nfile nofile nproc Int := do
  let s ← get
  if p = s.initproc then fail .initExiting
  else do
    forEach (closeFd p) (List.finRange nofile)
    modify fun s => { s with proc := s.proc.exit s.initproc p how.status }
    pure 0

/-- `wait` and `wait2` when there is a child to reap. -/
def wait (p : Fin nproc) : M nfile nofile nproc Int := do
  let s ← get
  match s.proc.zombieChild p with
  | some q => do modify fun s => { s with proc := s.proc.reap q }; pure (s.proc q).pid
  | none => pure (-1)

inductive Call where
  | open (omode : Option Nat) (found : Option Found)
  | pipe (ok : Bool) (mem : Option Page)
  | dup (fd : Option Int)
  | close (fd : Option Int)
  | fork (stack mem : Bool)
  | exit (how : Exit)
  | wait

def Call.body (p : Fin nproc) : Call → M nfile nofile nproc Int
  | .open omode found => sys_open p omode found
  | .pipe ok mem => sys_pipe p ok mem
  | .dup fd => sys_dup p fd
  | .close fd => sys_close p fd
  | .fork stack mem => Files.fork p stack mem
  | .exit how => Files.exit p how
  | .wait => Files.wait p

/-- `p` may make the call, and `kalloc` returns no page that holds a pipe. -/
def enabled (s : State nfile nofile nproc) (p : Fin nproc) (c : Call) : Bool :=
  (s.proc p).state.live && match c with
    | .pipe _ (some pg) => !inUse pg s.heap
    | _ => true

/-- A call that panics stops the system. -/
def step (s : State nfile nofile nproc) (a : Fin nproc × Call) : Option (State nfile nofile nproc) :=
  if enabled s a.1 a.2 = true then
    match a.2.body a.1 s with
    | (.ok _, s') => some s'
    | (.error _, _) => none
  else none

/-- After `userinit`: static memory is zero. -/
structure Init (s : State nfile nofile nproc) : Prop where
  file : ∀ f, (s.file f).ref = 0 ∧ (s.file f).type = .none
  ofile : ∀ p fd, s.ofile p fd = none
  heap : s.heap = []

def system (nfile nofile nproc : Nat) : System (State nfile nofile nproc) (Fin nproc × Call) := ⟨Init, step⟩

end Xv6.Files
