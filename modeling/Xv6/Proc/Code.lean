import Mathlib
import Xv6.Lib.System

/-!
# Processes (`proc.c`)

A step is what one process does under `ptable.lock`, or one write to the table that `fork` makes
without it. A process that `scheduler` picks goes on inside `sleep` with the lock held, so a
process in `wait` scans the table again in the same step. A process may start a call although it
is killed: the flag may be set after `trap` has looked at it. Memory, files and names are left out:
`kalloc` and `copyuvm` may fail at any time, and other kernel code may sleep on channels of its own.
-/

open Lib Function

namespace Xv6.Procs

inductive ProcState where
  | unused | embryo | sleeping | runnable | running | zombie
  deriving DecidableEq, Repr

/-- A `struct proc` or another address. -/
inductive Chan (nproc : Nat) where
  | proc (p : Fin nproc)
  | other (addr : Nat)
  deriving DecidableEq, Repr

structure Proc (nproc : Nat) where
  state : ProcState
  pid : Int
  parent : Option (Fin nproc)
  chan : Option (Chan nproc)
  killed : Bool
  exit_status : Int
  deriving DecidableEq, Repr

/-- `ptable.proc`, with any number of slots for `NPROC`. -/
abbrev Ptable (nproc : Nat) := Fin nproc → Proc nproc

variable {nproc : Nat}

/-! ## The table -/

namespace Ptable

def set (t : Ptable nproc) (p : Fin nproc) (f : Proc nproc → Proc nproc) : Ptable nproc := update t p (f (t p))

def wakeup1 (chan : Chan nproc) (t : Ptable nproc) : Ptable nproc := fun p =>
  if (t p).state = .sleeping ∧ (t p).chan = some chan then { t p with state := .runnable } else t p

/-- `wakeup1(curproc->parent)`. Nobody sleeps on address 0. -/
def wakeupParent (parent : Option (Fin nproc)) (t : Ptable nproc) : Ptable nproc :=
  match parent with
  | some p => t.wakeup1 (.proc p)
  | none => t

/-- One turn of the loop that passes the children of `curproc` to init. -/
def adopt (initproc curproc : Fin nproc) (t : Ptable nproc) (p : Fin nproc) : Ptable nproc :=
  if (t p).parent = some curproc then
    let t := t.set p fun v => { v with parent := some initproc }
    if (t p).state = .zombie then t.wakeup1 (.proc initproc) else t
  else t

/-- `exit` and `exit2` under `ptable.lock`. -/
def exit (initproc curproc : Fin nproc) (status : Int) (t : Ptable nproc) : Ptable nproc :=
  let t := t.wakeupParent (t curproc).parent
  let t := (List.finRange nproc).foldl (adopt initproc curproc) t
  t.set curproc fun v => { v with state := .zombie, exit_status := status }

/-- The first `ZOMBIE` child in the scan of `wait`. -/
def zombieChild (t : Ptable nproc) (curproc : Fin nproc) : Option (Fin nproc) :=
  (List.finRange nproc).find? fun p => (t p).parent = some curproc ∧ (t p).state = .zombie

def havekids (t : Ptable nproc) (curproc : Fin nproc) : Bool :=
  (List.finRange nproc).any fun p => (t p).parent = some curproc

/-- `wait` and `wait2` with a `ZOMBIE` child. -/
def reap (t : Ptable nproc) (p : Fin nproc) : Ptable nproc :=
  t.set p fun v => { v with pid := 0, parent := none, killed := false, state := .unused }

/-- The first slot that `kill` finds. -/
def withPid (t : Ptable nproc) (pid : Int) : Option (Fin nproc) := (List.finRange nproc).find? fun p => (t p).pid = pid

def kill (t : Ptable nproc) (p : Fin nproc) : Ptable nproc :=
  t.set p fun v => { v with killed := true, state := if v.state = .sleeping then .runnable else v.state }

end Ptable

/-! ## Processes -/

/-- How a process ends. -/
inductive Exit where
  | exit
  | exit2 (status : Int)
  deriving DecidableEq, Repr

def Exit.status : Exit → Int
  | exit => 0
  | exit2 s => s

/-- Where a process is outside `ptable.lock`. In `fork` it has a new slot, with or without the copy of its memory.
`idle` is user code and all other kernel code. -/
inductive Pc (nproc : Nat) where
  | idle
  | fork (np : Fin nproc) (copied : Bool)
  | exit (how : Exit)
  | wait (two : Bool)
  deriving DecidableEq, Repr

/-- A slot and the number of processes that have been in it. -/
abbrev Id (nproc : Nat) := Fin nproc × Nat

inductive Event (nproc : Nat) where
  | born (child : Id nproc) (pid : Int) (parent : Id nproc)
  | exited (p : Id nproc) (how : Exit)
  /-- `wait` or `wait2` returns `pid`, and `wait2` stores a status. -/
  | reaped (by_ : Id nproc) (child : Id nproc) (pid : Int) (stored : Option Int)
  | waitFailed (by_ : Id nproc)
  /-- `kill(pid)` returns 0 for a process that was alive or not. -/
  | killed (pid : Int) (p : Id nproc) (alive : Bool)
  | faulted (p : Id nproc)
  deriving DecidableEq, Repr

/-- `life` and `log` are history. The latest event comes first. -/
structure State (nproc : Nat) where
  proc : Ptable nproc
  pc : Fin nproc → Pc nproc
  nextpid : Int
  initproc : Fin nproc
  life : Fin nproc → Nat
  log : List (Event nproc)

namespace State

def id (s : State nproc) (p : Fin nproc) : Id nproc := (p, s.life p)

def setPc (s : State nproc) (p : Fin nproc) (pc : Pc nproc) : State nproc := { s with pc := update s.pc p pc }

def event (s : State nproc) (e : Event nproc) : State nproc := { s with log := e :: s.log }

def onTable (s : State nproc) (f : Ptable nproc → Ptable nproc) : State nproc := { s with proc := f s.proc }

end State

/-- The locked part of `allocproc`, called by `fork`. `nextpid` is an `int` that wraps around. -/
def allocproc (p : Fin nproc) (s : State nproc) : State nproc :=
  match (List.finRange nproc).find? fun np => (s.proc np).state = .unused with
  | none => s
  | some np =>
    let child := (np, s.life np + 1)
    ({ s with proc := s.proc.set np fun v => { v with state := .embryo, pid := s.nextpid }
              nextpid := Int.bmod (s.nextpid + 1) (2 ^ 32)
              life := update s.life np (s.life np + 1)
              pc := update s.pc p (.fork np false) } : State nproc).event (.born child s.nextpid (s.id p))

/-- The scan of `wait` (`two = false`) and `wait2`. -/
def wait (p : Fin nproc) (two : Bool) (s : State nproc) : State nproc :=
  match s.proc.zombieChild p with
  | some q =>
    ((s.onTable fun t => t.reap q).setPc p .idle).event
      (.reaped (s.id p) (s.id q) (s.proc q).pid (if two then some (s.proc q).exit_status else none))
  | none =>
    if s.proc.havekids p = false ∨ (s.proc p).killed then (s.setPc p .idle).event (.waitFailed (s.id p))
    else (s.onTable fun t => t.set p fun v => { v with chan := some (.proc p), state := .sleeping }).setPc p (.wait two)

inductive Act (nproc : Nat) where
  | sched (p : Fin nproc)
  | yield (p : Fin nproc)
  | sleep (p : Fin nproc) (addr : Nat)
  | wakeup (addr : Nat)
  | fork (p : Fin nproc)
  | forkFail (p : Fin nproc)
  | forkCopy (p : Fin nproc)
  | forkRun (p : Fin nproc)
  | exit (p : Fin nproc) (how : Exit)
  | exitLocked (p : Fin nproc)
  | wait (p : Fin nproc) (two : Bool)
  | kill (pid : Int)
  | fault (p : Fin nproc)

/-- `scheduler` picks `p`. -/
def sched (p : Fin nproc) (s : State nproc) : State nproc :=
  let s := s.onTable fun t => t.set p fun v => { v with state := .running, chan := none }
  match s.pc p with
  | .wait two => wait p two s
  | _ => s

def kill (pid : Int) (s : State nproc) : State nproc :=
  match s.proc.withPid pid with
  | some p => (s.onTable fun t => t.kill p).event (.killed pid (s.id p) ((s.proc p).state ≠ .unused))
  | none => s

def step (s : State nproc) : Act nproc → Option (State nproc)
  | .sched p => if (s.proc p).state = .runnable then some (sched p s) else none
  | .yield p =>
    if (s.proc p).state = .running then some (s.onTable fun t => t.set p fun v => { v with state := .runnable })
      else none
  | .sleep p addr =>
    if (s.proc p).state = .running then
      some (s.onTable fun t => t.set p fun v => { v with state := .sleeping, chan := some (.other addr) })
    else none
  | .wakeup addr => some (s.onTable (Ptable.wakeup1 (.other addr)))
  | .fork p => if (s.proc p).state = .running ∧ s.pc p = .idle then some (allocproc p s) else none
  | .forkFail p =>
    match s.pc p with
    | .fork np false =>
      if (s.proc p).state = .running then
        some ((s.onTable fun t => t.set np fun v => { v with state := .unused }).setPc p .idle)
      else none
    | _ => none
  | .forkCopy p =>
    match s.pc p with
    | .fork np false =>
      if (s.proc p).state = .running then
        some ((s.onTable fun t => t.set np fun v => { v with parent := some p }).setPc p (.fork np true))
      else none
    | _ => none
  | .forkRun p =>
    match s.pc p with
    | .fork np true =>
      if (s.proc p).state = .running then
        some ({ s with proc := s.proc.set np fun v => { v with state := .runnable }
                       pc := update (update s.pc p .idle) np .idle })
      else none
    | _ => none
  | .exit p how =>
    -- Init panics.
    if (s.proc p).state = .running ∧ s.pc p = .idle ∧ p ≠ s.initproc then some (s.setPc p (.exit how)) else none
  | .exitLocked p =>
    match s.pc p with
    | .exit how =>
      if (s.proc p).state = .running then
        some ((s.onTable (Ptable.exit s.initproc p how.status)).event (.exited (s.id p) how))
      else none
    | _ => none
  | .wait p two => if (s.proc p).state = .running ∧ s.pc p = .idle then some (wait p two s) else none
  | .kill pid => some (kill pid s)
  | .fault p =>
    if (s.proc p).state = .running then
      some ((s.onTable fun t => t.set p fun v => { v with killed := true }).event (.faulted (s.id p)))
    else none

/-- After `userinit`: init is in some slot, and all other slots are as the kernel's zeroed memory has them. -/
structure Init (s : State nproc) : Prop where
  init : s.proc s.initproc =
    { state := .runnable, pid := 1, parent := none, chan := none, killed := false, exit_status := 0 }
  rest : ∀ p, p ≠ s.initproc →
    s.proc p = { state := .unused, pid := 0, parent := none, chan := none, killed := false, exit_status := 0 }
  pc : ∀ p, s.pc p = .idle
  nextpid : s.nextpid = 2
  life : ∀ p, s.life p = 0
  log : s.log = []

def procs (nproc : Nat) : System (State nproc) (Act nproc) := ⟨Init, step⟩

end Xv6.Procs
