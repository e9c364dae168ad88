import Mathlib
import Xv6.Param
import Xv6.Proc.Code

/-!
# The scheduler and the processes on the CPUs (`proc.c`)

Each CPU runs on its scheduler's stack or on the kernel stack of a process, and `swtch` takes it from
one to the other with `ptable.lock` held. A step is one stretch of code between two of: taking the
lock, dropping it, changing a process state, and `swtch`. Of memory only kernel stacks and page
directories are kept. `kalloc` and `copyuvm` may fail at any time. A process may yield, sleep, wake up
others and kill wherever it does not hold the lock.
-/

open Lib Function

namespace Xv6.Sched

open Procs (ProcState Chan Ptable Exit)

/-- Where a process goes on when `sched` returns. `zombie` does not go on. -/
inductive Cont where
  | forkret | yield | sleep | wait (two : Bool) | zombie
  deriving DecidableEq, Repr

/-- What a process takes `ptable.lock` for. -/
inductive Task (nproc : Nat) where
  | yield
  | sleep (addr : Nat)
  | wakeup (addr : Nat)
  | kill (pid : Int)
  | allocproc
  /-- The end of `fork`. -/
  | run (np : Fin nproc)
  | exit (how : Exit)
  | wait (two : Bool)
  deriving DecidableEq, Repr

inductive Stage (nproc : Nat) where
  /-- Without `ptable.lock`. -/
  | free
  | locked (t : Task nproc)
  /-- In `sched`, before `swtch`. -/
  | sched (k : Cont)
  /-- The context is saved. -/
  | parked (k : Cont)
  /-- Back from `swtch`, with the lock. -/
  | resumed (k : Cont)
  /-- Before `release(&ptable.lock)`. -/
  | done
  deriving DecidableEq, Repr

/-- Where a process is outside `ptable.lock`. `idle` is user code and all other kernel code. -/
inductive Pc (nproc : Nat) where
  | idle
  /-- In `allocproc`, before `kalloc`. -/
  | allocated (np : Fin nproc)
  /-- In `fork`, before `copyuvm`. -/
  | stacked (np : Fin nproc)
  /-- In `fork`, after `copyuvm`. -/
  | copied (np : Fin nproc)
  | exit (how : Exit)
  deriving DecidableEq, Repr

/-- Where the scheduler of a CPU is, at entry `i` of the table. -/
inductive SchedPc where
  | idle
  | scan (i : Nat)
  /-- Before `swtch`. -/
  | chosen (i : Nat)
  /-- Its context is saved. -/
  | away (i : Nat)
  /-- Back from `swtch`. -/
  | back (i : Nat)
  deriving DecidableEq, Repr

structure Cpu (nproc : Nat) where
  proc : Option (Fin nproc)
  /-- The process whose kernel stack is in use, `none` for the scheduler's stack. -/
  thread : Option (Fin nproc)
  pc : SchedPc
  deriving DecidableEq, Repr

structure State (ncpu nproc : Nat) where
  /-- The CPU that holds `ptable.lock`. -/
  lock : Option (Fin ncpu)
  cpu : Fin ncpu → Cpu nproc
  proc : Ptable nproc
  kstack : Fin nproc → Option Page
  pgdir : Fin nproc → Option Page
  /-- Pages that are not on the free list. -/
  used : Page → Bool
  stage : Fin nproc → Stage nproc
  pc : Fin nproc → Pc nproc
  nextpid : Int
  initproc : Fin nproc

variable {ncpu nproc : Nat}

namespace State

def setCpu (s : State ncpu nproc) (c : Fin ncpu) (v : Cpu nproc) : State ncpu nproc :=
  { s with cpu := update s.cpu c v }

def setProc (s : State ncpu nproc) (p : Fin nproc) (f : Procs.Proc nproc → Procs.Proc nproc) : State ncpu nproc :=
  { s with proc := s.proc.set p f }

def setStage (s : State ncpu nproc) (p : Fin nproc) (v : Stage nproc) : State ncpu nproc :=
  { s with stage := update s.stage p v }

def setPc (s : State ncpu nproc) (p : Fin nproc) (v : Pc nproc) : State ncpu nproc := { s with pc := update s.pc p v }

/-- `np->kstack = kalloc()` -/
def setKstack (s : State ncpu nproc) (p : Fin nproc) (v : Option Page) : State ncpu nproc :=
  { s with kstack := update s.kstack p v }

def setPgdir (s : State ncpu nproc) (p : Fin nproc) (v : Option Page) : State ncpu nproc :=
  { s with pgdir := update s.pgdir p v }

def kalloc (s : State ncpu nproc) (pg : Page) : State ncpu nproc := { s with used := update s.used pg true }

def kfree (s : State ncpu nproc) (pg : Option Page) : State ncpu nproc :=
  match pg with
  | some pg => { s with used := update s.used pg false }
  | none => s

end State

/-! ## The scheduler -/

/-- `scheduler` on CPU `c`, on its own stack. -/
def scheduler (s : State ncpu nproc) (c : Fin ncpu) : Option (State ncpu nproc) :=
  let v := s.cpu c
  match v.pc with
  | .idle => if s.lock = none then some ({ s with lock := some c }.setCpu c { v with pc := .scan 0 }) else none
  | .scan i =>
    if h : i < nproc then
      if (s.proc ⟨i, h⟩).state = .runnable then
        some ((s.setCpu c { v with proc := some ⟨i, h⟩, pc := .chosen i }).setProc ⟨i, h⟩
          fun p => { p with state := .running })
      else some (s.setCpu c { v with pc := .scan (i + 1) })
    else some ({ s with lock := none }.setCpu c { v with pc := .idle })
  | .chosen i =>
    if h : i < nproc then
      match s.stage ⟨i, h⟩ with
      | .parked k => some ((s.setCpu c { v with thread := some ⟨i, h⟩, pc := .away i }).setStage ⟨i, h⟩ (.resumed k))
      | _ => none
    else none
  | .away _ => none
  | .back i => some (s.setCpu c { v with proc := none, pc := .scan (i + 1) })

/-- A handler calls `wakeup` on the stack of a scheduler that waits with interrupts on. They stay off until it
returns, so that it takes and drops the lock in one step. -/
def handler (s : State ncpu nproc) (c : Fin ncpu) (addr : Nat) : Option (State ncpu nproc) :=
  if (s.cpu c).pc = .idle ∧ s.lock = none then some { s with proc := s.proc.wakeup1 (.other addr) } else none

/-! ## Processes -/

/-- The locked part of `allocproc`. -/
def allocproc (s : State ncpu nproc) (p : Fin nproc) : State ncpu nproc :=
  match (List.finRange nproc).find? fun np => (s.proc np).state = .unused with
  | none => s
  | some np =>
    ({ s with nextpid := Int.bmod (s.nextpid + 1) (2 ^ 32) }.setProc np fun v =>
      { v with state := .embryo, pid := s.nextpid }).setPc p (.allocated np)

/-- The scan of `wait` and `wait2` by the process `curproc` on the stack of `p`. -/
def wait (s : State ncpu nproc) (p curproc : Fin nproc) (two : Bool) : State ncpu nproc :=
  match s.proc.zombieChild curproc with
  | some q =>
    let s := (s.kfree (s.kstack q)).setKstack q none
    let s := s.kfree (s.pgdir q)
    { s with proc := s.proc.reap q }.setStage p .done
  | none =>
    if s.proc.havekids curproc = false ∨ (s.proc curproc).killed then s.setStage p .done
    else (s.setProc curproc fun v => { v with chan := some (.proc curproc), state := .sleeping }).setStage p
      (.sched (.wait two))

/-- What the process `curproc`, on the stack of `p`, does under `ptable.lock`. -/
def Task.perform (s : State ncpu nproc) (p curproc : Fin nproc) : Task nproc → State ncpu nproc
  | .yield => (s.setProc curproc fun v => { v with state := .runnable }).setStage p (.sched .yield)
  | .sleep addr =>
    (s.setProc curproc fun v => { v with chan := some (.other addr), state := .sleeping }).setStage p (.sched .sleep)
  | .wakeup addr => { s with proc := s.proc.wakeup1 (.other addr) }.setStage p .done
  | .kill pid =>
    match s.proc.withPid pid with
    | some q => { s with proc := s.proc.kill q }.setStage p .done
    | none => s.setStage p .done
  | .allocproc => (Sched.allocproc s p).setStage p .done
  | .run np => ((s.setProc np fun v => { v with state := .runnable }).setPc p .idle).setStage p .done
  | .exit how => { s with proc := s.proc.exit s.initproc curproc how.status }.setStage p (.sched .zombie)
  | .wait two => Sched.wait s p curproc two

/-- A process runs with `ptable.lock` held, up to where it drops the lock or leaves the CPU. -/
def locked (s : State ncpu nproc) (c : Fin ncpu) (p : Fin nproc) : Option (State ncpu nproc) :=
  match s.stage p with
  | .free | .parked _ => none
  | .locked t =>
    -- `myproc()`
    match (s.cpu c).proc with
    | some curproc => some (t.perform s p curproc)
    | none => none
  | .sched k =>
    match (s.cpu c).pc with
    | .away i => some ((s.setCpu c { s.cpu c with thread := none, pc := .back i }).setStage p (.parked k))
    | _ => none
  | .resumed k =>
    match k with
    | .forkret | .yield => some (s.setStage p .done)
    | .sleep => some ((s.setProc p fun v => { v with chan := none }).setStage p .done)
    | .wait two => some ((s.setProc p fun v => { v with chan := none }).setStage p (.locked (.wait two)))
    -- `panic("zombie exit")`
    | .zombie => none
  | .done => some ({ s with lock := none }.setStage p .free)

/-- A process at `pc` may take `ptable.lock` for `t`. -/
def Task.allowed : Pc nproc → Task nproc → Bool
  | _, .yield | _, .sleep _ | _, .wakeup _ | _, .kill _ => true
  | .idle, .allocproc | .idle, .wait _ => true
  | .copied np, .run np' => np = np'
  | .exit how, .exit how' => how = how'
  | _, _ => false

inductive Move (nproc : Nat) where
  | acquire (t : Task nproc)
  /-- `kalloc` in `allocproc`. -/
  | kalloc (pg : Option Page)
  /-- `copyuvm` in `fork`, with the page directory. -/
  | copyuvm (pg : Option Page)
  | exit (how : Exit)
  | locked
  /-- An interrupt without a process. In a process its `wakeup` is a `Task`. -/
  | interrupt (addr : Nat)

/-- A page that `kalloc` may return. -/
def State.mayAlloc (s : State ncpu nproc) (pg : Option Page) : Bool := pg.all fun pg => !s.used pg

def process (s : State ncpu nproc) (c : Fin ncpu) (p : Fin nproc) : Move nproc → Option (State ncpu nproc)
  | .locked => locked s c p
  | .interrupt _ => none
  | .acquire t =>
    if s.stage p = .free ∧ t.allowed (s.pc p) = true ∧ s.lock = none then
      some ({ s with lock := some c }.setStage p (.locked t))
    else none
  | .kalloc pg =>
    match s.pc p with
    | .allocated np =>
      if s.stage p = .free ∧ s.mayAlloc pg = true then
        match pg with
        | some pg =>
          -- The new context starts at `forkret`.
          some (((((s.kalloc pg).setKstack np (some pg)).setStage np (.parked .forkret)).setPc np .idle).setPc p
            (.stacked np))
        | none => some (((s.setKstack np none).setProc np fun v => { v with state := .unused }).setPc p .idle)
      else none
    | _ => none
  | .copyuvm pg =>
    match s.pc p with
    | .stacked np =>
      if s.stage p = .free ∧ s.mayAlloc pg = true then
        match pg with
        | some pg => some ((((s.kalloc pg).setPgdir np (some pg)).setProc np fun v => { v with parent := some p }).setPc
            p (.copied np))
        | none =>
          some ((((s.setPgdir np none).kfree (s.kstack np)).setKstack np none).setProc np
            (fun v => { v with state := .unused })
            |>.setPc p .idle)
      else none
    | _ => none
  | .exit how =>
    -- Init panics.
    if s.stage p = .free ∧ s.pc p = .idle ∧ p ≠ s.initproc then some (s.setPc p (.exit how)) else none

/-- CPU `c` takes a step, on the stack that it is on. -/
def step (s : State ncpu nproc) (a : Fin ncpu × Move nproc) : Option (State ncpu nproc) :=
  match (s.cpu a.1).thread, a.2 with
  | none, .interrupt addr => handler s a.1 addr
  | none, _ => scheduler s a.1
  | some p, m => process s a.1 p m

/-- After `userinit`, when all CPUs call `scheduler`. -/
structure Init (s : State ncpu nproc) : Prop where
  lock : s.lock = none
  cpu : ∀ c, s.cpu c = { proc := none, thread := none, pc := .idle }
  init : (s.proc s.initproc).state = .runnable ∧ s.stage s.initproc = .parked .forkret
  pages : ∃ k d, s.kstack s.initproc = some k ∧ s.pgdir s.initproc = some d ∧ k ≠ d ∧ s.used k = true ∧ s.used d = true
  rest : ∀ p, p ≠ s.initproc → (s.proc p).state = .unused ∧ s.kstack p = none
  pc : ∀ p, s.pc p = .idle

def system (ncpu nproc : Nat) : System (State ncpu nproc) (Fin ncpu × Move nproc) := ⟨Init, step⟩

end Xv6.Sched
