import Mathlib.Data.List.FinRange
import Mathlib.Logic.Function.Basic
import Xv6.Proc.Code

/-!
# Sleep-locks (`sleeplock.c`)

One sleep-lock and any number of processes. A step takes or drops one spinlock, or is what the code
does in between. A process that holds a spinlock has interrupts off and is not preempted. `sched`
hands `ptable.lock` to the scheduler, which drops it or hands it to the process that it picks.
-/

open Lib

namespace Xv6.Sleep

open Procs (ProcState)

/-- The sleep-lock or another address. -/
inductive Chan where
  | lk
  | other (addr : Nat)
  deriving DecidableEq, Repr

/-- Where a process is in `acquiresleep` and `releasesleep`. -/
inductive Pc where
  | out
  /-- `acquire(&lk->lk)` of `acquiresleep`, or the one at the end of `sleep`. -/
  | acquire
  /-- `while (lk->locked)` -/
  | test
  /-- `acquire(&ptable.lock)` in `sleep` -/
  | sleep
  /-- `release(lk)` in `sleep` -/
  | both
  /-- `p->chan = chan; p->state = SLEEPING; sched()` -/
  | doze
  /-- In `sched` under `sleep`. -/
  | asleep
  /-- The end of `acquiresleep`. -/
  | took
  /-- Between `acquiresleep` and `releasesleep`. -/
  | held
  /-- `acquire(&lk->lk)` of `releasesleep` -/
  | release
  /-- `lk->locked = 0; lk->pid = 0` -/
  | clear
  /-- `acquire(&ptable.lock)` in `wakeup` -/
  | wakeup
  /-- `wakeup1(chan)` -/
  | wake
  /-- `release(&ptable.lock)` in `wakeup` -/
  | woke
  /-- The end of `releasesleep`. -/
  | unlock
  deriving DecidableEq, Repr

/-- In `sched` under `yield`, or under a `sleep` on another channel. -/
inductive Parked where
  | no | yield | sleep
  deriving DecidableEq, Repr

inductive Holder (nproc : Nat) where
  | proc (p : Fin nproc)
  | scheduler
  deriving DecidableEq, Repr

/-- `struct sleeplock`. `lk` is the holder of the spinlock in it. -/
structure Sleeplock (nproc : Nat) where
  locked : Bool
  lk : Option (Fin nproc)
  pid : Int
  deriving DecidableEq, Repr

structure Proc where
  state : ProcState
  pid : Int
  chan : Option Chan
  killed : Bool
  pc : Pc
  parked : Parked
  deriving DecidableEq, Repr

structure State (nproc : Nat) where
  lock : Sleeplock nproc
  /-- The holder of `ptable.lock`. -/
  ptable : Option (Holder nproc)
  proc : Fin nproc → Proc

variable {nproc : Nat}

def State.set (s : State nproc) (p : Fin nproc) (f : Proc → Proc) : State nproc :=
  { s with proc := Function.update s.proc p (f (s.proc p)) }

def State.goto (s : State nproc) (p : Fin nproc) (pc : Pc) : State nproc := s.set p fun v => { v with pc := pc }

def wakeup1 (chan : Chan) (v : Proc) : Proc :=
  if v.state = .sleeping ∧ v.chan = some chan then { v with state := .runnable } else v

/-! ## Spinlocks -/

def acquireLk (s : State nproc) (p : Fin nproc) (pc : Pc) : Option (State nproc) :=
  if s.lock.lk = none then some ({ s with lock := { s.lock with lk := some p } }.goto p pc) else none

def releaseLk (s : State nproc) (p : Fin nproc) (pc : Pc) : State nproc :=
  { s with lock := { s.lock with lk := none } }.goto p pc

def acquirePtable (s : State nproc) (p : Fin nproc) (pc : Pc) : Option (State nproc) :=
  if s.ptable = none then some ({ s with ptable := some (.proc p) }.goto p pc) else none

def releasePtable (s : State nproc) (p : Fin nproc) (pc : Pc) : State nproc := { s with ptable := none }.goto p pc

/-- `p` changes its state and calls `sched`. -/
def sched (s : State nproc) (p : Fin nproc) (f : Proc → Proc) : State nproc :=
  { s with ptable := some .scheduler }.set p f

/-! ## Steps -/

/-- The next step of a process that runs and is not in `sched`. -/
def run (s : State nproc) (p : Fin nproc) : Option (State nproc) :=
  match (s.proc p).pc with
  | .out => some (s.goto p .acquire)
  | .acquire => acquireLk s p .test
  | .test =>
    if s.lock.locked then some (s.goto p .sleep)
    else some ({ s with lock := { s.lock with locked := true, pid := (s.proc p).pid } }.goto p .took)
  | .sleep => acquirePtable s p .both
  | .both => some (releaseLk s p .doze)
  | .doze => some (sched s p fun v => { v with chan := some .lk, state := .sleeping, pc := .asleep })
  | .asleep => some ({ s with ptable := none }.set p fun v => { v with chan := none, pc := .acquire })
  | .took => some (releaseLk s p .held)
  | .held => some (s.goto p .release)
  | .release => acquireLk s p .clear
  | .clear => some ({ s with lock := { s.lock with locked := false, pid := 0 } }.goto p .wakeup)
  | .wakeup => acquirePtable s p .wake
  | .wake => some ({ s with proc := fun q => wakeup1 .lk (s.proc q) }.goto p .woke)
  | .woke => some (releasePtable s p .unlock)
  | .unlock => some (releaseLk s p .out)

/-- `sched` has returned in `yield` or in a `sleep` on another channel. -/
def resume (s : State nproc) (p : Fin nproc) : Option (State nproc) :=
  match (s.proc p).parked with
  | .no => run s p
  | .yield => some ({ s with ptable := none }.set p fun v => { v with parked := .no })
  | .sleep => some ({ s with ptable := none }.set p fun v => { v with chan := none, parked := .no })

/-- The process holds no spinlock. -/
def Pc.preemptible : Pc → Bool
  | out | acquire | held | release => true
  | _ => false

/-- A running process outside `sched` may take `ptable.lock`. -/
def CanPark (s : State nproc) (p : Fin nproc) : Prop :=
  (s.proc p).state = .running ∧ (s.proc p).parked = .no ∧ (s.proc p).pc.preemptible = true ∧ s.ptable = none

instance (s : State nproc) (p : Fin nproc) : Decidable (CanPark s p) := inferInstanceAs (Decidable (_ ∧ _))

def kill (s : State nproc) (pid : Int) : State nproc :=
  match (List.finRange nproc).find? fun p => (s.proc p).pid = pid with
  | some p => s.set p fun v => { v with killed := true, state := if v.state = .sleeping then .runnable else v.state }
  | none => s

inductive Act (nproc : Nat) where
  | run (p : Fin nproc)
  | yield (p : Fin nproc)
  | sleep (p : Fin nproc) (addr : Nat)
  | wakeup (addr : Nat)
  | kill (pid : Int)
  /-- The scheduler takes `ptable.lock` or has it, and switches to `p`. -/
  | pick (p : Fin nproc)
  /-- The scheduler drops `ptable.lock`. -/
  | idle

def step (s : State nproc) : Act nproc → Option (State nproc)
  | .run p => if (s.proc p).state = .running then resume s p else none
  | .yield p => if CanPark s p then some (sched s p fun v => { v with state := .runnable, parked := .yield }) else none
  | .sleep p addr =>
    if CanPark s p then
      some (sched s p fun v => { v with chan := some (.other addr), state := .sleeping, parked := .sleep })
    else none
  | .wakeup addr => if s.ptable = none then some { s with proc := fun q => wakeup1 (.other addr) (s.proc q) } else none
  | .kill pid => if s.ptable = none then some (kill s pid) else none
  | .pick p =>
    if (s.proc p).state = .runnable ∧ (s.ptable = none ∨ s.ptable = some .scheduler) then
      some ({ s with ptable := some (.proc p) }.set p fun v => { v with state := .running })
    else none
  | .idle => if s.ptable = some .scheduler then some { s with ptable := none } else none

/-- After `initsleeplock`. No process uses the lock, and each one runs, waits for a CPU or sleeps for another reason. -/
structure Init (s : State nproc) : Prop where
  lock : s.lock = { locked := false, lk := none, pid := 0 }
  ptable : s.ptable = none
  pc : ∀ p, (s.proc p).pc = .out
  state : ∀ p, (s.proc p).state = .running ∧ (s.proc p).parked = .no ∧ (s.proc p).chan = none ∨
    (s.proc p).state = .runnable ∧ (s.proc p).parked ≠ .no ∧ (s.proc p).chan ≠ some .lk ∨
    (s.proc p).state = .sleeping ∧ (s.proc p).parked = .sleep ∧ ∃ addr, (s.proc p).chan = some (.other addr)

def system (nproc : Nat) : System (State nproc) (Act nproc) := ⟨Init, step⟩

end Xv6.Sleep
