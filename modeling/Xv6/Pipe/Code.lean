import Mathlib
import Xv6.Lib.System

/-!
# Pipes (`pipe.c`)

A step is what one process does from `acquire(&p->lock)`, or from the end of `sleep`, to the next
`release` or `sleep`. `kill` is a step of its own. A pipe with both ends closed is freed, and no
step touches it. A call starts only while its end is open.
-/

open Lib Function

namespace Xv6.Pipes

def PIPESIZE : Nat := 512

/-- `nread` and `nwrite` are `uint`. -/
structure Pipe where
  data : Nat → UInt8
  nread : Nat
  nwrite : Nat
  readopen : Bool
  writeopen : Bool

namespace Pipe

def full (p : Pipe) : Bool := p.nwrite = (p.nread + PIPESIZE) % 2 ^ 32

def empty (p : Pipe) : Bool := p.nread = p.nwrite

/-- `p->data[p->nwrite++ % PIPESIZE] = b` -/
def put (p : Pipe) (b : UInt8) : Pipe :=
  { p with data := update p.data (p.nwrite % PIPESIZE) b, nwrite := (p.nwrite + 1) % 2 ^ 32 }

/-- `p->data[p->nread++ % PIPESIZE]` -/
def get (p : Pipe) : UInt8 × Pipe := (p.data (p.nread % PIPESIZE), { p with nread := (p.nread + 1) % 2 ^ 32 })

end Pipe

/-- The addresses `&p->nread` and `&p->nwrite`. -/
inductive Chan where
  | nread | nwrite
  deriving DecidableEq, Repr

/-- Where a process is inside a call: bytes still to write, or the `n` of `piperead`. -/
inductive Call where
  | write (n : Nat) (rest : List UInt8)
  | read (n : Nat)
  deriving DecidableEq, Repr

inductive Event (nproc : Nat) where
  | stored (p : Fin nproc) (b : UInt8)
  | delivered (p : Fin nproc) (b : UInt8)
  /-- Return values of `pipewrite` and of `piperead` with `n`. -/
  | wrote (p : Fin nproc) (r : Int)
  | got (p : Fin nproc) (n : Nat) (r : Int)
  | closed (writable : Bool)
  deriving DecidableEq, Repr

/-- `log` has the latest event first. -/
structure State (nproc : Nat) where
  pipe : Pipe
  call : Fin nproc → Option Call
  asleep : Fin nproc → Option Chan
  killed : Fin nproc → Bool
  log : List (Event nproc)

variable {nproc : Nat}

namespace State

def wakeup (s : State nproc) (c : Chan) : State nproc :=
  { s with asleep := fun q => if s.asleep q = some c then none else s.asleep q }

def sleep (s : State nproc) (p : Fin nproc) (c : Chan) (call : Call) : State nproc :=
  { s with call := update s.call p (some call), asleep := update s.asleep p (some c) }

def ret (s : State nproc) (p : Fin nproc) (e : Event nproc) : State nproc :=
  { s with call := update s.call p none, log := e :: s.log }

def put (s : State nproc) (p : Fin nproc) (b : UInt8) : State nproc :=
  { s with pipe := s.pipe.put b, log := .stored p b :: s.log }

def get (s : State nproc) (p : Fin nproc) : State nproc :=
  { s with pipe := s.pipe.get.2, log := .delivered p s.pipe.get.1 :: s.log }

end State

/-- `pipewrite` with `rest` of `n` bytes to go. -/
def pipewrite (p : Fin nproc) (n : Nat) : List UInt8 → State nproc → State nproc
  | [], s => (s.wakeup .nread).ret p (.wrote p n)
  | b :: rest, s =>
    if s.pipe.full then
      if s.pipe.readopen = false ∨ s.killed p then s.ret p (.wrote p (-1))
      else (s.wakeup .nread).sleep p .nwrite (.write n (b :: rest))
    else pipewrite p n rest (s.put p b)

/-- The copy loop of `piperead` with `k` turns to go and `i` bytes copied. -/
def readLoop (p : Fin nproc) : Nat → Nat → State nproc → Nat × State nproc
  | 0, i, s => (i, s)
  | k + 1, i, s => if s.pipe.empty then (i, s) else readLoop p k (i + 1) (s.get p)

def piperead (p : Fin nproc) (n : Nat) (s : State nproc) : State nproc :=
  if s.pipe.empty ∧ s.pipe.writeopen then
    if s.killed p then s.ret p (.got p n (-1)) else s.sleep p .nread (.read n)
  else
    let r := readLoop p n 0 s
    (r.2.wakeup .nwrite).ret p (.got p n r.1)

def pipeclose (writable : Bool) (s : State nproc) : State nproc :=
  if writable then
    ({ s with pipe := { s.pipe with writeopen := false }, log := .closed true :: s.log } : State nproc).wakeup .nread
  else ({ s with pipe := { s.pipe with readopen := false }, log := .closed false :: s.log } : State nproc).wakeup
    .nwrite

inductive Act (nproc : Nat) where
  | write (p : Fin nproc) (addr : List UInt8)
  | read (p : Fin nproc) (n : Nat)
  | resume (p : Fin nproc)
  | close (writable : Bool)
  | kill (p : Fin nproc)

def step (s : State nproc) : Act nproc → Option (State nproc)
  | .write p addr => if s.pipe.writeopen ∧ s.call p = none then some (pipewrite p addr.length addr s) else none
  | .read p n => if s.pipe.readopen ∧ s.call p = none then some (piperead p n s) else none
  | .resume p =>
    if s.asleep p = none ∧ (s.pipe.readopen ∨ s.pipe.writeopen) then
      match s.call p with
      | some (.write n rest) => some (pipewrite p n rest s)
      | some (.read n) => some (piperead p n s)
      | none => none
    else none
  | .close writable =>
    if (if writable then s.pipe.writeopen else s.pipe.readopen) then some (pipeclose writable s) else none
  | .kill p => some { s with killed := update s.killed p true, asleep := update s.asleep p none }

/-- After `pipealloc`, in a page with any content. -/
structure Init (s : State nproc) : Prop where
  nread : s.pipe.nread = 0
  nwrite : s.pipe.nwrite = 0
  readopen : s.pipe.readopen = true
  writeopen : s.pipe.writeopen = true
  call : ∀ p, s.call p = none
  asleep : ∀ p, s.asleep p = none
  log : s.log = []

def pipes (nproc : Nat) : System (State nproc) (Act nproc) := ⟨Init, step⟩

end Xv6.Pipes
