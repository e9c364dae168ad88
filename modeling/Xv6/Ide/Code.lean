import Mathlib.Algebra.Group.Nat.Defs
import Mathlib.Logic.Function.Basic
import Xv6.Lib.Chain
import Xv6.Lib.System
import Xv6.Param

/-!
# The disk driver (`ide.c`) and the memory disk (`memide.c`)

A step is what one process does in `iderw` from `acquire(&idelock)`, or from the end of `sleep`, to
the next `release` or `sleep`, one run of `ideintr`, or the end of a command in the controller. The
controller executes each command and raises one interrupt for it. `none` is a panic or a wait that
does not end.
-/

open Lib Function

namespace Xv6.Ide

def SECTOR_SIZE : Nat := 512

def IDE_CMD_READ : Nat := 0x20
def IDE_CMD_WRITE : Nat := 0x30
def IDE_CMD_RDMUL : Nat := 0xc4
def IDE_CMD_WRMUL : Nat := 0xc5

/-- `struct buf` without its links. `Block` is the `BSIZE` bytes of `data`, which are only copied whole. -/
structure Buf (Block : Type) (nproc : Nat) where
  lock : Option (Fin nproc)
  valid : Bool
  dirty : Bool
  dev : Nat
  blockno : Nat
  data : Block

/-- The ports 0x1f2 to 0x1f6, the command under way, the data ports, and the disks. -/
structure Controller (Block : Type) where
  nsect : Nat
  lba0 : Nat
  lba1 : Nat
  lba2 : Nat
  device : Nat
  cmd : Option Nat
  irq : Bool
  out : Block
  inp : Block
  disk : Nat → Nat → Block

inductive Event (Block : Type) (nproc nbuf : Nat) where
  | edited (b : Fin nbuf) (x : Buf Block nproc)
  | queued (p : Fin nproc) (b : Fin nbuf)
  | started (b : Fin nbuf)
  | completed (b : Fin nbuf)
  /-- `iderw` returned with these `B_VALID` and `B_DIRTY`. -/
  | returned (p : Fin nproc) (b : Fin nbuf) (valid dirty : Bool)

/-- `link none` is `idequeue`, `link (some b)` is `b->qnext`. A process sleeps on its buffer. `log` has the latest
event first. -/
structure State (Block : Type) (nproc nbuf : Nat) where
  havedisk1 : Bool
  buf : Fin nbuf → Buf Block nproc
  link : Option (Fin nbuf) → Option (Fin nbuf)
  ide : Controller Block
  call : Fin nproc → Option (Fin nbuf)
  asleep : Fin nproc → Bool
  log : List (Event Block nproc nbuf)

variable {Block : Type} {nproc nbuf : Nat}

namespace Controller

def sector (c : Controller Block) : Nat := c.lba0 + c.lba1 * 2 ^ 8 + c.lba2 * 2 ^ 16 + c.device % 2 ^ 4 * 2 ^ 24

def drive (c : Controller Block) : Nat := c.device / 2 ^ 4 % 2

/-- The end of a command. -/
def finish (c : Controller Block) : Option (Controller Block) :=
  match c.cmd with
  | none => none
  | some cmd =>
    if cmd = IDE_CMD_READ ∨ cmd = IDE_CMD_RDMUL then
      some { c with cmd := none, irq := true, inp := c.disk c.drive c.sector }
    else
      some { c with
        cmd := none, irq := true
        disk := update c.disk c.drive (update (c.disk c.drive) c.sector c.out) }

end Controller

namespace State

def idestart (b : Fin nbuf) (s : State Block nproc nbuf) : Option (State Block nproc nbuf) :=
  let x := s.buf b
  if FSSIZE ≤ x.blockno then none
  else
    let sector_per_block := BSIZE / SECTOR_SIZE
    let sector := x.blockno * sector_per_block % 2 ^ 32
    let read_cmd := if sector_per_block = 1 then IDE_CMD_READ else IDE_CMD_RDMUL
    let write_cmd := if sector_per_block = 1 then IDE_CMD_WRITE else IDE_CMD_WRMUL
    if 7 < sector_per_block then none
    -- `idewait(0)` waits while a command is under way.
    else if s.ide.cmd.isSome then none
    else
      some { s with
        ide := { s.ide with
          nsect := sector_per_block
          lba0 := sector % 2 ^ 8
          lba1 := sector / 2 ^ 8 % 2 ^ 8
          lba2 := sector / 2 ^ 16 % 2 ^ 8
          device := 0xe0 ||| ((x.dev % 2) * 2 ^ 4) ||| (sector / 2 ^ 24 % 2 ^ 4)
          cmd := some (if x.dirty then write_cmd else read_cmd)
          out := if x.dirty then x.data else s.ide.out }
        log := .started b :: s.log }

def wakeup (b : Fin nbuf) (s : State Block nproc nbuf) : State Block nproc nbuf :=
  { s with asleep := fun q => if s.call q = some b then false else s.asleep q }

/-- The loop of `iderw` around `sleep`. -/
def await (p : Fin nproc) (b : Fin nbuf) (s : State Block nproc nbuf) : State Block nproc nbuf :=
  if (s.buf b).valid = true ∧ (s.buf b).dirty = false then
    { s with call := update s.call p none, log := .returned p b (s.buf b).valid (s.buf b).dirty :: s.log }
  else { s with call := update s.call p (some b), asleep := update s.asleep p true }

def iderw (p : Fin nproc) (b : Fin nbuf) (s : State Block nproc nbuf) : Option (State Block nproc nbuf) :=
  if (s.buf b).lock ≠ some p then none
  else if (s.buf b).valid = true ∧ (s.buf b).dirty = false then none
  else if (s.buf b).dev ≠ 0 ∧ s.havedisk1 = false then none
  else
    let link := update s.link (some b) none
    (seekEnd link (nbuf + 1) none).bind fun pp =>
      let link := update link pp (some b)
      let s : State Block nproc nbuf := { s with link := link, log := .queued p b :: s.log }
      (if s.link none = some b then s.idestart b else some s).map (await p b)

/-- `ideintr`, where `err` is for `IDE_DF` and `IDE_ERR` in the status. -/
def ideintrErr (err : Bool) (s : State Block nproc nbuf) : Option (State Block nproc nbuf) :=
  let s : State Block nproc nbuf := { s with ide := { s.ide with irq := false } }
  match s.link none with
  | none => some s
  | some b =>
    let link := update s.link none (s.link (some b))
    let x := s.buf b
    -- `idewait(1)` waits while a command is under way.
    if x.dirty = false ∧ s.ide.cmd.isSome then none
    else
      let x := { x with
        data := if x.dirty = false ∧ err = false then s.ide.inp else x.data
        valid := true
        dirty := false }
      let s : State Block nproc nbuf :=
        { s with link := link, buf := update s.buf b x, log := .completed b :: s.log }
      let s := s.wakeup b
      match s.link none with
      | none => some s
      | some c => s.idestart c

def ideintr (s : State Block nproc nbuf) : Option (State Block nproc nbuf) := s.ideintrErr false

end State

/-! ## The memory disk -/

structure MemState (Block : Type) (nproc nbuf : Nat) where
  disksize : Nat
  memdisk : Nat → Block
  buf : Fin nbuf → Buf Block nproc

/-- `iderw` of `memide.c`. -/
def MemState.iderw (p : Fin nproc) (b : Fin nbuf) (m : MemState Block nproc nbuf) :
    Option (MemState Block nproc nbuf) :=
  let x := m.buf b
  if x.lock ≠ some p then none
  else if x.valid = true ∧ x.dirty = false then none
  else if x.dev ≠ 1 then none
  else if m.disksize ≤ x.blockno then none
  else if x.dirty then
    some { m with
      memdisk := update m.memdisk x.blockno x.data
      buf := update m.buf b { x with dirty := false, valid := true } }
  else some { m with buf := update m.buf b { x with data := m.memdisk x.blockno, valid := true } }

/-! ## The system -/

/-- `edit` is everything a process does to a buffer it holds the lock of, or may take the lock of, outside of `iderw`.
`wake` is the wakeup of `kill`. -/
inductive Act (Block : Type) (nproc nbuf : Nat) where
  | edit (p : Fin nproc) (b : Fin nbuf) (x : Buf Block nproc)
  | iderw (p : Fin nproc) (b : Fin nbuf)
  | resume (p : Fin nproc)
  | wake (p : Fin nproc)
  | finish
  | intr

def step (s : State Block nproc nbuf) : Act Block nproc nbuf → Option (State Block nproc nbuf)
  | .edit p b x =>
    if s.call p = none ∧ ((s.buf b).lock = none ∨ (s.buf b).lock = some p) ∧ (x.lock = none ∨ x.lock = some p) then
      some { s with buf := update s.buf b x, log := .edited b x :: s.log }
    else none
  | .iderw p b => if s.call p = none then s.iderw p b else none
  | .resume p =>
    match s.call p with
    | some b => if s.asleep p = false then some (s.await p b) else none
    | none => none
  | .wake p => some { s with asleep := update s.asleep p false }
  | .finish => s.ide.finish.map fun c => { s with ide := c }
  | .intr => if s.ide.irq then s.ideintr else none

/-- After `ideinit`. -/
structure Init (s : State Block nproc nbuf) : Prop where
  link : s.link none = none
  cmd : s.ide.cmd = none
  irq : s.ide.irq = false
  call : ∀ p, s.call p = none
  havedisk1 : s.havedisk1 = true
  log : s.log = []

def driver (s₀ : State Block nproc nbuf) : System (State Block nproc nbuf) (Act Block nproc nbuf) := ⟨(· = s₀), step⟩

end Xv6.Ide
