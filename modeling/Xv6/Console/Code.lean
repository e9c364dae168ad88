import Mathlib.Algebra.Group.Nat.Defs
import Mathlib.Logic.Function.Basic
import Xv6.Lib.System

/-!
# Console input (`console.c`)

A step is one run of `consoleintr` with all characters that `getc` has, or what one process does in
`consoleread` from `acquire(&cons.lock)`, or from the end of `sleep`, to the next `release` or
`sleep`. `kill` is a step of its own. The echo on the screen and the process listing of `^P` leave
the input alone and are not modelled.
-/

open Lib Function

namespace Xv6.Console

def INPUT_BUF : Nat := 128

/-- Control-x -/
def C (x : Char) : UInt8 := x.toUInt8 - '@'.toUInt8

def newline : UInt8 := '\n'.toUInt8

/-- `r`, `w` and `e` are `uint`. -/
structure Input where
  buf : Nat → UInt8
  r : Nat
  w : Nat
  e : Nat

namespace Input

/-- `input.e--` -/
def erase (i : Input) : Input := { i with e := (i.e + 2 ^ 32 - 1) % 2 ^ 32 }

/-- `input.buf[(input.e-1) % INPUT_BUF]` -/
def last (i : Input) : UInt8 := i.buf ((i.e + 2 ^ 32 - 1) % 2 ^ 32 % INPUT_BUF)

/-- `input.buf[input.e++ % INPUT_BUF] = c` -/
def store (i : Input) (c : UInt8) : Input :=
  { i with buf := update i.buf (i.e % INPUT_BUF) c, e := (i.e + 1) % 2 ^ 32 }

/-- `input.buf[input.r % INPUT_BUF]` -/
def next (i : Input) : UInt8 := i.buf (i.r % INPUT_BUF)

/-- `input.r++` -/
def skip (i : Input) : Input := { i with r := (i.r + 1) % 2 ^ 32 }

/-- `input.r--` -/
def unskip (i : Input) : Input := { i with r := (i.r + 2 ^ 32 - 1) % 2 ^ 32 }

/-- `k` turns of the loop of `^U`. -/
def killLoop : Nat → Input → Input
  | 0, i => i
  | k + 1, i => if i.e ≠ i.w ∧ i.last ≠ newline then killLoop k i.erase else i

/-- Each turn takes one from `input.e - input.w`, and the loop stops at 0. -/
def kill (i : Input) : Input := killLoop ((i.e + 2 ^ 32 - i.w) % 2 ^ 32) i

end Input

/-- A `consoleread` of `target` bytes that has copied `dst`, with `n` to go. -/
structure Call where
  target : Nat
  n : Nat
  dst : List UInt8
  deriving DecidableEq, Repr

inductive Event (nproc : Nat) where
  | typed (c : UInt8)
  | delivered (p : Fin nproc) (b : UInt8)
  /-- Return value of `consoleread` with `n`. -/
  | returned (p : Fin nproc) (n : Nat) (v : Int)
  deriving DecidableEq, Repr

/-- `asleep` is on `&input.r`. `log` has the latest event first. -/
structure State (nproc : Nat) where
  input : Input
  call : Fin nproc → Option Call
  asleep : Fin nproc → Bool
  killed : Fin nproc → Bool
  log : List (Event nproc)

variable {nproc : Nat}

namespace State

def wakeup (s : State nproc) : State nproc := { s with asleep := fun _ => false }

def sleep (s : State nproc) (p : Fin nproc) (c : Call) : State nproc :=
  { s with call := update s.call p (some c), asleep := update s.asleep p true }

def ret (s : State nproc) (p : Fin nproc) (n : Nat) (v : Int) : State nproc :=
  { s with call := update s.call p none, log := .returned p n v :: s.log }

def deliver (s : State nproc) (p : Fin nproc) (b : UInt8) : State nproc :=
  { s with input := s.input.skip, log := .delivered p b :: s.log }

/-- The default case of `consoleintr`. -/
def type (s : State nproc) (c : UInt8) : State nproc :=
  if c ≠ 0 ∧ (s.input.e + 2 ^ 32 - s.input.r) % 2 ^ 32 < INPUT_BUF then
    let c := if c = '\r'.toUInt8 then newline else c
    let i := s.input.store c
    if c = newline ∨ c = C 'D' ∨ i.e = (i.r + INPUT_BUF) % 2 ^ 32 then
      ({ s with input := { i with w := i.e } } : State nproc).wakeup
    else { s with input := i }
  else s

/-- One turn of the loop of `consoleintr`. -/
def key (s : State nproc) (c : UInt8) : State nproc :=
  let s : State nproc := { s with log := .typed c :: s.log }
  if c = C 'P' then s
  else if c = C 'U' then { s with input := s.input.kill }
  else if c = C 'H' ∨ c = 0x7f then
    if s.input.e ≠ s.input.w then { s with input := s.input.erase } else s
  else s.type c

end State

def consoleintr (cs : List UInt8) (s : State nproc) : State nproc := cs.foldl State.key s

/-- `consoleread` from the test of its loop on. -/
def consoleread (p : Fin nproc) (target : Nat) : Nat → List UInt8 → State nproc → State nproc
  | 0, _, s => s.ret p target target
  | n + 1, dst, s =>
    if s.input.r = s.input.w then
      if s.killed p then s.ret p target (-1) else s.sleep p ⟨target, n + 1, dst⟩
    else
      let c := s.input.next
      if c = C 'D' then
        let i := if n + 1 < target then s.input.skip.unskip else s.input.skip
        ({ s with input := i } : State nproc).ret p target ((target : Int) - (n + 1 : Nat))
      else if c = newline then (s.deliver p c).ret p target ((target : Int) - n)
      else consoleread p target n (dst ++ [c]) (s.deliver p c)

inductive Act (nproc : Nat) where
  | intr (cs : List UInt8)
  | read (p : Fin nproc) (n : Nat)
  | resume (p : Fin nproc)
  | kill (p : Fin nproc)

def step (s : State nproc) : Act nproc → Option (State nproc)
  | .intr cs => some (consoleintr cs s)
  | .read p n => if s.call p = none then some (consoleread p n n [] s) else none
  | .resume p =>
    match s.call p with
    | some c => if s.asleep p = false then some (consoleread p c.target c.n c.dst s) else none
    | none => none
  | .kill p => some { s with killed := update s.killed p true, asleep := update s.asleep p false }

/-- `input` starts as zeros. -/
structure Init (s : State nproc) : Prop where
  r : s.input.r = 0
  w : s.input.w = 0
  e : s.input.e = 0
  call : ∀ p, s.call p = none
  asleep : ∀ p, s.asleep p = false
  log : s.log = []

def console (nproc : Nat) : System (State nproc) (Act nproc) := ⟨Init, step⟩

end Xv6.Console
