import Xv6.Block
import Xv6.Lib.Ring

/-!
# The buffer cache (`bio.c`)

The part of each function that runs under `bcache.lock` is a function on `Bcache`. A pointer
to a buffer is `some i`, a pointer to `bcache.head` is `none`.
-/

open Lib

namespace Xv6

/-- Why the kernel stops. -/
inductive Stop where
  | panic (msg : String)
  /-- A loop that does not end, or a wait for a lock that nobody will release. -/
  | hang
  /-- A write outside an array. What the C code does next is undefined. -/
  | overrun
  deriving DecidableEq, Repr

structure Sleeplock where
  locked : Bool
  pid : Nat
  deriving DecidableEq, Repr

structure Buf where
  /-- `B_VALID`: the buffer has been read from disk. -/
  valid : Bool
  /-- `B_DIRTY`: the buffer needs to be written to disk. -/
  dirty : Bool
  dev : Nat
  blockno : Nat
  lock : Sleeplock
  refcnt : Nat
  data : Block

structure Bcache where
  buf : Fin NBUF → Buf
  links : Links (Fin NBUF)

namespace Bcache

def setBuf (c : Bcache) (i : Fin NBUF) (f : Buf → Buf) : Bcache :=
  { c with buf := Function.update c.buf i (f (c.buf i)) }

/-- All of `bcache` before `binit`. -/
def boot : Bcache where
  buf _ := { valid := false, dirty := false, dev := 0, blockno := 0, lock := ⟨false, 0⟩, refcnt := 0,
             data := Block.zero }
  links := { next := fun _ => none, prev := fun _ => none }

def binit (c : Bcache) : Bcache :=
  let l := (c.links.setPrev none none).setNext none none
  { buf := fun i => { c.buf i with lock := ⟨false, 0⟩ }
    links := (List.finRange NBUF).foldl (fun l i => l.pushFront (some i)) l }

def isBlock (c : Bcache) (dev blockno : Nat) (i : Fin NBUF) : Bool :=
  (c.buf i).dev == dev && (c.buf i).blockno == blockno

/-- Even if `refcnt == 0`, `B_DIRTY` indicates a buffer is in use. -/
def isUnused (c : Bcache) (i : Fin NBUF) : Bool := (c.buf i).refcnt == 0 && !(c.buf i).dirty

/-- `bget` up to its `release(&bcache.lock)`. -/
def bgetSection (c : Bcache) (dev blockno : Nat) : Except Stop (Fin NBUF × Bcache) :=
  -- Is the block already cached?
  match scan c.links.next (c.isBlock dev blockno) (NBUF + 1) (c.links.next none) with
  | none => .error .hang
  | some (some i) => .ok (i, c.setBuf i fun b => { b with refcnt := b.refcnt + 1 })
  | some none =>
    -- Not cached; recycle an unused buffer.
    match scan c.links.prev c.isUnused (NBUF + 1) (c.links.prev none) with
    | none => .error .hang
    | some (some i) =>
      .ok (i, c.setBuf i fun b =>
        { b with dev := dev, blockno := blockno, valid := false, dirty := false, refcnt := 1 })
    | some none => .error (.panic "bget: no buffers")

/-- `brelse` after its `releasesleep`. -/
def brelseSection (c : Bcache) (i : Fin NBUF) : Bcache :=
  let c := c.setBuf i fun b => { b with refcnt := b.refcnt - 1 }
  if (c.buf i).refcnt = 0 then { c with links := (c.links.unlink (some i)).pushFront (some i) } else c

def acquiresleep (c : Bcache) (pid : Nat) (i : Fin NBUF) : Option Bcache :=
  if (c.buf i).lock.locked then none else some (c.setBuf i fun b => { b with lock := ⟨true, pid⟩ })

def releasesleep (c : Bcache) (i : Fin NBUF) : Bcache :=
  c.setBuf i fun b => { b with lock := ⟨false, 0⟩ }

def holdingsleep (c : Bcache) (pid : Nat) (i : Fin NBUF) : Bool :=
  (c.buf i).lock.locked && (c.buf i).lock.pid == pid

end Bcache

end Xv6
