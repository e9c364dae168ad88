import Xv6.Bio.Code
import Xv6.Lib.Cmd
import Xv6.Log.Code

/-!
# Buffers and the disk (`bio.c`, `memide.c`), one process

`writes` and `evicted` record what happened and are read by no function.
-/

open Lib

namespace Xv6

/-- A buffer that `bget` took for another block, and what the disk held for its block then. -/
structure Evict where
  old : Buf
  home : Block

structure Kernel where
  bcache : Bcache
  log : Log
  disk : Nat → Block
  disksize : Nat
  /-- `myproc()->pid` -/
  pid : Nat
  /-- Block writes in the order they reach the disk. -/
  writes : List (Nat × Block)
  evicted : List Evict

abbrev M := Cmd Kernel Stop

namespace Kernel

def buf (k : Kernel) (i : Fin NBUF) : Buf := k.bcache.buf i

def setBuf (k : Kernel) (i : Fin NBUF) (f : Buf → Buf) : Kernel := { k with bcache := k.bcache.setBuf i f }

def writeDisk (k : Kernel) (b : Nat) (d : Block) : Kernel :=
  { k with disk := Function.update k.disk b d, writes := k.writes ++ [(b, d)] }

def recordEvict (k : Kernel) (dev blockno : Nat) (i : Fin NBUF) : Kernel :=
  if k.bcache.isBlock dev blockno i then k
  else { k with evicted := k.evicted ++ [⟨k.buf i, k.disk (k.buf i).blockno⟩] }

end Kernel

def acquiresleep (i : Fin NBUF) : M Unit := do
  let k ← Cmd.get
  match k.bcache.acquiresleep k.pid i with
  | some c => Cmd.modify fun k => { k with bcache := c }
  -- The only process that could release the lock is the caller.
  | none => Cmd.fail .hang

def bget (dev blockno : Nat) : M (Fin NBUF) := do
  let k ← Cmd.get
  match k.bcache.bgetSection dev blockno with
  | .ok (i, c) => do
    Cmd.modify fun k => { k.recordEvict dev blockno i with bcache := c }
    acquiresleep i
    pure i
  | .error e => Cmd.fail e

def iderw (i : Fin NBUF) : M Unit := do
  let k ← Cmd.get
  let b := k.buf i
  if !k.bcache.holdingsleep k.pid i then Cmd.fail (.panic "iderw: buf not locked")
  else if b.valid && !b.dirty then Cmd.fail (.panic "iderw: nothing to do")
  else if b.dev ≠ 1 then Cmd.fail (.panic "iderw: request not for disk 1")
  else if k.disksize ≤ b.blockno then Cmd.fail (.panic "iderw: block out of range")
  else if b.dirty then
    Cmd.modify fun k => (k.setBuf i fun b => { b with dirty := false, valid := true }).writeDisk b.blockno b.data
  else Cmd.modify fun k => k.setBuf i fun b => { b with data := k.disk b.blockno, valid := true }

def bread (dev blockno : Nat) : M (Fin NBUF) := do
  let i ← bget dev blockno
  let k ← Cmd.get
  if !(k.buf i).valid then do iderw i; pure i else pure i

def bwrite (i : Fin NBUF) : M Unit := do
  let k ← Cmd.get
  if !k.bcache.holdingsleep k.pid i then Cmd.fail (.panic "bwrite")
  else do
    Cmd.modify fun k => k.setBuf i fun b => { b with dirty := true }
    iderw i

def brelse (i : Fin NBUF) : M Unit := do
  let k ← Cmd.get
  if !k.bcache.holdingsleep k.pid i then Cmd.fail (.panic "brelse")
  else do
    Cmd.modify fun k => { k with bcache := k.bcache.releasesleep i }
    Cmd.modify fun k => { k with bcache := k.bcache.brelseSection i }

def setData (i : Fin NBUF) (f : Block → Block) : M Unit :=
  Cmd.modify fun k => k.setBuf i fun b => { b with data := f b.data }

end Xv6
