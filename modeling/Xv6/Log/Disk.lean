import Xv6.Bio.Disk

/-! # The log on disk (`log.c`), one process -/

open Lib

namespace Xv6

/-- What both copy loops do with their two buffers: `memmove`, `bwrite(dst)`, `brelse(src)`, `brelse(dst)`. -/
def copyBuf (src dst : Fin NBUF) : M Unit := do
  let k ← Cmd.get
  setData dst fun _ => (k.buf src).data
  bwrite dst
  brelse src
  brelse dst

def install_trans : M Unit := do
  let k ← Cmd.get
  Cmd.forTo k.log.lh.n fun tail => do
    let lbuf ← bread k.log.dev (k.log.start + tail + 1)
    let dbuf ← bread k.log.dev (k.log.lh.block tail)
    copyBuf lbuf dbuf

/-- The count in a header block, as the C `int`. A negative count reads no entry, like zero. -/
def headCount (d : Block) : Nat := if d.word 0 < 2 ^ 31 then d.word 0 else 0

def LogHeader.load (lh : LogHeader) (d : Block) : LogHeader where
  n := headCount d
  block i := if i < headCount d then d.word (i + 1) else lh.block i

def read_head : M Unit := do
  let k ← Cmd.get
  let buf ← bread k.log.dev k.log.start
  let k ← Cmd.get
  let d := (k.buf buf).data
  -- A larger count than the array has slots makes the loop write past its end.
  if LOGSIZE < headCount d then Cmd.fail .overrun
  else do
    Cmd.modify fun k => { k with log := { k.log with lh := k.log.lh.load d } }
    brelse buf

/-- The header block after the assignments of `write_head`. -/
def headBlock (lh : LogHeader) (hb : Block) : Block :=
  (List.range lh.n).foldl (fun hb i => hb.setWord (i + 1) (lh.block i)) (hb.setWord 0 lh.n)

def write_head : M Unit := do
  let k ← Cmd.get
  let buf ← bread k.log.dev k.log.start
  setData buf (headBlock k.log.lh)
  bwrite buf
  brelse buf

def clear_lh : M Unit := Cmd.modify fun k => { k with log := { k.log with lh := { k.log.lh with n := 0 } } }

def recover_from_log : M Unit := do
  read_head
  install_trans
  clear_lh
  write_head

def write_log : M Unit := do
  let k ← Cmd.get
  Cmd.forTo k.log.lh.n fun tail => do
    let toBuf ← bread k.log.dev (k.log.start + tail + 1)
    let fromBuf ← bread k.log.dev (k.log.lh.block tail)
    copyBuf fromBuf toBuf

def commit : M Unit := do
  let k ← Cmd.get
  if 0 < k.log.lh.n then do
    write_log
    write_head
    install_trans
    clear_lh
    write_head
  else pure ()

/-- A sleep in `begin_op` would not end: nobody else runs. -/
def begin_op : M Unit := do
  let k ← Cmd.get
  if k.log.committing then Cmd.fail .hang
  else if k.log.crowded then Cmd.fail .hang
  else Cmd.modify fun k => { k with log := { k.log with outstanding := k.log.outstanding + 1 } }

def end_op : M Unit := do
  Cmd.modify fun k => { k with log := { k.log with outstanding := k.log.outstanding - 1 } }
  let k ← Cmd.get
  if k.log.committing then Cmd.fail (.panic "log.committing")
  else if k.log.outstanding = 0 then do
    Cmd.modify fun k => { k with log := { k.log with committing := true } }
    commit
    Cmd.modify fun k => { k with log := { k.log with committing := false } }
  else pure ()

def log_write (i : Fin NBUF) : M Unit := do
  let k ← Cmd.get
  if k.log.full then Cmd.fail (.panic "too big a transaction")
  else if k.log.outstanding < 1 then Cmd.fail (.panic "log_write outside of trans")
  else do
    Cmd.modify fun k => { k with log := { k.log with lh := k.log.lh.absorb (k.buf i).blockno } }
    Cmd.modify fun k => k.setBuf i fun b => { b with dirty := true }

end Xv6
