import Xv6.Sys.Code
import Xv6.Vm.Code

/-!
# `exec` with files and memory (`exec.c`, `vm.c`)

`exec` reads a program from an inode into a new address space. The inode cache, transactions and the disk are
those of the system calls, memory is that of physical pages, and a process has the fields that `exec` writes.
What the bytes of a file make of a page is arbitrary, as are the arguments.
-/

open Lib

namespace Xv6.Exec

open Sys (Slot num readAll ELF_MAGIC ELF_PROG_LOAD)
open Vm (Contents PGROUNDUP Arg)

/-! ## State -/

/-- The registers that `exec` sets. -/
structure Trapframe where
  eip : Nat
  esp : Nat
  deriving DecidableEq, Repr

structure User where
  pgdir : Page
  sz : Nat
  tf : Trapframe
  name : List Char
  deriving DecidableEq, Repr

structure Machine where
  fs : Sys.Kernel
  vm : Vm.Mem
  user : Fin NPROC → User

/-- `loops` is for a loop that has not ended when no loop should still run. -/
inductive Stop where
  | fs (e : Sys.Stop)
  | vm (e : Vm.Panic)
  | unaligned
  | loops
  deriving DecidableEq, Repr

abbrev ExecM := Cmd Machine Stop

def onVm {α : Type} (x : Vm.VmM α) : ExecM α := Cmd.zoom Machine.vm (fun m vm => { m with vm := vm }) .vm x

variable (dev : Blocks.Dev) (p : Fin NPROC)

def onFs {α : Type} (x : Sys.P α) : ExecM α :=
  Cmd.zoom Machine.fs (fun m fs => { m with fs := fs }) .fs (Prog.run (Sys.Op.perform dev p) x)

/-! ## Loading -/

section

variable (bytesIn : List Byte → Contents → Contents)

/-- `readi(ip, P2V(PTE_ADDR(*pte)), ...)` -/
def fill (pgtab : Page) (j : Fin Vm.NPTENTRIES) (bytes : List Byte) : Vm.VmM Unit := do
  let s ← Cmd.get
  Vm.setPage (s.mem pgtab j).page (bytesIn bytes (s.mem (s.mem pgtab j).page))

/-- The loop of `loaduvm`: `i` is a `uint`. -/
def loadFrom (pgdir : Page) (addr : Nat) (ip : Slot) (offset sz : Nat) : Nat → Nat → ExecM Bool
  | 0, _ => Cmd.fail .loops
  | fuel + 1, i =>
    if i < sz then do
      match ← onVm (Vm.walkpgdir pgdir ((addr + i) % 2 ^ 32) false) with
      | none => Cmd.fail (.vm .loaduvm)
      | some (pgtab, j) => do
        match ← onFs dev p (readAll ip ((offset + i) % 2 ^ 32) (min (sz - i) PGSIZE)) with
        | none => pure false
        | some bytes => do
          onVm (fill bytesIn pgtab j bytes)
          loadFrom pgdir addr ip offset sz fuel ((i + PGSIZE) % 2 ^ 32)
    else pure true

/-- There are `2 ^ 20` pages. -/
def loaduvm (pgdir : Page) (addr : Nat) (ip : Slot) (offset sz : Nat) : ExecM Bool :=
  if addr % PGSIZE ≠ 0 then Cmd.fail .unaligned else loadFrom dev p bytesIn pgdir addr ip offset sz (2 ^ 20 + 1) 0

/-- The loop over the program headers, of which `n` are left. `none` goes to `bad`. -/
def loadSegments (pgdir : Page) (ip : Slot) : Nat → Nat → Nat → ExecM (Option Nat)
  | 0, _, sz => pure (some sz)
  | n + 1, off, sz => do
    match ← onFs dev p (readAll ip off 32) with
    | none => pure none
    | some ph =>
      if num ph 0 4 ≠ ELF_PROG_LOAD then loadSegments pgdir ip n ((off + 32) % 2 ^ 32) sz
      else if num ph 20 4 < num ph 16 4 then pure none
      else if (num ph 8 4 + num ph 20 4) % 2 ^ 32 < num ph 8 4 then pure none
      else do
        let sz ← onVm (Vm.allocuvm pgdir sz ((num ph 8 4 + num ph 20 4) % 2 ^ 32))
        if sz = 0 then pure none
        else if num ph 8 4 % PGSIZE ≠ 0 then pure none
        else do
          if ← loaduvm dev p bytesIn pgdir (num ph 8 4) ip (num ph 4 4) (num ph 16 4)
          then loadSegments pgdir ip n ((off + 32) % 2 ^ 32) sz
          else pure none

/-- The guard page and the stack. `none` goes to `bad`. -/
def stackPages (pgdir : Page) (sz : Nat) : Vm.VmM (Option Nat) := do
  let sz ← Vm.allocuvm pgdir (PGROUNDUP sz) (PGROUNDUP sz + 2 * PGSIZE)
  if sz = 0 then pure none
  else do
    Vm.clearpteu pgdir (sz - 2 * PGSIZE)
    pure (some sz)

/-- Label `bad`. -/
def bad {α : Type} (pgdir : Option Page) (ip : Option Slot) : ExecM (Option α) := do
  (match pgdir with
    | none => pure ()
    | some pgdir => onVm (Vm.freevm pgdir))
  (match ip with
    | none => pure ()
    | some ip => do
      onFs dev p (Sys.iunlockput ip)
      onFs dev p (Sys.op .end_op))
  pure none

/-- The stack, once the inode is put. -/
def loadStack (pgdir : Page) (sz entry : Nat) : ExecM (Option (Page × Nat × Nat)) := do
  match ← onVm (stackPages pgdir sz) with
  | none => bad dev p (some pgdir) none
  | some sz => pure (some (pgdir, sz, entry))

/-- The segments and the stack of a file with the header `elf`. -/
def loadImage (ip : Slot) (elf : List Byte) (pgdir : Page) : ExecM (Option (Page × Nat × Nat)) := do
  match ← loadSegments dev p bytesIn pgdir ip (num elf 44 2) (num elf 28 4) 0 with
  | none => bad dev p (some pgdir) (some ip)
  | some sz => do
    onFs dev p (Sys.iunlockput ip)
    onFs dev p (Sys.op .end_op)
    loadStack dev p pgdir sz (num elf 24 4)

/-- `exec` up to `clearpteu`: the new page directory, its size and `elf.entry`, or `none` when it has returned -1. -/
def load (path : List Char) : ExecM (Option (Page × Nat × Nat)) := do
  onFs dev p (Sys.op .begin_op)
  match ← onFs dev p (Sys.namei path) with
  | none => do
    onFs dev p (Sys.op .end_op)
    pure none
  | some ip => do
    onFs dev p (Sys.ilock ip)
    match ← onFs dev p (readAll ip 0 52) with
    | none => bad dev p none (some ip)
    | some elf =>
      if num elf 0 4 ≠ ELF_MAGIC then bad dev p none (some ip)
      else do
        match ← onVm Vm.setupkvm with
        | none => bad dev p none (some ip)
        | some pgdir => loadImage dev p bytesIn ip elf pgdir

end

/-! ## The arguments and the new image -/

/-- The stack pointer with everything on the stack. `cur` is the page directory of the caller. -/
def pushAll (cur pgdir : Page) (args : List Arg) (ustack : Nat → Contents → Contents) (sz : Nat) :
    Vm.VmM (Option Nat) := do
  match ← Vm.pushArgs cur pgdir args 0 sz with
  | none => pure none
  | some (argc, sp) => do
    let sp := (sp + (2 ^ 32 - (3 + argc + 1) * 4)) % 2 ^ 32
    if ← Vm.copyout cur pgdir sp ustack ((3 + argc + 1) * 4) then pure (some sp) else pure none

/-- The path from behind its last slash on. -/
def last (path : List Char) : List Char := (path.reverse.takeWhile (· ≠ '/')).reverse

/-- `safestrcpy(curproc->name, last, sizeof(curproc->name))` -/
def nameOf (path : List Char) : List Char := (last path).take 15

/-- The page directory of the caller is freed last. -/
def commit (path : List Char) (pgdir : Page) (sz entry sp : Nat) : ExecM Int := do
  let m ← Cmd.get
  Cmd.modify fun m => { m with user := Function.update m.user p ⟨pgdir, sz, ⟨entry, sp⟩, nameOf path⟩ }
  onVm (Vm.freevm (m.user p).pgdir)
  pure 0

/-- What a call to `exec` is given: the path and the strings, and what these and the table of their addresses make of
pages. -/
structure Request where
  path : List Char
  args : List Arg
  ustack : Nat → Contents → Contents
  bytesIn : List Byte → Contents → Contents

/-- `exec` behind `clearpteu`. -/
def runImage (r : Request) (pgdir : Page) (sz entry : Nat) : ExecM Int := do
  let m ← Cmd.get
  match ← onVm (pushAll (m.user p).pgdir pgdir r.args r.ustack sz) with
  | none => do
    let _ ← bad (α := Unit) dev p (some pgdir) none
    pure (-1)
  | some sp => commit p r.path pgdir sz entry sp

def exec (r : Request) : ExecM Int := do
  match ← load dev p r.bytesIn r.path with
  | none => pure (-1)
  | some (pgdir, sz, entry) => runImage dev p r pgdir sz entry

end Xv6.Exec
