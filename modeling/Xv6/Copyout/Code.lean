import Mathlib.Algebra.Group.Nat.Defs
import Xv6.Lib.Bytes
import Xv6.Lib.Paged
import Xv6.Vm.Code

/-!
# Bytes of physical pages (`vm.c`)

`uva2ka` and `copyout` on the bytes of memory. Page tables are the words of their pages.
-/

open Lib

namespace Xv6.Copyout

open Vm (Entry Contents PGROUNDDOWN userPage)

/-! ## Memory -/

abbrev Bytes := Page → Nat → Byte

/-- `nulls` is history: how often `uva2ka` has read through a null pointer. -/
structure Phys where
  bytes : Bytes
  nulls : Nat

def word (bytes : Bytes) (x : Page) (j : Nat) : Nat := leVal (fun i => bytes x (4 * j + i)) 4

def entryOf (w : Nat) : Entry := ⟨w / PGSIZE, w % 2 = 1, w / 2 % 2 = 1, w / 4 % 2 = 1, .ofNat 9 (w / 8)⟩

/-- Pages as tables of entries. -/
def view (bytes : Bytes) : Page → Contents := fun x j => entryOf (word bytes x j.val)

abbrev ByteM := Cmd Phys Vm.Panic

/-! ## `copyout` -/

/-- What `uva2ka` makes of the word at address 0 of the process with the page directory `cur`. -/
def atNull (cur : Page) (s : Phys) : Except Vm.Panic (Option Page) :=
  match Vm.pte (view s.bytes) cur 0 with
  | some e => if e.p then .ok (userPage (view s.bytes e.page 0)) else .error .fault
  | none => .error .fault

/-- The result of `walkpgdir` is not tested. `null` is what comes of a null pointer. -/
def uva2ka (null : Phys → Except Vm.Panic (Option Page)) (pgdir : Page) (uva : Nat) : ByteM (Option Page) := fun s =>
  match Vm.pte (view s.bytes) pgdir uva with
  | some e => (.ok (userPage e), s)
  | none => (null s, { s with nulls := s.nulls + 1 })

def memmove (x : Page) (o : Nat) (src : List Byte) : ByteM Unit :=
  Cmd.modify fun s => { s with bytes := store s.bytes x o src }

/-- The loop of `copyout`. Each turn copies at least one byte. -/
def copyoutFrom (null : Phys → Except Vm.Panic (Option Page)) (pgdir : Page) : Nat → Nat → List Byte → ByteM Bool
  | 0, _, buf => if buf = [] then pure true else Cmd.fail .loops
  | fuel + 1, va, buf =>
    if buf = [] then pure true
    else do
      match ← uva2ka null pgdir (PGROUNDDOWN va) with
      | none => pure false
      | some pa0 => do
        let n := min (PGSIZE - (va - PGROUNDDOWN va)) buf.length
        memmove pa0 (va - PGROUNDDOWN va) (buf.take n)
        copyoutFrom null pgdir fuel ((PGROUNDDOWN va + PGSIZE) % 2 ^ 32) (buf.drop n)

def copyout (null : Phys → Except Vm.Panic (Option Page)) (pgdir : Page) (va : Nat) (p : List Byte) : ByteM Bool :=
  copyoutFrom null pgdir p.length va p

/-! ## The arguments of `exec` -/

/-- `(sp - (strlen(arg) + 1)) & ~3` -/
def argSp (sp len : Nat) : Nat := (sp + (2 ^ 32 - (len + 1) % 2 ^ 32)) % 2 ^ 32 / 4 * 4

end Xv6.Copyout
