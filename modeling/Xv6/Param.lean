import Mathlib.Tactic.Common

/-! # Constants of `param.h`, `fs.h`, `fcntl.h`, `mmu.h` and `memlayout.h` -/

namespace Xv6

/-- Most processes. -/
def NPROC : Nat := 64

/-- Open files per process. -/
def NOFILE : Nat := 16

/-- Most arguments of `exec`. -/
def MAXARG : Nat := 32

/-- Most blocks any file system operation writes. -/
def MAXOPBLOCKS : Nat := 10

/-- Most data blocks in the on-disk log. -/
def LOGSIZE : Nat := MAXOPBLOCKS * 3

/-- Size of the disk block cache. -/
def NBUF : Nat := MAXOPBLOCKS * 3

/-- Size of the file system in blocks. -/
def FSSIZE : Nat := 1000

/-- Device number of the file system's disk. -/
def ROOTDEV : Nat := 1

/-- Block size in bytes. -/
def BSIZE : Nat := 512

def O_RDONLY : Nat := 0x000
def O_WRONLY : Nat := 0x001
def O_RDWR : Nat := 0x002
def O_CREATE : Nat := 0x200

def PGSIZE : Nat := 4096

/-- First kernel virtual address. -/
def KERNBASE : Nat := 0x80000000

/-- A physical address divided by `PGSIZE`. -/
abbrev Page := Nat

end Xv6
