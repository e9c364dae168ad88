import Xv6.Fs.Code

/-!
# Inodes and directories on blocks (`fs.c`)

The disk as the running transaction sees it: `bread` finds what the last `log_write` left. `log` are
the block numbers that were given to `log_write`, the last one first. The fields of an inode in memory
are passed to a function and returned by it. `sb` is read at boot; `bfree` reads the same block again.
-/

open Lib

namespace Xv6.Blocks

def NDIRECT : Nat := 12
def NINDIRECT : Nat := BSIZE / 4
def MAXFILE : Nat := NDIRECT + NINDIRECT

instance addrs_neZero : NeZero (NDIRECT + 1) := ⟨by decide⟩

/-- Inodes of 64 bytes per block. -/
def IPB : Nat := BSIZE / 64
/-- Bitmap bits per block. -/
def BPB : Nat := BSIZE * 8
def NDEV : Nat := 10
def T_DIR : Nat := 1
def T_FILE : Nat := 2
def T_DEV : Nat := 3

structure Superblock where
  size : Nat
  nblocks : Nat
  ninodes : Nat
  inodestart : Nat
  bmapstart : Nat
  deriving DecidableEq, Repr

def Superblock.IBLOCK (sb : Superblock) (i : Nat) : Nat := i / IPB + sb.inodestart

def Superblock.BBLOCK (sb : Superblock) (b : Nat) : Nat := b / BPB + sb.bmapstart

/-- `short` fields are kept as their 16 bits. -/
@[ext]
structure Dinode where
  type : Nat
  major : Nat
  minor : Nat
  nlink : Nat
  size : Nat
  addrs : Fin (NDIRECT + 1) → Nat

/-- What `memset` leaves. -/
def Dinode.zero : Dinode := ⟨0, 0, 0, 0, 0, fun _ => 0⟩

def Dinode.setAddr (ip : Dinode) (k : Fin (NDIRECT + 1)) (b : Nat) : Dinode :=
  { ip with addrs := Function.update ip.addrs k b }

end Blocks

/-! ## Blocks -/

namespace Block

/-- Bytes of the block from `off` on. -/
def bytes (b : Block) (off n : Nat) : List Byte := (List.range n).map fun i => b.byte (off + i)

def put (b : Block) (off : Nat) (src : List Byte) : Block := fun k =>
  if off ≤ k.val ∧ k.val < off + src.length then src.getD (k.val - off) 0 else b k

def bit (b : Block) (i : Nat) : Bool := (b.byte (i / 8)).getLsbD (i % 8)

/-- `data[i/8] |= m` -/
def setBit (b : Block) (i : Nat) : Block := fun k =>
  if k.val = i / 8 then b k ||| BitVec.twoPow 8 (i % 8) else b k

/-- `data[i/8] &= ~m` -/
def clearBit (b : Block) (i : Nat) : Block := fun k =>
  if k.val = i / 8 then b k &&& ~~~ BitVec.twoPow 8 (i % 8) else b k

/-- Inode `k` of a block. -/
def dinode (b : Block) (k : Nat) : Blocks.Dinode where
  type := b.field (64 * k) 2
  major := b.field (64 * k + 2) 2
  minor := b.field (64 * k + 4) 2
  nlink := b.field (64 * k + 6) 2
  size := b.field (64 * k + 8) 4
  addrs i := b.field (64 * k + 12 + 4 * i.val) 4

/-- Byte `i` of an inode. -/
def dinodeByte (ip : Blocks.Dinode) (i : Nat) : Byte :=
  if i < 2 then leByte ip.type i
  else if i < 4 then leByte ip.major (i - 2)
  else if i < 6 then leByte ip.minor (i - 4)
  else if i < 8 then leByte ip.nlink (i - 6)
  else if i < 12 then leByte ip.size (i - 8)
  else leByte (ip.addrs (Fin.ofNat _ ((i - 12) / 4))) (i % 4)

def setDinode (b : Block) (k : Nat) (ip : Blocks.Dinode) : Block := fun i =>
  if i.val / 64 = k then dinodeByte ip (i.val % 64) else b i

end Block

namespace Blocks

/-! ## State -/

structure Disk where
  block : Nat → Block
  log : List Nat

inductive Panic where
  | balloc | bfree | bmap | dirlookup | dirlookupRead | dirlinkRead | dirlink | isdirempty | unlink
  deriving DecidableEq, Repr

abbrev FsM := Cmd Disk Panic

/-- The superblock of the disk, and the devices of `devsw`. -/
structure Dev where
  sb : Superblock
  read : Nat → Option (Nat → List Byte)
  write : Nat → Option (List Byte → Int)

variable (dev : Dev)

def bread (b : Nat) : FsM Block := do
  let s ← Cmd.get
  pure (s.block b)

def log_write (b : Nat) (c : Block) : FsM Unit :=
  Cmd.modify fun s => { block := Function.update s.block b c, log := b :: s.log }

def bzero (b : Nat) : FsM Unit := log_write b .zero

/-! ## Allocation -/

/-- The bit of block `b` in the bitmap. -/
def Disk.used (s : Disk) (b : Nat) : Bool := (s.block (dev.sb.BBLOCK b)).bit (b % BPB)

/-- The search for a free block goes through the bits in order. -/
def balloc : FsM Nat := do
  let s ← Cmd.get
  match (List.range dev.sb.size).find? fun b => !s.used dev b with
  | none => Cmd.fail .balloc
  | some b => do
    log_write (dev.sb.BBLOCK b) ((s.block (dev.sb.BBLOCK b)).setBit (b % BPB))
    bzero b
    pure b

def bfree (b : Nat) : FsM Unit := do
  let s ← Cmd.get
  if s.used dev b then log_write (dev.sb.BBLOCK b) ((s.block (dev.sb.BBLOCK b)).clearBit (b % BPB))
  else Cmd.fail .bfree

def Disk.dinode (s : Disk) (inum : Nat) : Dinode := (s.block (dev.sb.IBLOCK inum)).dinode (inum % IPB)

def putDinode (inum : Nat) (ip : Dinode) : FsM Unit := do
  let b ← bread (dev.sb.IBLOCK inum)
  log_write (dev.sb.IBLOCK inum) (b.setDinode (inum % IPB) ip)

def iupdate (inum : Nat) (ip : Dinode) : FsM Unit := putDinode dev inum ip

/-! ## Content -/

/-- `ip->addrs[k]`, allocated if it is 0. -/
def addr (ip : Dinode) (k : Fin (NDIRECT + 1)) : FsM (Nat × Dinode) :=
  if ip.addrs k = 0 then do
    let b ← balloc dev
    pure (b, ip.setAddr k b)
  else pure (ip.addrs k, ip)

def bmap (ip : Dinode) (bn : Nat) : FsM (Nat × Dinode) :=
  if bn < NDIRECT then addr dev ip (Fin.ofNat _ bn)
  else if bn - NDIRECT < NINDIRECT then do
    let (ind, ip) ← addr dev ip (Fin.last NDIRECT)
    let a ← bread ind
    if a.word (bn - NDIRECT) = 0 then do
      let b ← balloc dev
      log_write ind (a.setWord (bn - NDIRECT) b)
      pure (b, ip)
    else pure (a.word (bn - NDIRECT), ip)
  else Cmd.fail .bmap

def bfreeIf (b : Nat) : FsM Unit := if b ≠ 0 then bfree dev b else pure ()

/-- All addresses are 0 in the end. -/
def itrunc (inum : Nat) (ip : Dinode) : FsM Dinode := do
  Cmd.forTo NDIRECT fun i => bfreeIf dev (ip.addrs (Fin.ofNat _ i))
  if ip.addrs (Fin.last NDIRECT) ≠ 0 then do
    let a ← bread (ip.addrs (Fin.last NDIRECT))
    Cmd.forTo NINDIRECT fun j => bfreeIf dev (a.word j)
    bfree dev (ip.addrs (Fin.last NDIRECT))
    iupdate dev inum { ip with addrs := fun _ => 0, size := 0 }
    pure { ip with addrs := fun _ => 0, size := 0 }
  else do
    iupdate dev inum { ip with addrs := fun _ => 0, size := 0 }
    pure { ip with addrs := fun _ => 0, size := 0 }

/-- The loop of `readi`. Each turn copies at least one byte. -/
def readLoop : Nat → Dinode → Nat → Nat → FsM (List Byte × Dinode)
  | 0, ip, _, _ => pure ([], ip)
  | fuel + 1, ip, off, n =>
    if n = 0 then pure ([], ip)
    else do
      let (b, ip) ← bmap dev ip (off / BSIZE)
      let c ← bread b
      let m := min n (BSIZE - off % BSIZE)
      let (rest, ip) ← readLoop fuel ip (off + m) (n - m)
      pure (c.bytes (off % BSIZE) m ++ rest, ip)

/-- `none` for -1, else the bytes copied to `dst`. -/
def readi (ip : Dinode) (off n : Nat) : FsM (Option (List Byte) × Dinode) :=
  if ip.type = T_DEV then
    match if NDEV ≤ ip.major then none else dev.read ip.major with
    | none => pure (none, ip)
    | some read => pure (some (read n), ip)
  else if ip.size < off ∨ (off + n) % 2 ^ 32 < off then pure (none, ip)
  else do
    let n := if ip.size < off + n then ip.size - off else n
    let (bytes, ip) ← readLoop dev n ip off n
    pure (some bytes, ip)

def writeLoop : Nat → Dinode → Nat → List Byte → FsM Dinode
  | 0, ip, _, _ => pure ip
  | fuel + 1, ip, off, src =>
    if src = [] then pure ip
    else do
      let (b, ip) ← bmap dev ip (off / BSIZE)
      let c ← bread b
      let m := min src.length (BSIZE - off % BSIZE)
      log_write b (c.put (off % BSIZE) (src.take m))
      writeLoop fuel ip (off + m) (src.drop m)

def writei (inum : Nat) (ip : Dinode) (off : Nat) (src : List Byte) : FsM (Int × Dinode) :=
  if ip.type = T_DEV then
    match if NDEV ≤ ip.major then none else dev.write ip.major with
    | none => pure (-1, ip)
    | some write => pure (write src, ip)
  else if ip.size < off ∨ (off + src.length) % 2 ^ 32 < off then pure (-1, ip)
  else if MAXFILE * BSIZE < off + src.length then pure (-1, ip)
  else do
    let ip ← writeLoop dev src.length ip off src
    if 0 < src.length ∧ ip.size < off + src.length then do
      iupdate dev inum { ip with size := off + src.length }
      pure (src.length, { ip with size := off + src.length })
    else pure (src.length, ip)

/-! ## Directories -/

def charByte (c : Char) : Byte := BitVec.ofNat 8 c.toNat
def byteChar (b : Byte) : Char := Char.ofNat b.toNat

/-- `strncpy(de.name, name, DIRSIZ)` -/
def nameBytes (name : Name) : List Byte := (List.range DIRSIZ).map fun i => (name[i]?).elim 0 charByte

def direntBytes (e : Dirent) : List Byte := [leByte e.inum 0, leByte e.inum 1] ++ nameBytes e.name

/-- Two names are equal for `namecmp` if they agree up to their first zero byte. -/
def dirent (bs : List Byte) : Dirent :=
  ⟨leVal (fun i => bs.getD i 0) 2, ((bs.drop 2).takeWhile (· ≠ 0)).map byteChar⟩

/-- Reads the entry at `off`, or panics. -/
def readDirent (e : Panic) (dp : Dinode) (off : Nat) : FsM (Dirent × Dinode) := do
  match ← readi dev dp off 16 with
  | (some bs, dp) => if bs.length = 16 then pure (dirent bs, dp) else Cmd.fail e
  | (none, _) => Cmd.fail e

/-- Goes through the entries from `off` on up to the first one with `stop`. -/
def findDirent (e : Panic) (stop : Dirent → Bool) : Nat → Dinode → Nat → FsM (Option (Dirent × Nat) × Dinode)
  | 0, dp, _ => pure (none, dp)
  | fuel + 1, dp, off =>
    if off < dp.size then do
      let (de, dp) ← readDirent dev e dp off
      if stop de then pure (some (de, off), dp) else findDirent e stop fuel dp (off + 16)
    else pure (none, dp)

/-- The scan of `dirlookup`: the inode number and the offset of the entry. -/
def scan (dp : Dinode) (name : Name) : FsM (Option (Nat × Nat) × Dinode) :=
  if dp.type ≠ T_DIR then Cmd.fail .dirlookup
  else do
    let (found, dp) ← findDirent dev .dirlookupRead (fun de => de.inum ≠ 0 ∧ de.name = name) (dp.size / 16 + 1) dp 0
    pure (found.map fun (de, off) => (de.inum, off), dp)

/-- The part of `dirlink` after the name was not found. -/
def insert (dinum : Nat) (dp : Dinode) (name : Name) (inum : Nat) : FsM Dinode := do
  let (found, dp) ← findDirent dev .dirlinkRead (fun de => de.inum = 0) (dp.size / 16 + 1) dp 0
  let off := match found with
    | some (_, off) => off
    | none => (dp.size + 15) / 16 * 16
  let (r, dp) ← writei dev dinum dp off (direntBytes ⟨inum, name⟩)
  if r = 16 then pure dp else Cmd.fail .dirlink

/-- The entry at `off` is cleared in `sys_unlink`. -/
def erase (dinum : Nat) (dp : Dinode) (off : Nat) : FsM Dinode := do
  let (r, dp) ← writei dev dinum dp off (List.replicate 16 0)
  if r = 16 then pure dp else Cmd.fail .unlink

def isdirempty (dp : Dinode) : FsM (Bool × Dinode) := do
  let (found, dp) ← findDirent dev .isdirempty (fun de => de.inum ≠ 0) (dp.size / 16 + 1) dp 32
  pure (found.isNone, dp)

end Xv6.Blocks
