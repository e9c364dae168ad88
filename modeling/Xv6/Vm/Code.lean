import Mathlib
import Xv6.Lib.Cmd
import Xv6.Lib.System
import Xv6.Param

/-!
# Physical pages (`kalloc.c`, `vm.c`, `exec.c`, `proc.c`, `pipe.c`)

Page tables lie in physical memory, so a page is a table of 1024 words, each seen as a page table
entry. What a program, a file or a pipe puts into its pages is arbitrary. Operations run one after
the other, and `kalloc` may fail at any call: `fails` tells for the next calls whether they do.
Processes are their kernel stack, page directory and size. Parents and files are left out: a
process in `exit` may be reaped at any time, and each end of a pipe is closed at most once, by
`fileclose` with the last reference to its file.
-/

open Lib Function

namespace Xv6.Vm

/-! ## Memory -/

def EXTMEM : Nat := 0x100000
def KERNLINK : Nat := KERNBASE + EXTMEM
def PHYSTOP : Nat := 0xE000000
def DEVSPACE : Nat := 0xFE000000
/-- Also `NPDENTRIES`. -/
def NPTENTRIES : Nat := 1024

instance : NeZero NPTENTRIES := ⟨by decide⟩

/-- A word as a page table entry: `PTE_ADDR`, `PTE_P`, `PTE_W`, `PTE_U` and the nine bits between. -/
structure Entry where
  page : Page
  p : Bool
  w : Bool
  u : Bool
  flags : BitVec 9
  deriving DecidableEq, Repr

def Entry.zero : Entry := ⟨0, false, false, false, 0⟩

/-- The word `0x01010101` that `kfree` leaves. -/
def Entry.junk : Entry := ⟨0x1010, true, false, false, 0x20⟩

abbrev Contents := Fin NPTENTRIES → Entry

/-- `data` and `kend` are the addresses `data` and `end` of the kernel. The links of `freelist` are not in `mem`. -/
structure Mem where
  mem : Page → Contents
  freelist : List Page
  fails : List Bool
  data : Nat
  kend : Page

def Mem.write (m : Mem) (x : Page) (c : Contents) : Mem := { m with mem := update m.mem x c }

/-- `loops` is for a loop that goes on after more turns than there are pages. -/
inductive Panic where
  | kfree | remap | copyuvm | loaduvm | clearpteu | fault | outOfMemory | loops
  deriving DecidableEq, Repr

abbrev VmM := Cmd Mem Panic

def setPage (x : Page) (c : Contents) : VmM Unit := Cmd.modify fun s => s.write x c

def setEntry (x : Page) (j : Fin NPTENTRIES) (e : Entry) : VmM Unit :=
  Cmd.modify fun s => s.write x (update (s.mem x) j e)

def memset0 (x : Page) : VmM Unit := setPage x fun _ => .zero

/-! ## `kalloc.c` -/

def kfree (x : Page) : VmM Unit := do
  let s ← Cmd.get
  if x < s.kend ∨ PHYSTOP / PGSIZE ≤ x then Cmd.fail .kfree
  else do
    setPage x fun _ => .junk
    Cmd.modify fun s => { s with freelist := x :: s.freelist }

def kalloc : VmM (Option Page) := fun s =>
  match s.fails.headD false, s.freelist with
  | false, x :: l => (.ok (some x), { s with freelist := l, fails := s.fails.tail })
  | _, _ => (.ok none, { s with fails := s.fails.tail })

/-- `freeMemBytes` is an `int`. -/
def freemem (s : Mem) : Int :=
  let bytes := Int.bmod (4096 * s.freelist.length) (2 ^ 32)
  if bytes < 0 then -1 else bytes

/-! ## Page tables -/

def PDX (va : Nat) : Fin NPTENTRIES := Fin.ofNat NPTENTRIES (va / 2 ^ 22)
def PTX (va : Nat) : Fin NPTENTRIES := Fin.ofNat NPTENTRIES (va / 2 ^ 12)
def PGROUNDUP (a : Nat) : Nat := (a + PGSIZE - 1) / PGSIZE * PGSIZE
def PGROUNDDOWN (a : Nat) : Nat := a / PGSIZE * PGSIZE

/-- The address of an entry is its page and its index. -/
def walkpgdir (pgdir : Page) (va : Nat) (alloc : Bool) : VmM (Option (Page × Fin NPTENTRIES)) := do
  let s ← Cmd.get
  if (s.mem pgdir (PDX va)).p then pure (some ((s.mem pgdir (PDX va)).page, PTX va))
  else if alloc then do
    match ← kalloc with
    | none => pure none
    | some pgtab => do
      memset0 pgtab
      setEntry pgdir (PDX va) ⟨pgtab, true, true, true, 0⟩
      pure (some (pgtab, PTX va))
  else pure none

/-- Entry `j` of table `i` is one of the pages `first` to `last` of the address space. -/
def inRange (first last i : Nat) (j : Fin NPTENTRIES) : Bool :=
  Nat.ble first (NPTENTRIES * i + j.val) && Nat.ble (NPTENTRIES * i + j.val) last

/-- The loop of `mappages` one table at a time: the walk to the other pages of a table finds the same table. -/
def mapTables (pgdir : Page) (first last : Nat) (pa : Page) (w u : Bool) (f : BitVec 9) : Nat → Nat → VmM Bool
  | _, 0 => pure true
  | i, n + 1 => do
    let old ← Cmd.get
    match ← walkpgdir pgdir (i * 2 ^ 22) true with
    | none => pure false
    | some (pgtab, _) => do
      let s ← Cmd.get
      -- A table that `walkpgdir` has just made is empty.
      if (old.mem pgdir (PDX (i * 2 ^ 22))).p && (List.finRange NPTENTRIES).any fun j =>
        inRange first last i j && (s.mem pgtab j).p
      then Cmd.fail .remap
      else do
        setPage pgtab fun j =>
          if inRange first last i j then ⟨pa + (NPTENTRIES * i + j.val - first), true, w, u, f⟩ else s.mem pgtab j
        mapTables pgdir first last pa w u f (i + 1) n

def mappages (pgdir : Page) (va size : Nat) (pa : Page) (w u : Bool) (f : BitVec 9) : VmM Bool :=
  let first := va / PGSIZE
  let last := (va + size - 1) / PGSIZE
  mapTables pgdir first last pa w u f (first / NPTENTRIES) (last / NPTENTRIES - first / NPTENTRIES + 1)

/-- One turn of the loop of `deallocuvm` with an entry. -/
def freeEntry (pgtab : Page) (j : Fin NPTENTRIES) : VmM Unit := do
  let s ← Cmd.get
  if (s.mem pgtab j).p then
    if (s.mem pgtab j).page = 0 then Cmd.fail .kfree
    else do
      kfree (s.mem pgtab j).page
      setEntry pgtab j .zero
  else pure ()

def deallocFrom (pgdir : Page) (oldsz : Nat) : Nat → Nat → VmM Unit
  | 0, a => if a < oldsz then Cmd.fail .loops else pure ()
  | n + 1, a =>
    if a < oldsz then do
      match ← walkpgdir pgdir a false with
      | none => deallocFrom pgdir oldsz n ((a / 2 ^ 22 + 1) * 2 ^ 22)
      | some (pgtab, j) => do
        freeEntry pgtab j
        deallocFrom pgdir oldsz n (a + PGSIZE)
    else pure ()

/-- There are at most `2 ^ 20` pages below `oldsz`. -/
def deallocuvm (pgdir : Page) (oldsz newsz : Nat) : VmM Nat :=
  if oldsz ≤ newsz then pure oldsz
  else do
    deallocFrom pgdir oldsz (2 ^ 20) (PGROUNDUP newsz)
    pure newsz

def freeTable (pgdir : Page) (i : Nat) : VmM Unit := do
  let s ← Cmd.get
  if (s.mem pgdir (Fin.ofNat NPTENTRIES i)).p then kfree (s.mem pgdir (Fin.ofNat NPTENTRIES i)).page else pure ()

def freeTables (pgdir : Page) : VmM Unit := Cmd.forTo NPTENTRIES (freeTable pgdir)

def freevm (pgdir : Page) : VmM Unit := do
  let _ ← deallocuvm pgdir KERNBASE 0
  freeTables pgdir
  kfree pgdir

structure Kmap where
  virt : Nat
  phys_start : Nat
  phys_end : Nat
  w : Bool

/-- The last entry ends at 0, which is `2 ^ 32`. -/
def kmap (data : Nat) : List Kmap :=
  [⟨KERNBASE, 0, EXTMEM, true⟩, ⟨KERNLINK, KERNLINK - KERNBASE, data - KERNBASE, false⟩,
   ⟨data, data - KERNBASE, PHYSTOP, true⟩, ⟨DEVSPACE, DEVSPACE, 2 ^ 32, true⟩]

def mapKernel (pgdir : Page) : List Kmap → VmM Bool
  | [] => pure true
  | k :: ks => do
    if ← mappages pgdir k.virt (k.phys_end - k.phys_start) (k.phys_start / PGSIZE) k.w false 0 then mapKernel pgdir ks
    else pure false

def setupkvm : VmM (Option Page) := do
  match ← kalloc with
  | none => pure none
  | some pgdir => do
    memset0 pgdir
    let s ← Cmd.get
    if ← mapKernel pgdir (kmap s.data) then pure (some pgdir)
    else do
      freevm pgdir
      pure none

/-! ## User memory -/

def allocFrom (pgdir : Page) (oldsz newsz : Nat) : Nat → Nat → VmM Bool
  | 0, a => if a < newsz then Cmd.fail .loops else pure true
  | n + 1, a =>
    if a < newsz then do
      match ← kalloc with
      | none => do
        let _ ← deallocuvm pgdir newsz oldsz
        pure false
      | some mem => do
        memset0 mem
        if ← mappages pgdir a PGSIZE mem true true 0 then allocFrom pgdir oldsz newsz n (a + PGSIZE)
        else do
          let _ ← deallocuvm pgdir newsz oldsz
          kfree mem
          pure false
    else pure true

def allocuvm (pgdir : Page) (oldsz newsz : Nat) : VmM Nat :=
  if KERNBASE ≤ newsz then pure 0
  else if newsz < oldsz then pure oldsz
  else do
    if ← allocFrom pgdir oldsz newsz (2 ^ 20) (PGROUNDUP oldsz) then pure newsz else pure 0

def copyFrom (d pgdir : Page) (sz : Nat) : Nat → Nat → VmM Bool
  | 0, i => if i < sz then Cmd.fail .loops else pure true
  | n + 1, i =>
    if i < sz then do
      match ← walkpgdir pgdir i false with
      | none => Cmd.fail .copyuvm
      | some (pgtab, j) => do
        let s ← Cmd.get
        let pte := s.mem pgtab j
        if pte.p then do
          match ← kalloc with
          | none => pure false
          | some mem => do
            setPage mem (s.mem pte.page)
            if ← mappages d i PGSIZE mem pte.w pte.u pte.flags then copyFrom d pgdir sz n (i + PGSIZE)
            else do
              kfree mem
              pure false
        else Cmd.fail .copyuvm
    else pure true

def copyuvm (pgdir : Page) (sz : Nat) : VmM (Option Page) := do
  match ← setupkvm with
  | none => pure none
  | some d => do
    if ← copyFrom d pgdir sz (2 ^ 20) 0 then pure (some d)
    else do
      freevm d
      pure none

def clearpteu (pgdir : Page) (uva : Nat) : VmM Unit := do
  match ← walkpgdir pgdir uva false with
  | none => Cmd.fail .clearpteu
  | some (pgtab, j) => do
    let s ← Cmd.get
    setEntry pgtab j { s.mem pgtab j with u := false }

/-- The word at address 0 of the running process, which the null pointer from `walkpgdir` points to. -/
def wordAtNull (cur : Page) : VmM Entry := do
  let s ← Cmd.get
  let pde := s.mem cur 0
  let pte := s.mem pde.page 0
  if pde.p ∧ pte.p then pure (s.mem pte.page 0) else Cmd.fail .fault

def userPage (pte : Entry) : Option Page := if pte.p ∧ pte.u then some pte.page else none

/-- `walkpgdir`'s result is not tested. -/
def uva2ka (cur pgdir : Page) (uva : Nat) : VmM (Option Page) := do
  match ← walkpgdir pgdir uva false with
  | none => do
    let pte ← wordAtNull cur
    pure (userPage pte)
  | some (pgtab, j) => do
    let s ← Cmd.get
    pure (userPage (s.mem pgtab j))

/-- `data k` is what piece `k` of the bytes makes of the page that it is copied to. -/
def copyoutFrom (cur pgdir : Page) (data : Nat → Contents → Contents) : Nat → Nat → Nat → Nat → VmM Bool
  | 0, _, _, len => if len = 0 then pure true else Cmd.fail .loops
  | n + 1, k, va, len =>
    if len = 0 then pure true
    else do
      match ← uva2ka cur pgdir (PGROUNDDOWN va) with
      | none => pure false
      | some x => do
        let s ← Cmd.get
        setPage x (data k (s.mem x))
        copyoutFrom cur pgdir data n (k + 1) ((PGROUNDDOWN va + PGSIZE) % 2 ^ 32)
          (len - min (PGSIZE - (va - PGROUNDDOWN va)) len)

def copyout (cur pgdir : Page) (va : Nat) (data : Nat → Contents → Contents) (len : Nat) : VmM Bool :=
  copyoutFrom cur pgdir data (len / PGSIZE + 2) 0 va len

/-! ## `exec` -/

/-- A program header. `pages k` is what the file has for page `k` of the segment, `none` when `readi` fails. -/
structure Proghdr where
  load : Bool
  vaddr : Nat
  memsz : Nat
  filesz : Nat
  pages : Nat → Option (Contents → Contents)

def loadFrom (pgdir : Page) (ph : Proghdr) : Nat → Nat → VmM Bool
  | 0, k => if k * PGSIZE < ph.filesz then Cmd.fail .loops else pure true
  | n + 1, k =>
    if k * PGSIZE < ph.filesz then do
      match ← walkpgdir pgdir (ph.vaddr + k * PGSIZE) false with
      | none => Cmd.fail .loaduvm
      | some (pgtab, j) => do
        let s ← Cmd.get
        match ph.pages k with
        | none => pure false
        | some data => do
          setPage (s.mem pgtab j).page (data (s.mem (s.mem pgtab j).page))
          loadFrom pgdir ph n (k + 1)
    else pure true

def loaduvm (pgdir : Page) (ph : Proghdr) : VmM Bool := loadFrom pgdir ph (2 ^ 20) 0

/-- The loop over the program headers: `none` after a failure, or the size. A header is `none` when `readi` fails. -/
def loadSegments (pgdir : Page) : List (Option Proghdr) → Nat → VmM (Option Nat)
  | [], sz => pure (some sz)
  | none :: _, _ => pure none
  | some ph :: phs, sz =>
    if ph.load then
      if ph.memsz < ph.filesz ∨ (ph.vaddr + ph.memsz) % 2 ^ 32 < ph.vaddr then pure none
      else do
        let sz ← allocuvm pgdir sz (ph.vaddr + ph.memsz)
        if sz = 0 ∨ ph.vaddr % PGSIZE ≠ 0 then pure none
        else do
          if ← loaduvm pgdir ph then loadSegments pgdir phs sz else pure none
    else loadSegments pgdir phs sz

structure Arg where
  len : Nat
  data : Nat → Contents → Contents

def pushArgs (cur pgdir : Page) : List Arg → Nat → Nat → VmM (Option (Nat × Nat))
  | [], argc, sp => pure (some (argc, sp))
  | arg :: args, argc, sp =>
    if MAXARG ≤ argc then pure none
    else do
      let sp := (sp + (2 ^ 32 - (arg.len + 1) % 2 ^ 32)) % 2 ^ 32 / 4 * 4
      if ← copyout cur pgdir sp arg.data (arg.len + 1) then pushArgs cur pgdir args (argc + 1) sp else pure none

/-- The part of `exec` after the segments: the stack and the arguments. `none` goes to `bad`. -/
def buildStack (cur pgdir : Page) (args : List Arg) (ustack : Nat → Contents → Contents) (sz : Nat) :
    VmM (Option Nat) := do
  let sz ← allocuvm pgdir (PGROUNDUP sz) (PGROUNDUP sz + 2 * PGSIZE)
  if sz = 0 then pure none
  else do
    clearpteu pgdir (sz - 2 * PGSIZE)
    match ← pushArgs cur pgdir args 0 sz with
    | none => pure none
    | some (argc, sp) => do
      let sp := (sp + (2 ^ 32 - (3 + argc + 1) * 4)) % 2 ^ 32
      if ← copyout cur pgdir sp ustack ((3 + argc + 1) * 4) then pure (some sz) else pure none

/-- `none` for a file that is missing or has no ELF header. -/
structure Program where
  phs : Option (List (Option Proghdr))
  args : List Arg
  ustack : Nat → Contents → Contents

/-- The new page directory and size. The caller frees the old directory. -/
def buildImage (cur : Page) (prog : Program) : VmM (Option (Page × Nat)) :=
  match prog.phs with
  | none => pure none
  | some phs => do
    match ← setupkvm with
    | none => pure none
    | some pgdir => do
      match ← loadSegments pgdir phs 0 with
      | none => do
        freevm pgdir
        pure none
      | some sz => do
        match ← buildStack cur pgdir prog.args prog.ustack sz with
        | none => do
          freevm pgdir
          pure none
        | some sz => pure (some (pgdir, sz))

/-! ## Processes and pipes -/

structure Image where
  kstack : Page
  pgdir : Page
  sz : Nat
  deriving DecidableEq, Repr

inductive Slot where
  | unused
  | live (i : Image)
  | zombie (i : Image)
  deriving DecidableEq, Repr

def Slot.image : Slot → Option Image
  | .unused => none
  | .live i | .zombie i => some i

structure Pipe where
  page : Page
  readopen : Bool
  writeopen : Bool
  deriving DecidableEq, Repr

/-- `cpuStacks` are the stacks of the other processors' schedulers, `all` the pages that `freerange` has
freed. -/
structure State (nproc : Nat) where
  vm : Mem
  slot : Fin nproc → Slot
  pipes : List Pipe
  kpgdir : Page
  cpuStacks : List Page
  all : List Page

/-- The part of `fork` that takes memory. -/
def forkImage (i : Image) : VmM (Option Image) := do
  match ← kalloc with
  | none => pure none
  | some kstack => do
    match ← copyuvm i.pgdir i.sz with
    | none => do
      kfree kstack
      pure none
    | some pgdir => pure (some ⟨kstack, pgdir, i.sz⟩)

def execImage (i : Image) (prog : Program) : VmM (Option Image) := do
  match ← buildImage i.pgdir prog with
  | none => pure none
  | some (pgdir, sz) => do
    freevm i.pgdir
    pure (some { i with pgdir := pgdir, sz := sz })

/-- `0` is the result for an error, as in the code. -/
def growSize (i : Image) (n : Int) : VmM Nat :=
  let newsz := ((i.sz + n) % 2 ^ 32).toNat
  if 0 < n then allocuvm i.pgdir i.sz newsz
  else if n < 0 then deallocuvm i.pgdir i.sz newsz
  else pure i.sz

def reap (i : Image) : VmM Unit := do
  kfree i.kstack
  freevm i.pgdir

/-- Where memory is written outside the kernel's tables. -/
inductive Place (nproc : Nat) where
  | user (p : Fin nproc) (va : Nat)
  | stack (p : Fin nproc)
  | pipe (k : Nat)

inductive Act (nproc : Nat) where
  | fork (p : Fin nproc) (fails : List Bool)
  | exec (p : Fin nproc) (prog : Program) (fails : List Bool)
  | growproc (p : Fin nproc) (n : Int) (fails : List Bool)
  | exit (p : Fin nproc)
  | wait (q : Fin nproc)
  | pipealloc (files : Bool) (fails : List Bool)
  | pipeclose (k : Nat) (writable : Bool)
  | store (place : Place nproc) (c : Contents)

variable {nproc : Nat}

/-- The entry for a user address, if there is a table for it. -/
def pte (mem : Page → Contents) (pgdir : Page) (va : Nat) : Option Entry :=
  if (mem pgdir (PDX va)).p then some (mem (mem pgdir (PDX va)).page (PTX va)) else none

def State.page (s : State nproc) : Place nproc → Option Page
  | .user p va =>
    match s.slot p with
    | .live i => (pte s.vm.mem i.pgdir va).bind userPage
    | _ => none
  | .stack p => (s.slot p).image.map Image.kstack
  | .pipe k => s.pipes[k]?.map Pipe.page

/-- Runs a command that does not panic. -/
def State.onVm {α : Type} (s : State nproc) (fails : List Bool) (x : VmM α) : Option (α × State nproc) :=
  match x { s.vm with fails := fails } with
  | (.ok a, vm) => some (a, { s with vm := vm })
  | (.error _, _) => none

def State.set (s : State nproc) (p : Fin nproc) (v : Slot) : State nproc := { s with slot := update s.slot p v }

/-! Each call returns `false` for the result -1. -/

def fork (s : State nproc) (p : Fin nproc) (fails : List Bool) : Option (Bool × State nproc) :=
  match s.slot p with
  | .live i =>
    match (List.finRange nproc).find? fun np => s.slot np = .unused with
    | some np => (s.onVm fails (forkImage i)).map fun
      | (none, s) => (false, s)
      | (some i, s) => (true, s.set np (.live i))
    | none => some (false, s)
  | _ => none

def exec (s : State nproc) (p : Fin nproc) (prog : Program) (fails : List Bool) : Option (Bool × State nproc) :=
  match s.slot p with
  | .live i => (s.onVm fails (execImage i prog)).map fun
    | (none, s) => (false, s)
    | (some i, s) => (true, s.set p (.live i))
  | _ => none

/-- The arguments are strings in the memory of the process. -/
def sys_exec (s : State nproc) (p : Fin nproc) (prog : Program) (fails : List Bool) : Option (Bool × State nproc) :=
  match s.slot p with
  | .live i =>
    if prog.args.length < MAXARG ∧ ∀ arg ∈ prog.args, arg.len < i.sz then exec s p prog fails else some (false, s)
  | _ => none

/-- After an error the size stays as it was. -/
def growproc (s : State nproc) (p : Fin nproc) (n : Int) (fails : List Bool) : Option (Bool × State nproc) :=
  match s.slot p with
  | .live i => (s.onVm fails (growSize i n)).map fun (sz, s) =>
    if sz = 0 ∧ n ≠ 0 then (false, s) else (true, s.set p (.live { i with sz := sz }))
  | _ => none

def exit (s : State nproc) (p : Fin nproc) : Option (Bool × State nproc) :=
  match s.slot p with
  | .live i => some (true, s.set p (.zombie i))
  | _ => none

/-- `wait` and `wait2` find the child in slot `q`. -/
def wait (s : State nproc) (q : Fin nproc) : Option (Bool × State nproc) :=
  match s.slot q with
  | .zombie i => (s.onVm [] (reap i)).map fun (_, s) => (true, s.set q .unused)
  | _ => none

/-- `files` tells whether there are two free files. -/
def pipealloc (s : State nproc) (files : Bool) (fails : List Bool) : Option (Bool × State nproc) :=
  if files then (s.onVm fails kalloc).map fun
    | (none, s) => (false, s)
    | (some x, s) => (true, { s with pipes := ⟨x, true, true⟩ :: s.pipes })
  else some (false, s)

def Pipe.isOpen (pipe : Pipe) (writable : Bool) : Bool := if writable then pipe.writeopen else pipe.readopen

def Pipe.close (pipe : Pipe) (writable : Bool) : Pipe :=
  if writable then { pipe with writeopen := false } else { pipe with readopen := false }

def pipeclose (s : State nproc) (k : Nat) (writable : Bool) : Option (Bool × State nproc) :=
  match s.pipes[k]? with
  | some pipe =>
    if pipe.isOpen writable then
      if (pipe.close writable).readopen || (pipe.close writable).writeopen then
        some (true, { s with pipes := s.pipes.set k (pipe.close writable) })
      else (s.onVm [] (kfree pipe.page)).map fun (_, s) => (true, { s with pipes := s.pipes.eraseIdx k })
    else none
  | none => none

def store (s : State nproc) (place : Place nproc) (c : Contents) : Option (Bool × State nproc) :=
  (s.page place).map fun x => (true, { s with vm := s.vm.write x c })

def call (s : State nproc) : Act nproc → Option (Bool × State nproc)
  | .fork p fails => fork s p fails
  | .exec p prog fails => sys_exec s p prog fails
  | .growproc p n fails => growproc s p n fails
  | .exit p => exit s p
  | .wait q => wait s q
  | .pipealloc files fails => pipealloc s files fails
  | .pipeclose k writable => pipeclose s k writable
  | .store place c => store s place c

def step (s : State nproc) (a : Act nproc) : Option (State nproc) := (call s a).map Prod.snd

/-! ## Boot -/

def orPanic {α : Type} (x : VmM (Option α)) : VmM α := do
  match ← x with
  | none => Cmd.fail .outOfMemory
  | some a => pure a

def freerange : List Page → VmM Unit
  | [] => pure ()
  | x :: l => do
    kfree x
    freerange l

/-- `kalloc` for the stack of each other processor. -/
def startothers : Nat → VmM (List Page)
  | 0 => pure []
  | n + 1 => do
    let stack ← orPanic kalloc
    let cpuStacks ← startothers n
    pure (stack :: cpuStacks)

/-- `allocproc`, `setupkvm` and `inituvm` for init. -/
def userinit : VmM Image := do
  let kstack ← orPanic kalloc
  let pgdir ← orPanic setupkvm
  let mem ← orPanic kalloc
  memset0 mem
  if ← mappages pgdir 0 PGSIZE mem true true 0 then pure ⟨kstack, pgdir, PGSIZE⟩ else Cmd.fail .outOfMemory

/-- The pages below 4 MB are freed first, the others after the other processors have started. -/
def boot (low high : List Page) (ncpu : Nat) : VmM (Page × List Page × Image) := do
  freerange low
  let kpgdir ← orPanic setupkvm
  let cpuStacks ← startothers ncpu
  freerange high
  let i ← userinit
  pure (kpgdir, cpuStacks, i)

/-- Where the kernel is linked: its text is not empty and ends on a page boundary below `PHYSTOP`. -/
structure Linked (m : Mem) : Prop where
  data_aligned : m.data % PGSIZE = 0
  data_lo : KERNLINK < m.data
  data_hi : m.data < KERNBASE + PHYSTOP

structure Init (s : State nproc) : Prop where
  run : ∃ m low high ncpu p i, Linked m ∧ m.freelist = [] ∧ m.fails = [] ∧ s.all = low ++ high ∧
    boot low high ncpu m = (.ok (s.kpgdir, s.cpuStacks, i), s.vm) ∧ s.slot = update (fun _ => .unused) p (.live i)
  nodup : s.all.Nodup
  pipes : s.pipes = []

def pages (nproc : Nat) : System (State nproc) (Act nproc) := ⟨Init, step⟩

end Xv6.Vm
