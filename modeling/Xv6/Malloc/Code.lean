import Mathlib
import Xv6.Lib.Cycle
import Xv6.Lib.System

/-!
# The allocator of user programs (`umalloc.c`)

A header is known by its address, with maps for its two fields. `uint` and pointer arithmetic is modulo
`2 ^ 32`, and a header has 8 bytes. The loops have fuel, and `none` is the end of the fuel or of the
answers of `sbrk`, not an outcome of the code.
-/

open Lib

namespace Xv6.Malloc

/-- `units` counts headers. -/
structure Block where
  addr : Nat
  units : Nat
  deriving DecidableEq, Repr

/-- Memory from `sbrk`. -/
structure Region where
  addr : Nat
  bytes : Nat
  deriving DecidableEq, Repr

/-- `freep` is 0 before the first `malloc`. `mem` is history. -/
structure Heap where
  ptr : Nat → Nat
  size : Nat → Nat
  freep : Nat
  mem : List Region

namespace Heap

def setPtr (h : Heap) (p v : Nat) : Heap := { h with ptr := Function.update h.ptr p v }

def setSize (h : Heap) (p v : Nat) : Heap := { h with size := Function.update h.size p v }

/-- `p + n` for a `Header *` -/
def plus (p n : Nat) : Nat := (p + 8 * n) % 2 ^ 32

/-- Where the loop of `free` ends. -/
def stops (h : Heap) (bp p : Nat) : Bool :=
  (bp > p && bp < h.ptr p) || (p ≥ h.ptr p && (bp > p || bp < h.ptr p))

/-- `bp` gets the block behind it, if the two touch. -/
def joinNext (h : Heap) (bp p : Nat) : Heap :=
  if plus bp (h.size bp) = h.ptr p then
    (h.setSize bp ((h.size bp + h.size (h.ptr p)) % 2 ^ 32)).setPtr bp (h.ptr (h.ptr p))
  else h.setPtr bp (h.ptr p)

/-- `bp` goes into `p`, if the two touch, or behind it. -/
def joinPrev (h : Heap) (bp p : Nat) : Heap :=
  if plus p (h.size p) = bp then (h.setSize p ((h.size p + h.size bp) % 2 ^ 32)).setPtr p (h.ptr bp)
  else h.setPtr p bp

/-- `free` with the header `bp`. -/
def freeHeader (n : Nat) (h : Heap) (bp : Nat) : Option Heap :=
  (follow h.ptr (h.stops bp) n h.freep).map fun p => { (h.joinNext bp p).joinPrev bp p with freep := p }

/-- `free(ap)` -/
def free (n : Nat) (h : Heap) (ap : Nat) : Option Heap := h.freeHeader n ((ap + 2 ^ 32 - 8) % 2 ^ 32)

/-- The size that `morecore` asks for. -/
def coreUnits (nu : Nat) : Nat := if nu < 4096 then 4096 else nu

/-- The argument of `sbrk`. -/
def coreBytes (nu : Nat) : Nat := coreUnits nu * 8 % 2 ^ 32

/-- `morecore` when `sbrk` returns `a`. -/
def morecore (n : Nat) (h : Heap) (nu a : Nat) : Option Heap :=
  ({ h with mem := ⟨a, coreBytes nu⟩ :: h.mem }.setSize a (coreUnits nu)).free n (plus a 1)

/-- A block of `nunits` from the block `p`, whose size is enough, with the block before it. -/
def take (h : Heap) (nunits prevp p : Nat) : Heap × Nat :=
  if h.size p = nunits then ({ h.setPtr prevp (h.ptr p) with freep := prevp }, plus p 1)
  else
    let h := h.setSize p ((h.size p + 2 ^ 32 - nunits) % 2 ^ 32)
    let p := plus p (h.size p)
    ({ h.setSize p nunits with freep := prevp }, plus p 1)

/-- The loop of `malloc`. For a number of units `sbrk` answers with an address, `none` for -1, and changes a state `t`
of its own. -/
def search {σ : Type} (sbrk : Nat → σ → Option (Option Nat × σ)) :
    Nat → Heap → σ → Nat → Nat → Nat → Option (Heap × σ × Nat)
  | 0, _, _, _, _, _ => none
  | n + 1, h, t, nunits, prevp, p =>
    if h.size p ≥ nunits then some ((h.take nunits prevp p).1, t, (h.take nunits prevp p).2)
    else if p = h.freep then
      match sbrk nunits t with
      | none => none
      | some (none, t) => some (h, t, 0)
      | some (some a, t) =>
        (h.morecore n nunits a).bind fun h => search sbrk n h t nunits h.freep (h.ptr h.freep)
    else search sbrk n h t nunits p (h.ptr p)

def nunits (nbytes : Nat) : Nat := (nbytes + 8 - 1) % 2 ^ 32 / 8 + 1

/-- The first call makes the list. -/
def start (h : Heap) (base : Nat) : Heap :=
  if h.freep = 0 then { (h.setPtr base base).setSize base 0 with freep := base } else h

/-- `malloc(nbytes)`, with `base` for `&base` and 0 for a null pointer. -/
def mallocWith {σ : Type} (sbrk : Nat → σ → Option (Option Nat × σ)) (n base : Nat) (h : Heap) (t : σ) (nbytes : Nat) :
    Option (Heap × σ × Nat) :=
  let h := h.start base
  h.search sbrk n t (nunits nbytes) h.freep (h.ptr h.freep)

/-- `sbrk` with a list of answers. -/
def answer (_ : Nat) : List (Option Nat) → Option (Option Nat × List (Option Nat))
  | [] => none
  | a :: l => some (a, l)

def malloc (n : Nat) (base : Nat) (h : Heap) (nbytes : Nat) (sbrk : List (Option Nat)) : Option (Heap × Nat) :=
  (h.mallocWith answer n base sbrk nbytes).map fun r => (r.1, r.2.2)

end Heap

/-! ## Programs -/

/-- `live` are the blocks that the program has. -/
structure State where
  heap : Heap
  live : List Block

inductive Act where
  /-- With fuel and the answer of `sbrk`, if it is asked. -/
  | malloc (n nbytes : Nat) (sbrk : Option Nat)
  | free (n : Nat) (b : Block)
  /-- The program writes to one of its blocks, behind the header. -/
  | write (x ptr size : Nat)

/-- The address is in the part of a block that the program may write. -/
def Block.payload (b : Block) (x : Nat) : Prop := b.addr + 8 ≤ x ∧ x < b.addr + 8 * b.units

instance (b : Block) (x : Nat) : Decidable (b.payload x) := inferInstanceAs (Decidable (_ ∧ _))

/-- `sbrk` gives a new region of `bytes` bytes, above `base` and above the earlier ones. The address behind it
exists. -/
def Fresh (base : Nat) (h : Heap) (bytes : Nat) : Option Nat → Prop
  | none => True
  | some a => a % 8 = 0 ∧ base + 8 ≤ a ∧ (∀ r ∈ h.mem, r.addr + r.bytes ≤ a) ∧ a + bytes < 2 ^ 32

instance (base : Nat) (h : Heap) (bytes : Nat) : (a : Option Nat) → Decidable (Fresh base h bytes a)
  | none => inferInstanceAs (Decidable True)
  | some _ => inferInstanceAs (Decidable (_ ∧ _ ∧ _ ∧ _))

/-- What a program may do. -/
def Allowed (base : Nat) (s : State) : Act → Prop
  | .malloc _ nbytes sbrk => nbytes ≤ 2 ^ 30 ∧ Fresh base s.heap (Heap.coreBytes (Heap.nunits nbytes)) sbrk
  | .free _ b => b ∈ s.live
  | .write x _ _ => ∃ b ∈ s.live, b.payload x

instance (base : Nat) (s : State) : (a : Act) → Decidable (Allowed base s a)
  | .malloc _ _ _ => inferInstanceAs (Decidable (_ ∧ _))
  | .free _ b => inferInstanceAs (Decidable (b ∈ s.live))
  | .write x _ _ => inferInstanceAs (Decidable (∃ b ∈ s.live, b.payload x))

def step (base : Nat) (s : State) (a : Act) : Option State :=
  if Allowed base s a then
    match a with
    | .malloc n nbytes sbrk =>
      (s.heap.malloc n base nbytes [sbrk]).map fun r =>
        { heap := r.1, live := if r.2 = 0 then s.live else ⟨r.2 - 8, Heap.nunits nbytes⟩ :: s.live }
    | .free n b => (s.heap.free n (Heap.plus b.addr 1)).map fun h => { heap := h, live := s.live.erase b }
    | .write x ptr size => some { s with heap := (s.heap.setPtr x ptr).setSize x size }
  else none

/-- Before the first call. -/
structure Init (s : State) : Prop where
  freep : s.heap.freep = 0
  mem : s.heap.mem = []
  live : s.live = []

def system (base : Nat) : System State Act := ⟨Init, step base⟩

end Xv6.Malloc
