import Xv6.Malloc.Proofs
import Xv6.Vm.Sbrk

/-!
# Requests of every size

`malloc` with the `sbrk` of the kernel. The size in headers is an `uint`, and `sbrk` gets the size in bytes as
an `int`, so a request of `2 ^ 31 - 15` bytes or more is misunderstood.
-/

open Lib

namespace Xv6.Malloc

open Heap

/-- A `uint` as an `int`. -/
def toInt (x : Nat) : Int := if x < 2 ^ 31 then x else x - 2 ^ 32

/-- `sys_sbrk(n)` in a process of size `sz`: its value, `none` for -1, and the new size. `room` is whether `allocuvm`
finds the pages. -/
def sbrk (sz : Nat) (n : Int) (room : Bool) : Option Nat × Nat :=
  let newsz := ((sz + n) % 2 ^ 32).toNat
  if n > 0 then
    if newsz ≥ KERNBASE then (none, sz)
    else if newsz < sz then (some sz, sz)
    else if room then (some sz, newsz)
    else (none, sz)
  else if n < 0 then
    let r := if newsz ≥ sz then sz else newsz
    if r = 0 then (none, sz) else (some sz, r)
  else (some sz, sz)

structure Proc where
  heap : Heap
  live : List Block
  sz : Nat

namespace Proc

/-- `sbrk` for the loop of `malloc`, with the size of the process. `rooms` is for the calls. -/
def ask (nunits : Nat) : Nat × List Bool → Option (Option Nat × Nat × List Bool)
  | (_, []) => none
  | (sz, room :: rooms) =>
    match sbrk sz (toInt (coreBytes nunits)) room with
    -- A process that has given back its last page does not come back from `sbrk`.
    | (none, sz) => if toInt (coreBytes nunits) < 0 then none else some (none, sz, rooms)
    -- The header is written behind the last page of the process.
    | (some a, sz) => if (sz + PGSIZE - 1) / PGSIZE * PGSIZE < a + 8 then none else some (some a, sz, rooms)

def malloc (n base : Nat) (s : Proc) (nbytes : Nat) (rooms : List Bool) : Option (Proc × Nat) :=
  (s.heap.mallocWith ask n base (s.sz, rooms) nbytes).map fun r => ({ s with heap := r.1, sz := r.2.1.1 }, r.2.2)

inductive Act where
  | malloc (n nbytes : Nat) (room : Bool)
  | free (n : Nat) (b : Block)
  | write (x ptr size : Nat)

def step (base : Nat) (s : Proc) : Act → Option Proc
  | .malloc n nbytes room =>
    (s.malloc n base nbytes [room]).map fun r =>
      { r.1 with live := if r.2 = 0 then s.live else ⟨r.2 - 8, nunits nbytes⟩ :: s.live }
  | .free n b =>
    if b ∈ s.live then (s.heap.free n (plus b.addr 1)).map fun h => { s with heap := h, live := s.live.erase b }
      else none
  | .write x ptr size =>
    if ∃ b ∈ s.live, b.payload x then some { s with heap := (s.heap.setPtr x ptr).setSize x size } else none

structure Init (base : Nat) (s : Proc) : Prop where
  freep : s.heap.freep = 0
  mem : s.heap.mem = []
  live : s.live = []
  aligned : s.sz % 8 = 0
  above : base + 8 ≤ s.sz
  size : s.sz < KERNBASE

def system (base : Nat) : System Proc Act := ⟨Init base, step base⟩

end Proc

variable {base n nu prevp p nbytes sz : Nat} {h h' : Heap} {s s' : Proc} {room : Bool} {q : Nat}

theorem sbrk_grow (hsz : sz < KERNBASE) (hlo : 0 < n) (hhi : n < 2 ^ 31) (room : Bool) :
    sbrk sz n room = (none, sz) ∨ sbrk sz n room = (some sz, sz + n) ∧ sz + n < KERNBASE := by
  have hk : KERNBASE = 2 ^ 31 := rfl
  have hnew : (((sz : Int) + n) % 2 ^ 32).toNat = sz + n := by omega
  unfold sbrk
  rw [hnew, if_pos (by omega)]
  split_ifs with hge hlt
  · exact .inl rfl
  · omega
  · exact .inr ⟨rfl, by omega⟩
  · exact .inl rfl

/-- **The allocator's `sbrk` is the kernel's.** For a process with exactly the pages of its size, `growproc` succeeds or
fails as `sbrk` does, for one answer to whether there is room, and leaves the same size. -/
theorem sbrk_growproc {nproc : Nat} {t : Vm.State nproc} {pr : Fin nproc} {i : Vm.Image} {k : Int}
    (ht : Vm.Exactly t pr i) (hpos : 0 < i.sz) (hlo : -2 ^ 31 ≤ k) (hhi : k < 2 ^ 31) (fails : List Bool) :
    ∃ room t', Vm.growproc t pr k fails = some ((sbrk i.sz k room).1.isSome, t') ∧
      t'.slot pr = .live { i with sz := (sbrk i.sz k room).2 } := by
  obtain ⟨r, m', hrun, hg⟩ := ht.grown hlo hhi fails
  have heq := Vm.growproc_eq ht.live hrun
  have hk : i.sz < 2 ^ 31 := ht.size
  rcases hg.pages with ⟨hr, hkpos, -⟩ | ⟨hnn, hr, hlt, -⟩ | ⟨hneg, hr, -⟩
  · -- The kernel finds no room.
    have hnew : (((i.sz : Int) + k) % 2 ^ 32).toNat = i.sz + k.toNat := by omega
    have hfail : sbrk i.sz k false = (none, i.sz) := by
      unfold sbrk
      dsimp only
      rw [hnew]
      split_ifs
      all_goals first | rfl | omega | contradiction
    refine ⟨false, { t with vm := m' }, ?_, ?_⟩
    · rw [heq, if_pos ⟨hr, by omega⟩, hfail]
      rfl
    · rw [hfail]
      exact ht.live
  · have hnew : (((i.sz : Int) + k) % 2 ^ 32).toNat = r := by omega
    by_cases hzero : r = 0 ∧ k ≠ 0
    · have hfail : sbrk i.sz k true = (none, i.sz) := by
        unfold sbrk
        dsimp only
        rw [hnew]
        split_ifs
        all_goals first | rfl | omega
      refine ⟨true, { t with vm := m' }, ?_, ?_⟩
      · rw [heq, if_pos hzero, hfail]
        rfl
      · rw [hfail]
        exact ht.live
    · have hok : sbrk i.sz k true = (some i.sz, r) := by
        unfold sbrk
        dsimp only
        rw [hnew]
        split_ifs
        all_goals first | rfl | omega | contradiction | (congr 1; omega)
      refine ⟨true, { t with vm := m' }.set pr (.live { i with sz := r }), ?_, ?_⟩
      · rw [heq, if_neg hzero, hok]
        rfl
      · rw [hok]
        exact Vm.set_slot ..
  · have hnew : (((i.sz : Int) + k) % 2 ^ 32).toNat = i.sz + (k + 2 ^ 32).toNat := by omega
    have hok : sbrk i.sz k true = (some i.sz, i.sz) := by
      unfold sbrk
      dsimp only
      rw [hnew]
      split_ifs
      all_goals first | rfl | omega
    refine ⟨true, { t with vm := m' }.set pr (.live { i with sz := r }), ?_, ?_⟩
    · rw [heq, if_neg (by omega), hok]
      rfl
    · rw [hok, hr]
      exact Vm.set_slot ..

theorem sbrk_growproc_booted :
    ∃ room t', Vm.growproc Vm.booted 0 10000 [] = some ((sbrk PGSIZE 10000 room).1.isSome, t') ∧
    t'.slot 0 = .live ⟨57343, 57342, (sbrk PGSIZE 10000 room).2⟩ :=
  sbrk_growproc Vm.booted_exactly (by decide) (by decide) (by decide) []

theorem free_mem {a : Nat} (hm : h.free n a = some h') : h'.mem = h.mem := by
  unfold Heap.free Heap.freeHeader at hm
  obtain ⟨x, -, rfl⟩ := Option.map_eq_some_iff.mp hm
  unfold Heap.joinPrev Heap.joinNext
  split_ifs <;> rfl

namespace Proc

theorem coreBytes_lt (hnu : nu < 2 ^ 28) : 8 ≤ coreBytes nu ∧ coreBytes nu < 2 ^ 31 ∧ coreBytes nu % 8 = 0 := by
  obtain ⟨hbytes, hunits⟩ := coreBytes_eq hnu
  rw [hbytes]
  unfold coreUnits at hunits ⊢
  split_ifs at hunits ⊢ <;> omega

theorem ask_eq (hsz : sz < KERNBASE) (hnu : nu < 2 ^ 28) (room : Bool) :
    ask nu (sz, [room]) = some ((sbrk sz (coreBytes nu) room).1, (sbrk sz (coreBytes nu) room).2, []) := by
  obtain ⟨hlo, hhi, -⟩ := coreBytes_lt hnu
  have hint : toInt (coreBytes nu) = coreBytes nu := if_pos hhi
  have hpage : ¬ (sz + coreBytes nu + PGSIZE - 1) / PGSIZE * PGSIZE < sz + 8 := by
    rw [show PGSIZE = 4096 from rfl]
    omega
  dsimp only [ask]
  rcases sbrk_grow hsz (by omega) hhi room with hno | ⟨hyes, -⟩
  · rw [hint, hno]
    exact if_neg (by omega)
  · rw [hint, hyes]
    exact if_neg hpage

structure Fits (base : Nat) (s : Proc) : Prop where
  sound : Sound base ⟨s.heap, s.live⟩
  below : ∀ r ∈ s.heap.mem, r.addr + r.bytes ≤ s.sz
  aligned : s.sz % 8 = 0
  above : base + 8 ≤ s.sz
  size : s.sz < KERNBASE

theorem Fits.fresh (hf : Fits base s) (hlo : 0 < nu) (hhi : nu < 2 ^ 31) (room : Bool) :
    Fresh base s.heap nu (sbrk s.sz nu room).1 := by
  rcases sbrk_grow hf.size hlo hhi room with hno | ⟨hyes, hlt⟩
  · rw [hno]
    trivial
  · rw [hyes]
    have : KERNBASE = 2 ^ 31 := rfl
    exact ⟨hf.aligned, hf.above, hf.below, by omega⟩

theorem malloc_mono {m : Nat} {rooms : List Bool} {r : Proc × Nat} (hnm : n ≤ m)
    (hs : s.malloc n base nbytes rooms = some r) : s.malloc m base nbytes rooms = some r := by
  obtain ⟨r, hr, rfl⟩ := Option.map_eq_some_iff.mp hs
  rw [malloc, mallocWith, search_mono hnm hr]
  rfl

/-- **`malloc` of at most `2 ^ 31 - 16` bytes** returns, with 0 or with a new block. -/
theorem Fits.malloc (hbase : 0 < base) (hf : Fits base s) (hn : nbytes ≤ 2 ^ 31 - 16) (room : Bool) :
    ∃ s' q n₀, (∀ n, n₀ ≤ n → s.malloc n base nbytes [room] = some (s', q)) ∧ s.sz ≤ s'.sz ∧
      (q = 0 ∧ Fits base { s' with live := s.live } ∨
        ∃ b, q = b + 8 ∧ Fits base { s' with live := ⟨b, nunits nbytes⟩ :: s.live }) := by
  obtain ⟨⟨l, hp⟩, hmem⟩ := hf.sound.start hbase
  obtain ⟨hle, hmax⟩ := le_nunits hn
  obtain ⟨hpos, hlt, h8⟩ := coreBytes_lt hmax
  obtain ⟨h', ⟨sz', rooms⟩, q, hr, hret, hasked⟩ := hp.search (by omega) hmax (ask_eq hf.size hmax room)
    (fresh_congr hmem (hf.fresh (by omega) hlt room))
  have hmemory : sz' = s.sz ∧ h'.mem = s.heap.mem ∨ sz' = s.sz + coreBytes (nunits nbytes) ∧ sz' < KERNBASE ∧
      h'.mem = ⟨s.sz, coreBytes (nunits nbytes)⟩ :: s.heap.mem := by
    rw [hmem] at hasked
    rcases hasked with ⟨ht, hm⟩ | ⟨ht, hm⟩
    · exact .inl ⟨congrArg Prod.fst ht, hm⟩
    · rcases sbrk_grow hf.size (by omega) hlt room with hno | ⟨hyes, hk⟩
      · rw [hno] at ht hm
        exact .inl ⟨congrArg Prod.fst ht, hm⟩
      · rw [hyes] at ht hm
        obtain rfl : sz' = s.sz + coreBytes (nunits nbytes) := congrArg Prod.fst ht
        exact .inr ⟨rfl, hk, hm⟩
  have hfits : ∀ live', (∃ l', Partition base h' l' live') → Fits base ⟨h', live', sz'⟩ := by
    rintro live' ⟨l', hp'⟩
    have hal := hf.aligned
    have hab := hf.above
    rcases hmemory with ⟨rfl, hm⟩ | ⟨rfl, hk, hm⟩
    · exact ⟨.inr ⟨l', hp'⟩, hm ▸ hf.below, hal, hab, hf.size⟩
    · refine ⟨.inr ⟨l', hp'⟩, ?_, ?_, ?_, hk⟩ <;> dsimp only
      · rw [hm]
        exact List.forall_mem_cons.mpr ⟨le_rfl, fun r hr => (hf.below r hr).trans (Nat.le_add_right ..)⟩
      · omega
      · omega
  refine ⟨⟨h', s.live, sz'⟩, q, 2 * l.length + 3, fun n hn => ?_, ?_, ?_⟩
  · obtain ⟨m, rfl⟩ : ∃ m, n = m + 2 * l.length + 3 := ⟨n - 2 * l.length - 3, by omega⟩
    rw [Proc.malloc, mallocWith, hr]
    rfl
  · dsimp only
    omega
  · rcases hret with ⟨hzero, -, hpart⟩ | ⟨b, l', hq, hpart⟩
    · exact .inl ⟨hzero, hfits _ hpart⟩
    · exact .inr ⟨b, hq, hfits _ ⟨l', hpart⟩⟩

theorem Fits.free {b : Block} (hf : Fits base s) (hb : b ∈ s.live) (hfree : s.heap.free n (plus b.addr 1) = some h) :
    Fits base { s with heap := h, live := s.live.erase b } := by
  obtain ⟨h', n₀, hh', hsound⟩ := hf.sound.free hb
  have hmono : s.heap.free (max n n₀) (plus b.addr 1) = some h := freeHeader_mono (Nat.le_max_left n n₀) hfree
  rw [hh' _ (Nat.le_max_right n n₀)] at hmono
  cases hmono
  refine ⟨hsound, ?_, hf.aligned, hf.above, hf.size⟩
  rw [free_mem hfree]
  exact hf.below

theorem Fits.write {b : Block} {x ptr size : Nat} (hf : Fits base s) (hb : b ∈ s.live) (hx : b.payload x) :
    Fits base { s with heap := (s.heap.setPtr x ptr).setSize x size } := by
  refine ⟨?_, hf.below, hf.aligned, hf.above, hf.size⟩
  rcases hf.sound with ⟨-, -, hlive⟩ | ⟨l, hp⟩
  · rw [show s.live = [] from hlive] at hb
    cases hb
  · exact .inr ⟨l, hp.write hb hx⟩

theorem Fits.live_le (hf : Fits base s) (b : Block) (hb : b ∈ s.live) : b.addr + 8 * b.units ≤ s.sz := by
  rcases hf.sound with ⟨-, -, hlive⟩ | ⟨l, hp⟩
  · rw [show s.live = [] from hlive] at hb
    cases hb
  · have hpos := hp.pos b hb
    obtain ⟨r, hr, hry⟩ := (hp.covers (b.addr + 8 * b.units - 1)).mp (.inr ⟨b, hb, by unfold Block.Has; omega⟩)
    have := hf.below r hr
    unfold Region.Has at hry
    omega

def Small (_ : Proc) : Act → Prop
  | .malloc _ nbytes _ => nbytes ≤ 2 ^ 31 - 16
  | _ => True

theorem step_fits {a : Act} (hbase : 0 < base) (hf : Fits base s) (ha : Small s a) (hstep : step base s a = some s') :
    Fits base s' := by
  cases a with
  | malloc n nbytes room =>
    obtain ⟨⟨s₁, q⟩, hr, rfl⟩ := Option.map_eq_some_iff.mp hstep
    obtain ⟨s₂, q', n₀, hr', -, hor⟩ := hf.malloc hbase ha room
    have hmono := malloc_mono (Nat.le_max_left n n₀) hr
    rw [hr' _ (Nat.le_max_right n n₀)] at hmono
    cases hmono
    rcases hor with ⟨rfl, hfits⟩ | ⟨b, rfl, hfits⟩
    · exact hfits
    · exact hfits
  | free n b =>
    unfold step at hstep
    dsimp only at hstep
    split_ifs at hstep with hb
    obtain ⟨h, hh, rfl⟩ := Option.map_eq_some_iff.mp hstep
    exact hf.free hb hh
  | write x ptr size =>
    unfold step at hstep
    dsimp only at hstep
    split_ifs at hstep with hx
    cases hstep
    obtain ⟨b, hb, hx⟩ := hx
    exact hf.write hb hx

theorem init_fits (hs : Init base s) : Fits base s := by
  refine ⟨.inl ⟨hs.freep, hs.mem, hs.live⟩, ?_, hs.aligned, hs.above, hs.size⟩
  rw [hs.mem]
  nofun

theorem reach_fits (hbase : 0 < base) (hs : (system base).ReachIf Small s) : Fits base s :=
  (system base).reachIf_inv Small (Fits base) (fun _ => init_fits)
    (fun _ _ _ hf ha hstep => step_fits hbase hf ha hstep) s hs

theorem sbrk_size (hsz : sz < KERNBASE) (k : Int) (room : Bool) : (sbrk sz k room).2 < KERNBASE := by
  unfold sbrk
  dsimp only
  split_ifs <;> dsimp only <;> omega

theorem ask_size {t t' : Nat × List Bool} {r : Option Nat} (hsz : t.1 < KERNBASE) (hask : ask nu t = some (r, t')) :
    t'.1 < KERNBASE := by
  obtain ⟨sz, _ | ⟨room, rooms⟩⟩ := t
  · cases hask
  have hsize := sbrk_size hsz (toInt (coreBytes nu)) room
  unfold ask at hask
  split at hask
  · cases hask
  rename_i heq
  cases heq
  split at hask <;> rename_i heq <;> rw [heq] at hsize <;> split_ifs at hask <;> cases hask <;> exact hsize

theorem malloc_size {rooms : List Bool} (hsz : s.sz < KERNBASE) (hs : s.malloc n base nbytes rooms = some (s', q)) :
    s'.sz < KERNBASE := by
  obtain ⟨⟨h', t, q'⟩, hr, he⟩ := Option.map_eq_some_iff.mp hs
  cases he
  exact search_inv (fun t => t.1 < KERNBASE) (fun _ _ _ => ask_size) hsz hr

end Proc

structure Owned (base : Nat) (s s' : Proc) (q nbytes : Nat) : Prop where
  above : base + 16 ≤ q
  below : q + nbytes ≤ s'.sz
  apart : ∀ y, q ≤ y → y < q + nbytes → ∀ b ∈ s.live, ¬ b.Has y

/-- The sizes are computed as they are meant, `malloc` returns 0 or memory, and no block is lost. -/
structure MallocSafe (base : Nat) (s : Proc) (nbytes : Nat) (room : Bool) : Prop where
  units : nunits nbytes = (nbytes + 7) / 8 + 1
  bytes : toInt (coreBytes (nunits nbytes)) = 8 * coreUnits (nunits nbytes)
  returns : ∃ s' q n₀, (∀ n, n₀ ≤ n → s.malloc n base nbytes [room] = some (s', q)) ∧
    (q = 0 ∨ Owned base s s' q nbytes) ∧
    ∀ b ∈ s.live, b.addr + 8 * b.units ≤ s'.sz

/-- **`malloc` is safe for at most `2 ^ 31 - 16` bytes.** A larger request that does not return 0 returns too little. -/
theorem malloc_every_size (hbase : 0 < base) (hs : (Proc.system base).ReachIf Proc.Small s) (hn : nbytes < 2 ^ 32)
    (room : Bool) : (MallocSafe base s nbytes room ↔ nbytes ≤ 2 ^ 31 - 16) ∧
      (2 ^ 31 - 16 < nbytes → ∀ n s' q, s.malloc n base nbytes [room] = some (s', q) → ¬ Owned base s s' q nbytes) := by
  have hf := Proc.reach_fits hbase hs
  refine ⟨⟨fun hsafe => ?_, fun hsmall => ?_⟩, fun hlarge n s' q hmalloc howned => ?_⟩
  · have hunits := hsafe.units
    have hbytes := hsafe.bytes
    rw [hunits] at hbytes
    unfold nunits at hunits
    unfold toInt coreBytes coreUnits at hbytes
    split_ifs at hbytes <;> omega
  · obtain ⟨hle, hmax⟩ := le_nunits hsmall
    obtain ⟨-, hlt, -⟩ := Proc.coreBytes_lt hmax
    obtain ⟨s', q, n₀, hr, hsz, hor⟩ := hf.malloc hbase hsmall room
    refine ⟨?_, ?_, s', q, n₀, hr, ?_, fun b hb => (hf.live_le b hb).trans hsz⟩
    · unfold nunits
      omega
    · rw [toInt, if_pos hlt, (coreBytes_eq hmax).1]
      rfl
    · rcases hor with ⟨hzero, -⟩ | ⟨b, rfl, hfits⟩
      · exact .inl hzero
      · right
        have hend := hfits.live_le ⟨b, nunits nbytes⟩ List.mem_cons_self
        dsimp only at hend
        rcases hfits.sound with ⟨-, -, hlive⟩ | ⟨l, hp⟩
        · cases hlive
        have habove := hp.above _ List.mem_cons_self
        dsimp only at habove
        refine ⟨by omega, by omega, fun y hlo hhi c hc hy => ?_⟩
        have := (List.pairwise_cons.mp hp.disjoint).1 c hc
        unfold Block.Has at hy
        dsimp only at this
        omega
  · have hk := Proc.malloc_size hf.size hmalloc
    have : KERNBASE = 2 ^ 31 := rfl
    have := howned.above
    have := howned.below
    omega

def threePages : Proc := ⟨⟨fun _ => 0, fun _ => 0, 0, []⟩, [], 12288⟩

theorem threePages_init : Proc.Init 104 threePages := ⟨rfl, rfl, rfl, by decide, by decide, by decide⟩

/-- `malloc` of all but one byte of the address space returns a block of one header and no bytes, at the end of the
process. `malloc` of half the address space asks for a negative number of bytes: the process does not grow, and the
block is behind its end. -/
theorem malloc_misunderstands : Proc.Init 104 threePages ∧
    (threePages.malloc 9 104 (2 ^ 32 - 1) [true]).map (fun r => (r.2, r.1.heap.size (r.2 - 8), r.1.sz)) =
    some (45056, 1, 45056) ∧
    ((Proc.step 104 threePages (.malloc 9 40000 true)).bind fun s => (s.malloc 9 104 (2 ^ 31) [true]).map fun r =>
      (toInt (coreBytes (nunits (2 ^ 31))), r.2, s.sz, r.1.sz)) = some (-2147483640, 52304, 52296, 52296) := by
  refine ⟨threePages_init, ?_, ?_⟩ <;> decide +kernel

theorem malloc_every_size_threePages : MallocSafe 104 threePages 100 true :=
  (malloc_every_size (by decide) (.init _ threePages_init) (by decide) true).1.mpr (by decide)

end Xv6.Malloc
