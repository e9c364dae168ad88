import Mathlib
import Xv6.Bio.Code
import Xv6.Lib.Count
import Xv6.Lib.System

/-!
# The representation of the buffer cache

Any number of processes call `bget` and `brelse`. Each stretch of code under `bcache.lock` is
one step, and so are `acquiresleep` and `releasesleep` of a buffer's own lock.
-/

open Lib Function

namespace Xv6.Cache

def Linked (c : Bcache) : Prop := ∃ ys, Ring c.links ys ∧ ∀ i, i ∈ ys

variable (c : Bcache) (i : Fin NBUF)

theorem ring_length (ys : List (Fin NBUF)) (hn : ys.Nodup) (hall : ∀ i, i ∈ ys) : ys.length = NBUF := by
  rw [← List.toFinset_card_of_nodup hn, Finset.eq_univ_of_forall (fun i => List.mem_toFinset.mpr (hall i)),
    Finset.card_univ, Fintype.card_fin]

theorem binit_loop (l : Links (Fin NBUF)) (xs ys : List (Fin NBUF)) (h : Ring l ys)
    (hn : xs.Nodup) (hd : ∀ i ∈ xs, i ∉ ys) :
    Ring (xs.foldl (fun l i => l.pushFront (some i)) l) (xs.reverse ++ ys) := by
  induction xs generalizing l ys with
  | nil => exact h
  | cons x xs ih =>
    rw [List.nodup_cons] at hn
    rw [List.foldl_cons, List.reverse_cons, List.append_assoc]
    apply ih _ _ (ring_pushFront l ys x h (hd x (by simp))) hn.2
    intro i hi hm
    rcases List.mem_cons.mp hm with rfl | hm
    · exact hn.1 hi
    · exact hd i (List.mem_cons_of_mem _ hi) hm

theorem binit_linked : Linked c.binit := by
  refine ⟨(List.finRange NBUF).reverse ++ [], ?_, by simp⟩
  apply binit_loop _ _ _ (ring_empty _ (by simp [Links.setNext]) (by simp [Links.setNext, Links.setPrev]))
    (List.nodup_finRange _)
  simp

theorem brelseSection_linked (h : Linked c) : Linked (c.brelseSection i) := by
  unfold Bcache.brelseSection
  dsimp only
  split
  · obtain ⟨ys, hr, hall⟩ := h
    obtain ⟨xs, zs, rfl⟩ := List.append_of_mem (hall i)
    have hu := ring_unlink c.links xs zs i hr
    have hi : i ∉ xs ++ zs := by
      have := hr.2
      rw [List.nodup_append] at this
      simp only [List.nodup_cons, List.mem_cons] at this
      rw [List.mem_append]
      rintro (hx | hz)
      · exact this.2.2 i hx i (Or.inl rfl) rfl
      · exact this.2.1.1 hz
    refine ⟨i :: (xs ++ zs), ring_pushFront _ _ i hu hi, fun j => ?_⟩
    have := hall j
    simp only [List.mem_append, List.mem_cons] at this ⊢
    tauto
  · exact h

theorem scan_all (p : Fin NBUF → Bool) (h : Linked c) :
    (∃ i, p i = true ∧ scan c.links.next p (NBUF + 1) (c.links.next none) = some (some i)) ∨
    (∀ i, p i = false) ∧ scan c.links.next p (NBUF + 1) (c.links.next none) = some none := by
  obtain ⟨ys, hr, hall⟩ := h
  have hs := scan_next c.links p ys hr
  rw [ring_length ys hr.2 hall] at hs
  cases hf : ys.find? p with
  | none =>
    right
    exact ⟨fun i => by simpa using List.find?_eq_none.mp hf i (hall i), by rw [hs, hf]⟩
  | some i => left; exact ⟨i, List.find?_some hf, by rw [hs, hf]⟩

theorem scan_all_prev (p : Fin NBUF → Bool) (h : Linked c) :
    (∃ i, p i = true ∧ scan c.links.prev p (NBUF + 1) (c.links.prev none) = some (some i)) ∨
    (∀ i, p i = false) ∧ scan c.links.prev p (NBUF + 1) (c.links.prev none) = some none := by
  obtain ⟨ys, hr, hall⟩ := h
  exact scan_all { c with links := c.links.swap } p ⟨ys.reverse, ring_swap _ _ hr, by simpa using hall⟩

def hit (c : Bcache) (i : Fin NBUF) : Bcache := c.setBuf i fun b => { b with refcnt := b.refcnt + 1 }

def recycle (c : Bcache) (dev blockno : Nat) (i : Fin NBUF) : Bcache :=
  c.setBuf i fun b => { b with dev := dev, blockno := blockno, valid := false, dirty := false, refcnt := 1 }

theorem bgetSection_cases (dev blockno : Nat) (h : Linked c) :
    (∃ i, c.isBlock dev blockno i = true ∧ c.bgetSection dev blockno = .ok (i, hit c i)) ∨
    (∃ i, (∀ j, c.isBlock dev blockno j = false) ∧ c.isUnused i = true ∧
      c.bgetSection dev blockno = .ok (i, recycle c dev blockno i)) ∨
    (∀ j, c.isBlock dev blockno j = false) ∧ (∀ j, c.isUnused j = false) ∧
      c.bgetSection dev blockno = .error (.panic "bget: no buffers") := by
  unfold Bcache.bgetSection
  rcases scan_all c (c.isBlock dev blockno) h with ⟨i, hi, hs⟩ | ⟨hno, hs⟩
  · left; exact ⟨i, hi, by rw [hs]; rfl⟩
  · right
    rw [hs]
    rcases scan_all_prev c c.isUnused h with ⟨i, hi, hs'⟩ | ⟨hno', hs'⟩
    · left; exact ⟨i, hno, hi, by rw [hs']; rfl⟩
    · right; exact ⟨hno, hno', by rw [hs']⟩

inductive Pc where
  | idle
  /-- In `acquiresleep`, at the end of `bget`. -/
  | waiting (i : Fin NBUF)
  /-- In `brelse`, past its `releasesleep`. -/
  | releasing (i : Fin NBUF)
  deriving DecidableEq, Repr

structure State (nproc : Nat) where
  bcache : Bcache
  pc : Fin nproc → Pc

inductive Act (nproc : Nat) where
  | bget (p : Fin nproc) (dev blockno : Nat)
  | acquiresleep (p : Fin nproc)
  | write (p : Fin nproc) (i : Fin NBUF) (valid dirty : Bool) (data : Block)
  | brelse (p : Fin nproc) (i : Fin NBUF)
  | brelseSection (p : Fin nproc)

variable {nproc : Nat}

def setPc (s : State nproc) (p : Fin nproc) (c : Bcache) (pc : Pc) : State nproc :=
  { bcache := c, pc := update s.pc p pc }

def step (s : State nproc) : Act nproc → Option (State nproc)
  | .bget p dev blockno =>
    if s.pc p = .idle then
      match s.bcache.bgetSection dev blockno with
      | .ok (i, c) => some (setPc s p c (.waiting i))
      | .error _ => none
    else none
  | .acquiresleep p =>
    match s.pc p with
    | .waiting i => (s.bcache.acquiresleep p i).map fun c => setPc s p c .idle
    | _ => none
  | .write p i valid dirty data =>
    -- The holder of the sleep-lock changes flags and data: `iderw`, `log_write`, the caller itself.
    if s.pc p = .idle ∧ s.bcache.holdingsleep p i then
      some (setPc s p (s.bcache.setBuf i fun b => { b with valid := valid, dirty := dirty, data := data }) .idle)
    else none
  | .brelse p i =>
    if s.pc p = .idle ∧ s.bcache.holdingsleep p i then
      some (setPc s p (s.bcache.releasesleep i) (.releasing i))
    else none
  | .brelseSection p =>
    match s.pc p with
    | .releasing i => some (setPc s p (s.bcache.brelseSection i) .idle)
    | _ => none

def system (nproc : Nat) : System (State nproc) (Act nproc) where
  init s := s = { bcache := Bcache.boot.binit, pc := fun _ => .idle }
  step := step

/-- What a step can do, once the links are known to be good. -/
inductive Move (s : State nproc) : State nproc → Prop where
  | hit (p : Fin nproc) (i : Fin NBUF) (hp : s.pc p = .idle) : Move s (setPc s p (hit s.bcache i) (.waiting i))
  | recycle (p : Fin nproc) (i : Fin NBUF) (dev blockno : Nat) (hp : s.pc p = .idle)
      (hno : ∀ j, s.bcache.isBlock dev blockno j = false) (hi : s.bcache.isUnused i = true) :
      Move s (setPc s p (recycle s.bcache dev blockno i) (.waiting i))
  | acquire (p : Fin nproc) (i : Fin NBUF) (hp : s.pc p = .waiting i) (hi : (s.bcache.buf i).lock.locked = false) :
      Move s (setPc s p (s.bcache.setBuf i fun b => { b with lock := ⟨true, p⟩ }) .idle)
  | write (p : Fin nproc) (i : Fin NBUF) (v d : Bool) (data : Block) (hp : s.pc p = .idle)
      (hi : s.bcache.holdingsleep p i = true) :
      Move s (setPc s p (s.bcache.setBuf i fun b => { b with valid := v, dirty := d, data := data }) .idle)
  | release (p : Fin nproc) (i : Fin NBUF) (hp : s.pc p = .idle) (hi : s.bcache.holdingsleep p i = true) :
      Move s (setPc s p (s.bcache.releasesleep i) (.releasing i))
  | put (p : Fin nproc) (i : Fin NBUF) (hp : s.pc p = .releasing i) :
      Move s (setPc s p (s.bcache.brelseSection i) .idle)

theorem move_of_step (s s' : State nproc) (a : Act nproc) (hl : Linked s.bcache) (hs : step s a = some s') :
    Move s s' := by
  cases a with
  | bget p dev blockno =>
    simp only [step] at hs
    split at hs
    · rename_i hp
      rcases bgetSection_cases s.bcache dev blockno hl with ⟨i, hi, he⟩ | ⟨i, hno, hi, he⟩ | ⟨-, -, he⟩
      · rw [he] at hs; cases hs; exact .hit p i hp
      · rw [he] at hs; cases hs; exact .recycle p i dev blockno hp hno hi
      · rw [he] at hs; cases hs
    · cases hs
  | acquiresleep p =>
    simp only [step] at hs
    split at hs
    · rename_i i hp
      unfold Bcache.acquiresleep at hs
      split at hs
      · cases hs
      · rename_i hi; cases hs; exact .acquire p i hp (by simpa using hi)
    · cases hs
  | write p i v d data =>
    simp only [step] at hs
    split at hs
    · rename_i h; cases hs; exact .write p i v d data h.1 h.2
    · cases hs
  | brelse p i =>
    simp only [step] at hs
    split at hs
    · rename_i h; cases hs; exact .release p i h.1 h.2
    · cases hs
  | brelseSection p =>
    simp only [step] at hs
    split at hs
    · rename_i i hp; cases hs; exact .put p i hp
    · cases hs

def sameBlock (c : Bcache) (i j : Fin NBUF) : Prop :=
  (c.buf i).dev = (c.buf j).dev ∧ (c.buf i).blockno = (c.buf j).blockno

def Unique (c : Bcache) : Prop := ∀ i j, (c.buf i).dev ≠ 0 → sameBlock c i j → i = j

/-- How often process `p` is counted in the `refcnt` of buffer `i`. -/
def uses (s : State nproc) (i : Fin NBUF) (p : Fin nproc) : Nat :=
  (if s.bcache.holdingsleep p i then 1 else 0) + (if s.pc p = .waiting i then 1 else 0) +
    (if s.pc p = .releasing i then 1 else 0)

structure Inv (s : State nproc) : Prop where
  linked : Linked s.bcache
  unique : Unique s.bcache
  count : ∀ i, (s.bcache.buf i).refcnt = ∑ p, uses s i p

@[simp]
theorem setBuf_same (f : Buf → Buf) : (c.setBuf i f).buf i = f (c.buf i) := by
  simp [Bcache.setBuf]

@[simp]
theorem setBuf_ne (i j : Fin NBUF) (f : Buf → Buf) (h : j ≠ i) : (c.setBuf i f).buf j = c.buf j := by
  simp [Bcache.setBuf, h]

theorem brelseSection_buf :
    (c.brelseSection i).buf = (c.setBuf i fun b => { b with refcnt := b.refcnt - 1 }).buf := by
  unfold Bcache.brelseSection
  dsimp only
  split <;> rfl

theorem move_linked (s s' : State nproc) (h : Linked s.bcache) (hm : Move s s') : Linked s'.bcache := by
  cases hm with
  | hit | recycle | acquire | write | release => exact h
  | put p i => exact brelseSection_linked s.bcache i h

theorem unique_of_identity (c c' : Bcache) (h : Unique c)
    (hd : ∀ j, (c'.buf j).dev = (c.buf j).dev ∧ (c'.buf j).blockno = (c.buf j).blockno) : Unique c' := by
  intro i j hi hij
  unfold sameBlock at hij
  rw [(hd i).1] at hi
  rw [(hd i).1, (hd i).2, (hd j).1, (hd j).2] at hij
  exact h i j hi hij

theorem recycle_unique (dev blockno : Nat) (i : Fin NBUF) (h : Unique c)
    (hno : ∀ j, c.isBlock dev blockno j = false) : Unique (recycle c dev blockno i) := by
  have hno' : ∀ j, ¬ ((c.buf j).dev = dev ∧ (c.buf j).blockno = blockno) := by
    intro j hj
    simpa [Bcache.isBlock, hj.1, hj.2] using hno j
  intro j k hj hjk
  unfold sameBlock at hjk
  by_cases h1 : j = i
  · by_cases h2 : k = i
    · rw [h1, h2]
    · subst h1
      simp only [recycle, setBuf_same, setBuf_ne _ _ _ _ h2] at hjk
      exact absurd ⟨hjk.1.symm, hjk.2.symm⟩ (hno' k)
  · by_cases h2 : k = i
    · subst h2
      simp only [recycle, setBuf_same, setBuf_ne _ _ _ _ h1] at hjk
      exact absurd hjk (hno' j)
    · simp only [recycle, setBuf_ne _ _ _ _ h1, setBuf_ne _ _ _ _ h2] at hj hjk
      exact h j k hj hjk

theorem move_unique (s s' : State nproc) (h : Unique s.bcache) (hm : Move s s') : Unique s'.bcache := by
  cases hm with
  | hit p i | acquire p i | write p i | release p i =>
    apply unique_of_identity _ _ h
    intro j
    by_cases hj : j = i
    · subst hj; simp [setPc, hit, Bcache.releasesleep]
    · simp [setPc, hit, Bcache.releasesleep, hj]
  | put p i =>
    apply unique_of_identity _ _ h
    intro j
    simp only [setPc, brelseSection_buf]
    by_cases hj : j = i
    · subst hj; simp
    · simp [hj]
  | recycle p i dev blockno hp hno hi => exact recycle_unique s.bcache dev blockno i h hno

theorem move_identity (s s' : State nproc) (hm : Move s s') (j : Fin NBUF)
    (hj : 0 < (s.bcache.buf j).refcnt ∨ (s.bcache.buf j).dirty = true) :
    (s'.bcache.buf j).dev = (s.bcache.buf j).dev ∧ (s'.bcache.buf j).blockno = (s.bcache.buf j).blockno := by
  cases hm with
  | hit p i | acquire p i | write p i | release p i =>
    by_cases h : j = i
    · subst h; simp [setPc, hit, Bcache.releasesleep]
    · simp [setPc, hit, Bcache.releasesleep, h]
  | put p i =>
    simp only [setPc, brelseSection_buf]
    by_cases h : j = i
    · subst h; simp
    · simp [h]
  | recycle p i dev blockno hp hno hi =>
    by_cases h : j = i
    · subst h
      simp only [Bcache.isUnused, Bool.and_eq_true, beq_iff_eq, Bool.not_eq_true'] at hi
      rcases hj with hj | hj
      · omega
      · simp [hi.2] at hj
    · simp [setPc, recycle, h]

theorem count_of_move (s s' : State nproc) (p : Fin nproc) (i : Fin NBUF)
    (h : (s.bcache.buf i).refcnt = ∑ q, uses s i q) (ho : ∀ q, q ≠ p → uses s' i q = uses s i q)
    (hp : (s'.bcache.buf i).refcnt + uses s i p = (s.bcache.buf i).refcnt + uses s' i p) :
    (s'.bcache.buf i).refcnt = ∑ q, uses s' i q := by
  have := sum_move (uses s i) (uses s' i) p ho
  omega

theorem uses_other (s : State nproc) (c : Bcache) (p q : Fin nproc) (pc : Pc) (i : Fin NBUF) (hq : q ≠ p)
    (hl : c.holdingsleep q i = s.bcache.holdingsleep q i) : uses (setPc s p c pc) i q = uses s i q := by
  simp [uses, setPc, hq, hl]

theorem holdingsleep_congr (c c' : Bcache) (p : Nat) (i : Fin NBUF) (h : (c'.buf i).lock = (c.buf i).lock) :
    c'.holdingsleep p i = c.holdingsleep p i := by
  unfold Bcache.holdingsleep; rw [h]

theorem setBuf_lock (i j : Fin NBUF) (f : Buf → Buf) (hf : ∀ b, (f b).lock = b.lock) :
    ((c.setBuf i f).buf j).lock = (c.buf j).lock := by
  by_cases h : j = i
  · subst h; simp [hf]
  · simp [h]

theorem move_count (s s' : State nproc) (h : ∀ i, (s.bcache.buf i).refcnt = ∑ p, uses s i p) (hm : Move s s') :
    ∀ i, (s'.bcache.buf i).refcnt = ∑ p, uses s' i p := by
  intro j
  cases hm with
  | hit p i hp =>
    have hl := setBuf_lock s.bcache i j (fun b => { b with refcnt := b.refcnt + 1 }) (fun _ => rfl)
    apply count_of_move s _ p j (h j) (fun q hq => uses_other s _ p q _ j hq (holdingsleep_congr _ _ _ _ hl))
    have hh := holdingsleep_congr _ _ p j hl
    by_cases hj : j = i
    · subst hj
      simp only [uses, setPc, hp, update_self, hh, setBuf_same]
      simp; omega
    · simp only [uses, setPc, hp, update_self, hh, setBuf_ne _ _ _ _ hj]
      simp [Ne.symm hj]
  | recycle p i dev blockno hp hno hi =>
    have hl := setBuf_lock s.bcache i j
      (fun b => { b with dev := dev, blockno := blockno, valid := false, dirty := false, refcnt := 1 })
      (fun _ => rfl)
    apply count_of_move s _ p j (h j) (fun q hq => uses_other s _ p q _ j hq (holdingsleep_congr _ _ _ _ hl))
    have hh := holdingsleep_congr _ _ p j hl
    by_cases hj : j = i
    · subst hj
      simp only [Bcache.isUnused, Bool.and_eq_true, beq_iff_eq] at hi
      simp only [uses, setPc, hp, update_self, hh, setBuf_same, hi.1]
      simp; omega
    · simp only [uses, setPc, hp, update_self, hh, setBuf_ne _ _ _ _ hj]
      simp [Ne.symm hj]
  | acquire p i hp hi =>
    by_cases hj : j = i
    · subst hj
      apply count_of_move s _ p j (h j)
      · intro q hq
        apply uses_other s _ p q _ j hq
        have : p.val ≠ q.val := fun he => hq (Fin.ext he.symm)
        simp [Bcache.holdingsleep, hi, this]
      · simp [uses, setPc, hp, Bcache.holdingsleep, hi]
    · apply count_of_move s _ p j (h j) (fun q hq => uses_other s _ p q _ j hq (by simp [Bcache.holdingsleep, hj]))
      simp [uses, setPc, hp, Bcache.holdingsleep, hj, Ne.symm hj]
  | write p i v d data hp hi =>
    have hl := setBuf_lock s.bcache i j (fun b => { b with valid := v, dirty := d, data := data }) (fun _ => rfl)
    apply count_of_move s _ p j (h j) (fun q hq => uses_other s _ p q _ j hq (holdingsleep_congr _ _ _ _ hl))
    have hh := holdingsleep_congr _ _ p j hl
    by_cases hj : j = i
    · subst hj; simp [uses, setPc, hp, hh]
    · simp [uses, setPc, hp, hh, hj]
  | release p i hp hi =>
    by_cases hj : j = i
    · subst hj
      simp only [Bcache.holdingsleep, Bool.and_eq_true, beq_iff_eq] at hi
      apply count_of_move s _ p j (h j)
      · intro q hq
        apply uses_other s _ p q _ j hq
        have : p.val ≠ q.val := fun he => hq (Fin.ext he.symm)
        simp [Bcache.holdingsleep, Bcache.releasesleep, hi, this]
      · simp [uses, setPc, hp, Bcache.holdingsleep, Bcache.releasesleep, hi]
    · apply count_of_move s _ p j (h j)
        (fun q hq => uses_other s _ p q _ j hq (by simp [Bcache.holdingsleep, Bcache.releasesleep, hj]))
      simp [uses, setPc, hp, Bcache.holdingsleep, Bcache.releasesleep, hj, Ne.symm hj]
  | put p i hp =>
    have hl : ((s.bcache.brelseSection i).buf j).lock = (s.bcache.buf j).lock := by
      rw [brelseSection_buf]
      exact setBuf_lock s.bcache i j _ (fun _ => rfl)
    apply count_of_move s _ p j (h j) (fun q hq => uses_other s _ p q _ j hq (holdingsleep_congr _ _ _ _ hl))
    have hh := holdingsleep_congr _ _ p j hl
    by_cases hj : j = i
    · subst hj
      -- The releasing process itself is counted, so the decrement does not start at zero.
      have hone : 1 ≤ (s.bcache.buf j).refcnt := by
        rw [h j]
        exact le_trans (by simp [uses, hp]) (le_sum (uses s j) p)
      simp only [uses, setPc, hp, update_self, hh, brelseSection_buf, setBuf_same]
      simp; omega
    · simp only [uses, setPc, hp, update_self, hh, brelseSection_buf, setBuf_ne _ _ _ _ hj]
      simp [Ne.symm hj]

theorem inv_init (s : State nproc) (h : (system nproc).init s) : Inv s := by
  cases h
  refine ⟨binit_linked _, ?_, ?_⟩
  · intro i j hi; exact absurd rfl hi
  · intro i; simp [uses, Bcache.binit, Bcache.boot, Bcache.holdingsleep]

theorem inv_step (s : State nproc) (a : Act nproc) (s' : State nproc) (h : Inv s)
    (hs : (system nproc).step s a = some s') : Inv s' := by
  have hm := move_of_step s s' a h.linked hs
  exact ⟨move_linked s s' h.linked hm, move_unique s s' h.unique hm, move_count s s' h.count hm⟩

theorem inv_of_reach (s : State nproc) (h : (system nproc).Reach s) : Inv s :=
  (system nproc).reach_inv Inv inv_init inv_step s h

def holders (s : State nproc) (i : Fin NBUF) : Finset (Fin nproc) :=
  Finset.univ.filter fun p => s.bcache.holdingsleep p i

def waiters (s : State nproc) (i : Fin NBUF) : Finset (Fin nproc) := Finset.univ.filter fun p => s.pc p = .waiting i

/-- Processes whose `brelse` has not reached its `bcache.lock` section yet. -/
def leavers (s : State nproc) (i : Fin NBUF) : Finset (Fin nproc) :=
  Finset.univ.filter fun p => s.pc p = .releasing i

theorem sum_uses (s : State nproc) (i : Fin NBUF) :
    ∑ p, uses s i p = (holders s i).card + (waiters s i).card + (leavers s i).card := by
  simp only [uses, Finset.sum_add_distrib, holders, waiters, leavers, Finset.card_filter]

/-- **The cache keeps its representation.** The links are one cycle over all buffers, no block is
cached twice, `refcnt` counts the users of a buffer, and a used or dirty buffer keeps its block. -/
theorem cache_representation (nproc : Nat) (s : State nproc) (h : (system nproc).Reach s) :
    (∃ ys : List (Fin NBUF), Ring s.bcache.links ys ∧ ys.length = NBUF ∧ ∀ i, i ∈ ys) ∧
    (∀ i j, (s.bcache.buf i).dev ≠ 0 → (s.bcache.buf i).dev = (s.bcache.buf j).dev →
      (s.bcache.buf i).blockno = (s.bcache.buf j).blockno → i = j) ∧
    (∀ i, (s.bcache.buf i).refcnt = (holders s i).card + (waiters s i).card + (leavers s i).card) ∧
    ∀ a s', (system nproc).step s a = some s' → ∀ i,
      0 < (s.bcache.buf i).refcnt ∨ (s.bcache.buf i).dirty = true →
      (s'.bcache.buf i).dev = (s.bcache.buf i).dev ∧ (s'.bcache.buf i).blockno = (s.bcache.buf i).blockno := by
  have hinv := inv_of_reach s h
  refine ⟨?_, ?_, ?_, ?_⟩
  · obtain ⟨ys, hr, hall⟩ := hinv.linked
    exact ⟨ys, hr, ring_length ys hr.2 hall, hall⟩
  · intro i j hi hd hb; exact hinv.unique i j hi ⟨hd, hb⟩
  · intro i; rw [hinv.count i, sum_uses]
  · intro a s' hs i hi
    exact move_identity s s' (move_of_step s s' a hinv.linked hs) i hi

theorem cache_representation_first_bget : ∃ (s : State 2) (i : Fin NBUF), (s.bcache.buf i).blockno = 7 ∧
    s.pc 0 = .waiting i ∧ (s.bcache.buf i).refcnt = 1 ∧
    1 = (holders s i).card + (waiters s i).card + (leavers s i).card := by
  have h0 : (system 2).Reach { bcache := Bcache.boot.binit, pc := fun _ => .idle } := .init _ rfl
  rcases bgetSection_cases Bcache.boot.binit 1 7 (binit_linked _) with ⟨i, hi, -⟩ | ⟨i, -, -, he⟩ | ⟨-, hno, -⟩
  · simp [Bcache.isBlock, Bcache.binit, Bcache.boot] at hi
  · let s1 : State 2 := setPc ⟨Bcache.boot.binit, fun _ => .idle⟩ 0 (recycle Bcache.boot.binit 1 7 i) (.waiting i)
    have hs : (system 2).Reach s1 := .step _ s1 (.bget 0 1 7) h0 (by simp [system, step, he, s1])
    have hone : (s1.bcache.buf i).refcnt = 1 := by simp [s1, setPc, recycle]
    refine ⟨s1, i, by simp [s1, setPc, recycle], by simp [s1, setPc], hone, ?_⟩
    rw [← (cache_representation 2 s1 hs).2.2.1 i, hone]
  · simpa [Bcache.isUnused, Bcache.binit, Bcache.boot] using hno ⟨0, by decide⟩

end Xv6.Cache
