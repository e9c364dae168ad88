import Mathlib
import Xv6.Lib.Count
import Xv6.Lib.System

/-!
# References to one inode

Any number of processes use one inode of `fs.c`. Each stretch of code under `icache.lock` is one
step, and so is each stretch under `ip->lock` between two of those. The cached fields are written
through to disk by `iupdate`, so one copy of `type` and `nlink` is kept.
-/

open Lib Function

namespace Xv6.Iput

inductive Pc where
  | idle
  /-- Between `ilock` and `iunlock`. -/
  | holding
  /-- In `iput`, with `ip->valid && ip->nlink == 0`. -/
  | reading
  /-- In `iput`, having read `r == 1`. -/
  | freeing
  /-- In `iput` before `releasesleep`. -/
  | leaving (freed : Bool)
  /-- In `iput` before `ip->ref--`. -/
  | dropping (freed : Bool)
  deriving DecidableEq, Repr

structure State (nproc : Nat) where
  ref : Nat
  valid : Bool
  locked : Bool
  nlink : Nat
  type : Nat
  pc : Fin nproc → Pc
  /-- References a process has, without the one its `iput` is dropping. -/
  refs : Fin nproc → Nat
  /-- How often the inode was freed. -/
  frees : Nat

inductive Act (nproc : Nat) where
  | iget (p : Fin nproc)
  | idup (p : Fin nproc)
  | ilock (p : Fin nproc)
  | unlink (p : Fin nproc)
  | iunlock (p : Fin nproc)
  | iput (p : Fin nproc)
  | readRef (p : Fin nproc)
  | free (p : Fin nproc)
  | releasesleep (p : Fin nproc)
  | decRef (p : Fin nproc)

variable {nproc : Nat}

namespace State

def setPc (s : State nproc) (p : Fin nproc) (pc : Pc) : State nproc := { s with pc := update s.pc p pc }

def setRefs (s : State nproc) (p : Fin nproc) (n : Nat) : State nproc := { s with refs := update s.refs p n }

/-- A hit raises `ref`. A free cache entry is taken with `valid = 0`. -/
def iget (s : State nproc) (p : Fin nproc) : State nproc :=
  { s with ref := s.ref + 1, valid := if 0 < s.ref then s.valid else false }.setRefs p (s.refs p + 1)

def idup (s : State nproc) (p : Fin nproc) : State nproc := { s with ref := s.ref + 1 }.setRefs p (s.refs p + 1)

def ilock (s : State nproc) (p : Fin nproc) : State nproc := { s with locked := true, valid := true }.setPc p .holding

/-- `ip->nlink--` and `iupdate`, as in `sys_unlink`. -/
def unlink (s : State nproc) : State nproc := { s with nlink := s.nlink - 1 }

def iunlock (s : State nproc) (p : Fin nproc) : State nproc := { s with locked := false }.setPc p .idle

/-- `iput` up to its first use of `icache.lock`. -/
def iput (s : State nproc) (p : Fin nproc) : State nproc :=
  ({ s with locked := true }.setRefs p (s.refs p - 1)).setPc p
    (if s.valid && s.nlink == 0 then .reading else .leaving false)

def readRef (s : State nproc) (p : Fin nproc) : State nproc :=
  s.setPc p (if s.ref = 1 then .freeing else .leaving false)

/-- `itrunc`, `ip->type = 0`, `iupdate`, `ip->valid = 0`. -/
def free (s : State nproc) (p : Fin nproc) : State nproc :=
  { s with type := 0, valid := false, frees := s.frees + 1 }.setPc p (.leaving true)

def releasesleep (s : State nproc) (p : Fin nproc) (freed : Bool) : State nproc :=
  { s with locked := false }.setPc p (.dropping freed)

def decRef (s : State nproc) (p : Fin nproc) : State nproc := { s with ref := s.ref - 1 }.setPc p .idle

end State

/-- `ilock` of an inode without type panics, so it is no step. -/
def step (s : State nproc) : Act nproc → Option (State nproc)
  | .iget p => if s.pc p = .idle then some (s.iget p) else none
  | .idup p => if s.pc p = .idle ∧ 0 < s.refs p then some (s.idup p) else none
  | .ilock p =>
    if s.pc p = .idle ∧ 0 < s.refs p ∧ s.locked = false ∧ (s.valid = true ∨ s.type ≠ 0) then some (s.ilock p) else none
  | .unlink p => if s.pc p = .holding ∧ 0 < s.nlink then some s.unlink else none
  | .iunlock p => if s.pc p = .holding then some (s.iunlock p) else none
  | .iput p => if s.pc p = .idle ∧ 0 < s.refs p ∧ s.locked = false then some (s.iput p) else none
  | .readRef p => if s.pc p = .reading then some (s.readRef p) else none
  | .free p => if s.pc p = .freeing then some (s.free p) else none
  | .releasesleep p =>
    match s.pc p with
    | .leaving freed => some (s.releasesleep p freed)
    | _ => none
  | .decRef p =>
    match s.pc p with
    | .dropping _ => some (s.decRef p)
    | _ => none

structure Fresh (s : State nproc) : Prop where
  ref : s.ref = 0
  valid : s.valid = false
  locked : s.locked = false
  nlink : 0 < s.nlink
  type : s.type ≠ 0
  pc : ∀ p, s.pc p = .idle
  refs : ∀ p, s.refs p = 0
  frees : s.frees = 0

def system (nproc : Nat) : System (State nproc) (Act nproc) where
  init := Fresh
  step := step

inductive Move (s : State nproc) : Act nproc → State nproc → Prop where
  | iget (p : Fin nproc) (hp : s.pc p = .idle) : Move s (.iget p) (s.iget p)
  | idup (p : Fin nproc) (hp : s.pc p = .idle) (hr : 0 < s.refs p) : Move s (.idup p) (s.idup p)
  | ilock (p : Fin nproc) (hp : s.pc p = .idle) (hr : 0 < s.refs p) (hl : s.locked = false)
      (ht : s.valid = true ∨ s.type ≠ 0) : Move s (.ilock p) (s.ilock p)
  | unlink (p : Fin nproc) (hp : s.pc p = .holding) (hn : 0 < s.nlink) : Move s (.unlink p) s.unlink
  | iunlock (p : Fin nproc) (hp : s.pc p = .holding) : Move s (.iunlock p) (s.iunlock p)
  | iput (p : Fin nproc) (hp : s.pc p = .idle) (hr : 0 < s.refs p) (hl : s.locked = false) : Move s (.iput p) (s.iput p)
  | readRef (p : Fin nproc) (hp : s.pc p = .reading) : Move s (.readRef p) (s.readRef p)
  | free (p : Fin nproc) (hp : s.pc p = .freeing) : Move s (.free p) (s.free p)
  | releasesleep (p : Fin nproc) (freed : Bool) (hp : s.pc p = .leaving freed) :
      Move s (.releasesleep p) (s.releasesleep p freed)
  | decRef (p : Fin nproc) (freed : Bool) (hp : s.pc p = .dropping freed) : Move s (.decRef p) (s.decRef p)

theorem move_of_step (s s' : State nproc) (a : Act nproc) (hs : step s a = some s') : Move s a s' := by
  cases a <;> simp only [step] at hs <;> split at hs <;> cases hs <;> rename_i h
  · exact .iget _ h
  · exact .idup _ h.1 h.2
  · exact .ilock _ h.1 h.2.1 h.2.2.1 h.2.2.2
  · exact .unlink _ h.1 h.2
  · exact .iunlock _ h
  · exact .iput _ h.1 h.2.1 h.2.2
  · exact .readRef _ h
  · exact .free _ h
  · exact .releasesleep _ _ h
  · exact .decRef _ _ h

def Pc.inPut : Pc → Nat
  | reading | freeing | leaving _ | dropping _ => 1
  | _ => 0

/-- Past the test of `ref` without freeing. -/
def Pc.decided : Pc → Nat
  | leaving false | dropping false => 1
  | _ => 0

def Pc.locks : Pc → Nat
  | holding | reading | freeing | leaving _ => 1
  | _ => 0

/-- From reading `r == 1` to `ref--`. -/
def Pc.closing : Pc → Bool
  | freeing | leaving true | dropping true => true
  | _ => false

def total (w : Pc → Nat) (s : State nproc) : Nat := ∑ p, w (s.pc p)

def held (s : State nproc) : Nat := ∑ p, s.refs p

theorem total_setPc (w : Pc → Nat) (s t : State nproc) (p : Fin nproc) (v : Pc)
    (h : t.pc = update s.pc p v) : total w t + w (s.pc p) = total w s + w v := by
  unfold total
  rw [h]
  exact sum_update w s.pc p v

theorem decided_same (s t : State nproc) (p : Fin nproc) (v : Pc) (h : t.pc = update s.pc p v)
    (hd : v.decided = (s.pc p).decided) : total Pc.decided t = total Pc.decided s := by
  have := total_setPc Pc.decided s t p v h
  omega

theorem held_setRefs (s t : State nproc) (p : Fin nproc) (n : Nat) (h : t.refs = update s.refs p n) :
    held t + s.refs p = held s + n := by
  unfold held
  rw [h]
  exact sum_update id s.refs p n

theorem total_le (w : Pc → Nat) (s : State nproc) (p : Fin nproc) : w (s.pc p) ≤ total w s :=
  le_sum (fun p => w (s.pc p)) p

theorem refs_le (s : State nproc) (p : Fin nproc) : s.refs p ≤ held s := le_sum s.refs p

theorem decided_le_inPut (s : State nproc) : total Pc.decided s ≤ total Pc.inPut s := by
  apply Finset.sum_le_sum
  intro p _
  cases s.pc p with
  | leaving b | dropping b => cases b <;> simp [Pc.decided, Pc.inPut]
  | _ => simp [Pc.decided]

/-- What a process may know of the inode where it stands. -/
def Pc.Knows (s : State nproc) (refs : Nat) : Pc → Prop
  | idle => True
  | holding => 0 < refs ∧ s.valid = true
  | reading => s.valid = true ∧ s.nlink = 0
  | freeing => s.valid = true ∧ s.nlink = 0 ∧ s.ref = 1
  | leaving freed | dropping freed => freed = true → s.frees = 1 ∧ s.ref = 1

structure Inv (s : State nproc) : Prop where
  count : s.ref = held s + total Pc.inPut s
  lock : total Pc.locks s = if s.locked then 1 else 0
  knows : ∀ p, (s.pc p).Knows s (s.refs p)
  once : s.frees = if s.type = 0 then 1 else 0
  valid : s.valid = true → s.frees = 0
  /-- Somebody is left who will find `r == 1`. -/
  owed : s.nlink = 0 → s.frees = 0 → s.valid = true ∧ total Pc.decided s < s.ref

/-- What goes wrong is ruled out: an `iput` reads `ref` when the only other references are those of `iput`s that
have already read it, or `iget` finds the inode after an `iput` has read `r == 1`. -/
def Orderly (s : State nproc) : Act nproc → Prop
  | .readRef _ => total Pc.decided s = 0 ∨ total Pc.decided s + 1 < s.ref
  | .iget _ => ∀ q, (s.pc q).closing = false
  | _ => True

theorem inv_fresh (s : State nproc) (h : Fresh s) : Inv s := by
  have htot : ∀ w : Pc → Nat, w .idle = 0 → total w s = 0 := by
    intro w hw
    simp [total, h.pc, hw]
  refine ⟨?_, ?_, ?_, ?_, ?_, ?_⟩
  · rw [htot _ rfl, h.ref]; simp [held, h.refs]
  · rw [htot _ rfl, h.locked]; rfl
  · intro p; rw [h.pc p]; trivial
  · rw [h.frees, if_neg h.type]
  · intro _; exact h.frees
  · intro hn; have := h.nlink; omega

theorem one_locks (s : State nproc) (h : Inv s) (p q : Fin nproc) (hp : (s.pc p).locks = 1) (hq : (s.pc q).locks = 1) :
    p = q := by
  by_contra hne
  have h1 := total_setPc Pc.locks s (s.setPc p .idle) p .idle rfl
  have h2 := total_le Pc.locks (s.setPc p .idle) q
  have h3 : ((s.setPc p .idle).pc q).locks = 1 := by simpa [State.setPc, Ne.symm hne] using hq
  have h4 := h.lock
  simp only [hp, h3, show Pc.idle.locks = 0 from rfl] at h1 h2
  split at h4 <;> omega

theorem locked_of_locks (s : State nproc) (h : Inv s) (p : Fin nproc) (hp : (s.pc p).locks = 1) : s.locked = true := by
  have h1 := total_le Pc.locks s p
  have h2 := h.lock
  split at h2
  · assumption
  · omega

theorem closing_ref (s : State nproc) (h : Inv s) (q : Fin nproc) (hq : (s.pc q).closing = true) : s.ref = 1 := by
  have hk := h.knows q
  cases hpc : s.pc q with
  | freeing => rw [hpc] at hk; exact hk.2.2
  | leaving freed | dropping freed =>
    rw [hpc] at hk hq
    cases freed with
    | true => exact (hk rfl).2
    | false => cases hq
  | idle | holding | reading => rw [hpc] at hq; cases hq

theorem inPut_of_closing (pc : Pc) (h : pc.closing = true) : pc.inPut = 1 := by
  cases pc with
  | idle | holding | reading => cases h
  | freeing | leaving | dropping => rfl

theorem closing_alone (s : State nproc) (h : Inv s) (q : Fin nproc) (hq : (s.pc q).closing = true) (p : Fin nproc) :
    s.refs p = 0 ∧ (p ≠ q → (s.pc p).inPut = 0) := by
  have hr := closing_ref s h q hq
  have h1 := inPut_of_closing _ hq
  have h2 := total_le Pc.inPut s q
  have h3 := refs_le s p
  have h4 := h.count
  refine ⟨by omega, fun hne => ?_⟩
  have h5 := total_setPc Pc.inPut s (s.setPc q .idle) q .idle rfl
  have h6 := total_le Pc.inPut (s.setPc q .idle) p
  have h7 : (s.setPc q .idle).pc p = s.pc p := by simp [State.setPc, hne]
  rw [h7] at h6
  simp only [show Pc.idle.inPut = 0 from rfl] at h5
  omega

/-- A process keeps what it knows when `valid` is not cleared, `nlink` stays, and for one that is closing
`ref` and `frees` stay. -/
theorem knows_same (s t : State nproc) (refs : Nat) (pc : Pc) (h : pc.Knows s refs)
    (hv : s.valid = true → t.valid = true) (hn : t.nlink = s.nlink)
    (hc : pc.closing = true → t.ref = s.ref ∧ t.frees = s.frees) : pc.Knows t refs := by
  cases pc with
  | idle => trivial
  | holding => exact ⟨h.1, hv h.2⟩
  | reading => exact ⟨hv h.1, hn.trans h.2⟩
  | freeing => exact ⟨hv h.1, hn.trans h.2.1, (hc rfl).1.trans h.2.2⟩
  | leaving freed | dropping freed =>
    rintro rfl
    exact ⟨(hc rfl).2.trans (h rfl).1, (hc rfl).1.trans (h rfl).2⟩

theorem inv_of_move (s t : State nproc) (h : Inv s) (p : Fin nproc) (v : Pc) (r : Nat)
    (hpc : t.pc = update s.pc p v) (hrefs : t.refs = update s.refs p r)
    (hcount : t.ref + s.refs p + (s.pc p).inPut = s.ref + r + v.inPut)
    (hlock : (if t.locked then 1 else 0) + (s.pc p).locks = (if s.locked then 1 else 0) + v.locks)
    (hp : v.Knows t r) (hq : ∀ q, q ≠ p → (s.pc q).Knows t (s.refs q))
    (honce : t.frees = if t.type = 0 then 1 else 0) (hvalid : t.valid = true → t.frees = 0)
    (howed : t.nlink = 0 → t.frees = 0 → t.valid = true ∧ total Pc.decided t < t.ref) : Inv t := by
  have h1 := total_setPc Pc.inPut s t p v hpc
  have h2 := total_setPc Pc.locks s t p v hpc
  have h3 := held_setRefs s t p r hrefs
  have h4 := h.count
  have h5 := h.lock
  refine ⟨by omega, by omega, ?_, honce, hvalid, howed⟩
  intro q
  by_cases hqp : q = p
  · subst hqp; rw [hpc, hrefs, update_self, update_self]; exact hp
  · rw [hpc, hrefs, update_of_ne hqp, update_of_ne hqp]; exact hq q hqp

section

variable (s : State nproc) (h : Inv s) (p : Fin nproc)
include h

theorem inv_iget (hp : s.pc p = .idle) (hno : ∀ q, (s.pc q).closing = false) : Inv (s.iget p) := by
  have hvalid : 0 < s.ref → (s.iget p).valid = s.valid := fun h0 => by simp [State.iget, State.setRefs, h0]
  refine inv_of_move s _ h p .idle (s.refs p + 1) (by simp [State.iget, State.setRefs, ← hp]) rfl ?_ ?_ trivial ?_
    h.once ?_ ?_
  · rw [hp]; change s.ref + 1 + _ + 0 = _ + 0; omega
  · rw [hp]; rfl
  · intro q hqp
    rcases Nat.eq_zero_or_pos s.ref with h0 | h0
    · -- Nobody has a reference, so nobody is past `idle`.
      have h1 := refs_le s q
      have h2 := total_le Pc.inPut s q
      have h3 := h.count
      have hk := h.knows q
      cases hpc : s.pc q with
      | idle => trivial
      | holding => rw [hpc] at hk; have := hk.1; omega
      | reading | freeing | leaving | dropping => rw [hpc] at h2; simp only [Pc.inPut] at h2; omega
    · exact knows_same s _ _ _ (h.knows q) (hvalid h0).trans rfl (fun hc => by rw [hno q] at hc; cases hc)
  · intro hv
    rcases Nat.eq_zero_or_pos s.ref with h0 | h0
    · simp [State.iget, State.setRefs, h0] at hv
    · exact h.valid ((hvalid h0).symm.trans hv)
  · intro hn hf
    obtain ⟨hv, hd⟩ := h.owed hn hf
    exact ⟨(hvalid (by omega)).trans hv, Nat.lt_succ_of_lt hd⟩

theorem inv_idup (hp : s.pc p = .idle) (hr : 0 < s.refs p) : Inv (s.idup p) := by
  refine inv_of_move s _ h p .idle (s.refs p + 1) (by simp [State.idup, State.setRefs, ← hp]) rfl ?_ ?_ trivial ?_
    h.once h.valid ?_
  · rw [hp]; change s.ref + 1 + _ + 0 = _ + 0; omega
  · rw [hp]; rfl
  · intro q hqp
    refine knows_same s _ _ _ (h.knows q) id rfl (fun hc => ?_)
    have := (closing_alone s h q hc p).1
    omega
  · intro hn hf
    obtain ⟨hv, hd⟩ := h.owed hn hf
    exact ⟨hv, Nat.lt_succ_of_lt hd⟩

theorem inv_ilock (hp : s.pc p = .idle) (hr : 0 < s.refs p) (hl : s.locked = false)
    (ht : s.valid = true ∨ s.type ≠ 0) : Inv (s.ilock p) := by
  have hdec := decided_same s (s.ilock p) p .holding rfl (by rw [hp]; rfl)
  refine inv_of_move s _ h p .holding (s.refs p) rfl (by simp [State.ilock, State.setPc]) ?_ ?_ ⟨hr, rfl⟩ ?_
    h.once ?_ ?_
  · rw [hp]; rfl
  · rw [hp, hl]; rfl
  · intro q hqp
    exact knows_same s _ _ _ (h.knows q) (fun _ => rfl) rfl (fun _ => ⟨rfl, rfl⟩)
  · intro _
    rcases ht with hv | ht
    · exact h.valid hv
    · change s.frees = 0; rw [h.once, if_neg ht]
  · intro hn hf
    obtain ⟨hv, hd⟩ := h.owed hn hf
    exact ⟨rfl, hdec ▸ hd⟩

theorem inv_unlink (hp : s.pc p = .holding) : Inv s.unlink := by
  have hk := h.knows p
  rw [hp] at hk
  refine inv_of_move s _ h p .holding (s.refs p) (by simp [State.unlink, ← hp]) (by simp [State.unlink]) ?_ ?_ hk ?_
    h.once h.valid ?_
  · rw [hp]; rfl
  · rw [hp]; rfl
  · intro q hqp
    -- The lock is taken, so nobody has tested `nlink` and is still inside.
    have hkq := h.knows q
    cases hpc : s.pc q with
    | idle => trivial
    | holding => rw [hpc] at hkq; exact hkq
    | reading | freeing =>
      exact absurd (one_locks s h q p (by rw [hpc]; rfl) (by rw [hp]; rfl)) hqp
    | leaving | dropping => rw [hpc] at hkq; exact hkq
  · intro _ _
    refine ⟨hk.2, ?_⟩
    have h1 := decided_le_inPut s
    have h2 := refs_le s p
    have h3 := h.count
    have h4 := hk.1
    change total Pc.decided s < s.ref
    omega

theorem inv_iunlock (hp : s.pc p = .holding) : Inv (s.iunlock p) := by
  have hdec := decided_same s (s.iunlock p) p .idle rfl (by rw [hp]; rfl)
  have hl := locked_of_locks s h p (by rw [hp]; rfl)
  refine inv_of_move s _ h p .idle (s.refs p) rfl (by simp [State.iunlock, State.setPc]) ?_ ?_ trivial ?_
    h.once h.valid ?_
  · rw [hp]; rfl
  · rw [hp, hl]; rfl
  · intro q hqp
    exact knows_same s _ _ _ (h.knows q) id rfl (fun _ => ⟨rfl, rfl⟩)
  · intro hn hf
    rw [hdec]; exact h.owed hn hf

theorem inv_iput (hp : s.pc p = .idle) (hr : 0 < s.refs p) (hl : s.locked = false) : Inv (s.iput p) := by
  by_cases htest : s.valid = true ∧ s.nlink = 0
  · have hpc : (s.iput p).pc = update s.pc p .reading := by simp [State.iput, State.setPc, State.setRefs, htest]
    have hdec := decided_same s (s.iput p) p .reading hpc (by rw [hp]; rfl)
    refine inv_of_move s _ h p .reading (s.refs p - 1) hpc rfl ?_ ?_ htest ?_ h.once h.valid ?_
    · rw [hp]; change s.ref + _ + 0 = _ + 1; omega
    · rw [hp, hl]; rfl
    · intro q hqp
      exact knows_same s _ _ _ (h.knows q) id rfl (fun _ => ⟨rfl, rfl⟩)
    · intro hn hf
      rw [hdec]; exact h.owed hn hf
  · have hpc : (s.iput p).pc = update s.pc p (.leaving false) := by
      have : (s.valid && s.nlink == 0) = false := by simpa using htest
      simp [State.iput, State.setPc, State.setRefs, this]
    refine inv_of_move s _ h p (.leaving false) (s.refs p - 1) hpc rfl ?_ ?_ ?_ ?_ h.once h.valid ?_
    · rw [hp]; change s.ref + _ + 0 = _ + 1; omega
    · rw [hp, hl]; rfl
    · intro hf; cases hf
    · intro q hqp
      exact knows_same s _ _ _ (h.knows q) id rfl (fun _ => ⟨rfl, rfl⟩)
    · intro hn hf
      exact absurd ⟨(h.owed hn hf).1, hn⟩ htest

theorem inv_readRef (hp : s.pc p = .reading)
    (hc : total Pc.decided s = 0 ∨ total Pc.decided s + 1 < s.ref) : Inv (s.readRef p) := by
  have hk := h.knows p
  rw [hp] at hk
  have h1 := total_le Pc.inPut s p
  have h2 := h.count
  rw [hp] at h1
  simp only [Pc.inPut] at h1
  by_cases hone : s.ref = 1
  · have hpc : (s.readRef p).pc = update s.pc p .freeing := by simp [State.readRef, State.setPc, hone]
    have hdec := decided_same s (s.readRef p) p .freeing hpc (by rw [hp]; rfl)
    refine inv_of_move s _ h p .freeing (s.refs p) hpc (by simp [State.readRef, State.setPc]) ?_ ?_ ⟨hk.1, hk.2, hone⟩
      ?_ h.once h.valid ?_
    · rw [hp]; rfl
    · rw [hp]; rfl
    · intro q hqp
      exact knows_same s _ _ _ (h.knows q) id rfl (fun _ => ⟨rfl, rfl⟩)
    · intro hn hf
      rw [hdec]; exact h.owed hn hf
  · have hpc : (s.readRef p).pc = update s.pc p (.leaving false) := by simp [State.readRef, State.setPc, hone]
    have hdec := total_setPc Pc.decided s (s.readRef p) p (.leaving false) hpc
    refine inv_of_move s _ h p (.leaving false) (s.refs p) hpc (by simp [State.readRef, State.setPc]) ?_ ?_ ?_
      ?_ h.once h.valid ?_
    · rw [hp]; rfl
    · rw [hp]; rfl
    · intro hf; cases hf
    · intro q hqp
      exact knows_same s _ _ _ (h.knows q) id rfl (fun _ => ⟨rfl, rfl⟩)
    · intro hn hf
      refine ⟨(h.owed hn hf).1, ?_⟩
      rw [hp] at hdec
      simp only [Pc.decided] at hdec
      change _ < s.ref
      omega

theorem inv_free (hp : s.pc p = .freeing) : Inv (s.free p) := by
  have hk := h.knows p
  rw [hp] at hk
  have hfrees := h.valid hk.1
  refine inv_of_move s _ h p (.leaving true) (s.refs p) rfl (by simp [State.free, State.setPc]) ?_ ?_ ?_ ?_ ?_ ?_ ?_
  · rw [hp]; rfl
  · rw [hp]; rfl
  · intro _; exact ⟨by change s.frees + 1 = 1; omega, hk.2.2⟩
  · intro q hqp
    have halone := closing_alone s h p (by rw [hp]; rfl) q
    have hin := halone.2 hqp
    have hkq := h.knows q
    cases hpc : s.pc q with
    | idle => trivial
    | holding => rw [hpc] at hkq; have := hkq.1; omega
    | reading | freeing | leaving | dropping => rw [hpc] at hin; cases hin
  · change s.frees + 1 = _; simp [State.free, State.setPc, hfrees]
  · intro hv; cases hv
  · intro _ hf; change s.frees + 1 = 0 at hf; omega

theorem inv_releasesleep (freed : Bool) (hp : s.pc p = .leaving freed) : Inv (s.releasesleep p freed) := by
  have hk := h.knows p
  rw [hp] at hk
  have hl := locked_of_locks s h p (by rw [hp]; rfl)
  have hdec := decided_same s (s.releasesleep p freed) p (.dropping freed) rfl (by rw [hp]; cases freed <;> rfl)
  refine inv_of_move s _ h p (.dropping freed) (s.refs p) rfl (by simp [State.releasesleep, State.setPc]) ?_ ?_ hk ?_
    h.once h.valid ?_
  · rw [hp]; rfl
  · rw [hp, hl]; rfl
  · intro q hqp
    exact knows_same s _ _ _ (h.knows q) id rfl (fun _ => ⟨rfl, rfl⟩)
  · intro hn hf
    rw [hdec]; exact h.owed hn hf

theorem inv_decRef (freed : Bool) (hp : s.pc p = .dropping freed) : Inv (s.decRef p) := by
  have hk := h.knows p
  rw [hp] at hk
  have h1 := total_le Pc.inPut s p
  have h2 := h.count
  rw [hp] at h1
  simp only [Pc.inPut] at h1
  have hdec := total_setPc Pc.decided s (s.decRef p) p .idle rfl
  refine inv_of_move s _ h p .idle (s.refs p) rfl (by simp [State.decRef, State.setPc]) ?_ ?_ trivial ?_
    h.once h.valid ?_
  · rw [hp]; change s.ref - 1 + _ + 1 = _ + 0; omega
  · rw [hp]; rfl
  · intro q hqp
    refine knows_same s _ _ _ (h.knows q) id rfl (fun hc => ?_)
    have := (closing_alone s h q hc p).2 (Ne.symm hqp)
    rw [hp] at this
    cases this
  · intro hn hf
    obtain ⟨hv, hd⟩ := h.owed hn hf
    refine ⟨hv, ?_⟩
    rw [hp] at hdec
    change _ < s.ref - 1
    cases freed with
    | false => simp only [Pc.decided] at hdec; omega
    | true => have := (hk rfl).1; change s.frees = 0 at hf; omega

end

theorem inv_move (s s' : State nproc) (a : Act nproc) (h : Inv s) (hc : Orderly s a) (hm : Move s a s') : Inv s' := by
  cases hm with
  | iget p hp => exact inv_iget s h p hp hc
  | idup p hp hr => exact inv_idup s h p hp hr
  | ilock p hp hr hl ht => exact inv_ilock s h p hp hr hl ht
  | unlink p hp hn => exact inv_unlink s h p hp
  | iunlock p hp => exact inv_iunlock s h p hp
  | iput p hp hr hl => exact inv_iput s h p hp hr hl
  | readRef p hp => exact inv_readRef s h p hp hc
  | free p hp => exact inv_free s h p hp
  | releasesleep p freed hp => exact inv_releasesleep s h p freed hp
  | decRef p freed hp => exact inv_decRef s h p freed hp

theorem inv_of_reachIf (s : State nproc) (h : (system nproc).ReachIf Orderly s) : Inv s :=
  (system nproc).reachIf_inv Orderly Inv inv_fresh
    (fun s a s' hi hc hs => inv_move s s' a hi hc (move_of_step s s' a hs)) s h

/-- **When an unlinked inode is freed as it should be.** In every state of a run whose steps are all
orderly: the inode is freed at most once, an `iput` is about to free it only when it has the only
reference and there is no link, it still has the only reference when it comes to `ref--`, and an
inode without links and references has been freed. -/
theorem freed_by_last_iput (nproc : Nat) (s : State nproc) (h : (system nproc).ReachIf Orderly s) :
    s.frees ≤ 1 ∧ (s.type = 0 ↔ s.frees = 1) ∧
    (∀ p, s.pc p = .freeing → s.ref = 1 ∧ s.nlink = 0) ∧
    (∀ p, s.pc p = .leaving true ∨ s.pc p = .dropping true → s.ref = 1) ∧
    (s.ref = 0 → s.nlink = 0 → s.frees = 1) := by
  have hi := inv_of_reachIf s h
  have honce := hi.once
  refine ⟨?_, ?_, ?_, ?_, ?_⟩
  · rw [honce]; split <;> omega
  · rw [honce]; split <;> simp_all
  · intro p hp
    have hk := hi.knows p
    rw [hp] at hk
    exact ⟨hk.2.2, hk.2.1⟩
  · rintro p (hp | hp)
    · exact closing_ref s hi p (by rw [hp]; rfl)
    · exact closing_ref s hi p (by rw [hp]; rfl)
  · intro hr hn
    by_contra hf
    have hzero : s.frees = 0 := by
      rw [honce] at hf ⊢
      split at hf <;> simp_all
    have := (hi.owed hn hzero).2
    omega

def fresh (nproc : Nat) : State nproc where
  ref := 0
  valid := false
  locked := false
  nlink := 1
  type := 2
  pc _ := .idle
  refs _ := 0
  frees := 0

theorem fresh_init (nproc : Nat) : (system nproc).init (fresh nproc) := by
  exact ⟨rfl, rfl, rfl, Nat.one_pos, Nat.succ_ne_zero 1, fun _ => rfl, fun _ => rfl, rfl⟩

/-- Both processes have the file open, and process 0 removes its last link. -/
def unlinked : List (Act 2) := [.iget 0, .iget 1, .ilock 0, .unlink 0, .iunlock 0]

def leak : List (Act 2) :=
  unlinked ++ [.iput 0, .readRef 0, .releasesleep 0, .iput 1, .readRef 1, .releasesleep 1, .decRef 0, .decRef 1]

def early : List (Act 2) :=
  [.iget 0, .ilock 0, .unlink 0, .iunlock 0, .iput 0, .readRef 0, .iget 1]

/-- Two overlapping `iput`s leave an unlinked inode with no reference and its type still set, and an
`iget` that overlaps an `iput` leaves that `iput` about to free an inode with two references. -/
theorem overlapping_iputs_leak :
    (∃ s, (system 2).Reach s ∧ s.ref = 0 ∧ s.nlink = 0 ∧ s.type ≠ 0) ∧
    ∃ s, (system 2).Reach s ∧ s.pc 0 = .freeing ∧ s.ref = 2 := by
  constructor
  · have hrun : ((system 2).run (fresh 2) leak).map (fun s => (s.ref, s.nlink, s.type)) = some (0, 0, 2) := by decide
    obtain ⟨s, hs, he⟩ := Option.map_eq_some_iff.mp hrun
    simp only [Prod.mk.injEq] at he
    exact ⟨s, (system 2).reach_of_run _ (.init _ (fresh_init 2)) leak s hs, he.1, he.2.1, by rw [he.2.2]; decide⟩
  · have hrun : ((system 2).run (fresh 2) early).map (fun s => (s.pc 0, s.ref)) = some (.freeing, 2) := by decide
    obtain ⟨s, hs, he⟩ := Option.map_eq_some_iff.mp hrun
    simp only [Prod.mk.injEq] at he
    exact ⟨s, (system 2).reach_of_run _ (.init _ (fresh_init 2)) early s hs, he⟩

instance (s : State nproc) (a : Act nproc) : Decidable (Orderly s a) :=
  match a with
  | .readRef _ => inferInstanceAs (Decidable (_ ∨ _))
  | .iget _ => inferInstanceAs (Decidable (∀ _, _))
  | .idup _ | .ilock _ | .unlink _ | .iunlock _ | .iput _ | .free _ | .releasesleep _ | .decRef _ => .isTrue trivial

def inTurn : List (Act 2) :=
  unlinked ++ [.iput 0, .readRef 0, .releasesleep 0, .decRef 0, .iput 1, .readRef 1, .free 1,
    .releasesleep 1, .decRef 1]

theorem freed_by_last_iput_inTurn :
    ∃ s, (system 2).ReachIf Orderly s ∧ s.ref = 0 ∧ s.nlink = 0 ∧ s.frees = 1 := by
  have hrun : ((system 2).runIf Orderly (fresh 2) inTurn).map (fun s => (s.ref, s.nlink)) = some (0, 0) := by decide
  obtain ⟨s, hreach, he⟩ := (system 2).reachIf_of_map (fresh_init 2) hrun
  simp only [Prod.mk.injEq] at he
  exact ⟨s, hreach, he.1, he.2, (freed_by_last_iput 2 s hreach).2.2.2.2 he.1 he.2⟩

end Xv6.Iput
