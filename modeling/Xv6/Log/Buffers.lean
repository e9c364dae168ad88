import Xv6.Bio.Cache
import Xv6.Log.Group

/-!
# Buffers and the log

Any number of processes read, write and log blocks through the buffer cache. A process that is not in `commit` may
call `bread` and `brelse` for any blocks in any order, with or without `begin_op`: the system calls are some of these
orders. `commit` is spelled out. What is in the blocks plays no role.
-/

open Lib Function

namespace Xv6.Buffers

inductive Cmd where
  | bread (blockno : Nat)
  | bwrite (blockno : Nat)
  | brelse (blockno : Nat)
  deriving DecidableEq, Repr

def Cmd.isWrite : Cmd → Bool
  | .bwrite _ => true
  | _ => false

def write_log (log : Log) : List Cmd :=
  (List.range log.lh.n).flatMap fun tail =>
    [.bread (log.start + tail + 1), .bread (log.lh.block tail), .bwrite (log.start + tail + 1),
     .brelse (log.lh.block tail), .brelse (log.start + tail + 1)]

def write_head (log : Log) : List Cmd := [.bread log.start, .bwrite log.start, .brelse log.start]

def install_trans (log : Log) : List Cmd :=
  (List.range log.lh.n).flatMap fun tail =>
    [.bread (log.start + tail + 1), .bread (log.lh.block tail), .bwrite (log.lh.block tail),
     .brelse (log.start + tail + 1), .brelse (log.lh.block tail)]

def commit (log : Log) : List Cmd :=
  if log.lh.n > 0 then write_log log ++ write_head log ++ install_trans log else []

def commitEnd (log : Log) : List Cmd := if log.lh.n > 0 then write_head log else []

inductive Wait where
  | none
  | read (i : Fin NBUF)
  | write (i : Fin NBUF)
  deriving DecidableEq, Repr

/-- `todo` is the rest of `commit`. `pinned` is history: the blocks that `log_write` has marked and `bwrite` has not
written since. -/
structure State (nproc : Nat) where
  cache : Cache.State nproc
  group : Group.State nproc
  wait : Fin nproc → Wait
  todo : Fin nproc → List Cmd
  pinned : Finset Nat

inductive Act (nproc : Nat) where
  | bread (p : Fin nproc) (blockno : Nat)
  | acquiresleep (p : Fin nproc)
  /-- `ideintr` for the buffer that the process waits for. -/
  | ideintr (p : Fin nproc)
  | bwrite (p : Fin nproc) (i : Fin NBUF)
  | brelse (p : Fin nproc) (i : Fin NBUF)
  | brelseSection (p : Fin nproc)
  | begin_op (p : Fin nproc)
  | enter (p : Fin nproc)
  | wake (p : Fin nproc)
  | log_write (p : Fin nproc) (i : Fin NBUF)
  /-- `log_write` under `log.lock`. -/
  | absorb (p : Fin nproc) (i : Fin NBUF)
  | end_op (p : Fin nproc)
  /-- `log.lh.n = 0` in `commit`. -/
  | clear (p : Fin nproc)
  | end_commit (p : Fin nproc)

variable {nproc : Nat}

namespace State

abbrev buf (s : State nproc) (i : Fin NBUF) : Buf := s.cache.bcache.buf i

def Ready (s : State nproc) (p : Fin nproc) : Prop := s.cache.pc p = .idle ∧ s.wait p = .none

instance (s : State nproc) (p : Fin nproc) : Decidable (s.Ready p) := inferInstanceAs (Decidable (_ ∧ _))

def Calls (s : State nproc) (p : Fin nproc) (c : Cmd) : Prop :=
  s.Ready p ∧ match s.group.pc p with
    -- Only `commit` calls `bwrite`.
    | .idle | .running => c.isWrite = false
    | .commit | .committed => (s.todo p).head? = some c
    | _ => False

instance (s : State nproc) (p : Fin nproc) (c : Cmd) : Decidable (s.Calls p c) := by
  unfold Calls
  cases s.group.pc p <;> infer_instance

def setCache (s : State nproc) (c : Cache.State nproc) : State nproc := { s with cache := c }

def setGroup (s : State nproc) (g : Group.State nproc) : State nproc := { s with group := g }

def setTodo (s : State nproc) (p : Fin nproc) (t : List Cmd) : State nproc := { s with todo := update s.todo p t }

def setWait (s : State nproc) (p : Fin nproc) (w : Wait) : State nproc := { s with wait := update s.wait p w }

def advance (s : State nproc) (p : Fin nproc) : State nproc := s.setTodo p (s.todo p).tail

def bread (s : State nproc) (p : Fin nproc) (blockno : Nat) : Option (State nproc) :=
  if s.Calls p (.bread blockno) then
    (Cache.step s.cache (.bget p ROOTDEV blockno)).map fun c => (s.setCache c).advance p
  else none

/-- The end of `bget`. A buffer that is not valid goes to `iderw`. -/
def acquiresleep (s : State nproc) (p : Fin nproc) : Option (State nproc) :=
  match s.cache.pc p, s.wait p with
  | .waiting i, .none =>
    (Cache.step s.cache (.acquiresleep p)).map fun c =>
      if (s.buf i).valid then s.setCache c else (s.setCache c).setWait p (.read i)
  | _, _ => none

def ideintr (s : State nproc) (p : Fin nproc) : Option (State nproc) :=
  match s.wait p with
  | .none => none
  | .read i => (Cache.step s.cache (.write p i true false (s.buf i).data)).map fun c => (s.setCache c).setWait p .none
  | .write i =>
    (Cache.step s.cache (.write p i true false (s.buf i).data)).map fun c =>
      { ((s.setCache c).setWait p .none).advance p with pinned := s.pinned.erase (s.buf i).blockno }

def bwrite (s : State nproc) (p : Fin nproc) (i : Fin NBUF) : Option (State nproc) :=
  if s.Calls p (.bwrite (s.buf i).blockno) then
    (Cache.step s.cache (.write p i (s.buf i).valid true (s.buf i).data)).map fun c =>
    (s.setCache c).setWait p (.write i)
  else none

def brelse (s : State nproc) (p : Fin nproc) (i : Fin NBUF) : Option (State nproc) :=
  if s.Calls p (.brelse (s.buf i).blockno) then
    (Cache.step s.cache (.brelse p i)).map fun c => (s.setCache c).advance p
  else none

def log_write (s : State nproc) (p : Fin nproc) (i : Fin NBUF) : Option (State nproc) :=
  if s.Ready p ∧ s.cache.bcache.holdingsleep p i then
    (Group.step s.group (.log_write p (s.buf i).blockno)).map s.setGroup
  else none

def absorb (s : State nproc) (p : Fin nproc) (i : Fin NBUF) : Option (State nproc) :=
  if s.Ready p ∧ s.group.pc p = .logging (s.buf i).blockno then
    (Group.step s.group (.absorb p)).bind fun g =>
      (Cache.step s.cache (.write p i (s.buf i).valid true (s.buf i).data)).map fun c =>
        { (s.setCache c).setGroup g with pinned := insert (s.buf i).blockno s.pinned }
  else none

def end_op (s : State nproc) (p : Fin nproc) : Option (State nproc) :=
  if s.Ready p then
    (Group.step s.group (.end_op p)).map fun g =>
      if g.pc p = .commit then (s.setGroup g).setTodo p (commit g.log) else s.setGroup g
  else none

def clear (s : State nproc) (p : Fin nproc) : Option (State nproc) :=
  if s.Ready p ∧ s.todo p = [] then
    (Group.step s.group (.commit p)).map fun g => (s.setGroup g).setTodo p (commitEnd s.group.log)
  else none

def end_commit (s : State nproc) (p : Fin nproc) : Option (State nproc) :=
  if s.Ready p ∧ s.todo p = [] then (Group.step s.group (.end_commit p)).map s.setGroup else none

end State

def step (s : State nproc) : Act nproc → Option (State nproc)
  | .bread p blockno => s.bread p blockno
  | .acquiresleep p => s.acquiresleep p
  | .ideintr p => s.ideintr p
  | .bwrite p i => s.bwrite p i
  | .brelse p i => s.brelse p i
  | .brelseSection p => (Cache.step s.cache (.brelseSection p)).map s.setCache
  | .begin_op p => if s.Ready p then (Group.step s.group (.begin_op p)).map s.setGroup else none
  | .enter p => (Group.step s.group (.enter p)).map s.setGroup
  | .wake p => (Group.step s.group (.wake p)).map s.setGroup
  | .log_write p i => s.log_write p i
  | .absorb p i => s.absorb p i
  | .end_op p => s.end_op p
  | .clear p => s.clear p
  | .end_commit p => s.end_commit p

structure Init (size : Nat) (s : State nproc) : Prop where
  cache : (Cache.system nproc).init s.cache
  group : (Group.system nproc size).init s.group
  wait : ∀ p, s.wait p = .none
  todo : ∀ p, s.todo p = []
  pinned : s.pinned = ∅

def system (nproc size : Nat) : System (State nproc) (Act nproc) := ⟨Init size, step⟩

/-- The blocks that some process holds, waits for or is about to give up, and those that the log pins. -/
def inUse (s : State nproc) : Finset Nat :=
  (Finset.univ.filter fun i => ∃ p, 0 < Cache.uses s.cache i p).image (fun i => (s.buf i).blockno) ∪ s.pinned

structure Flags (s : State nproc) : Prop where
  dev : ∀ i, s.cache.bcache.isUnused i = false → (s.buf i).dev = ROOTDEV
  read : ∀ (p : Fin nproc) i, s.wait p = .read i → s.cache.bcache.holdingsleep p i = true ∧ (s.buf i).valid = false
  write : ∀ (p : Fin nproc) i, s.wait p = .write i → s.cache.bcache.holdingsleep p i = true
  valid : ∀ (p : Fin nproc) i, s.cache.bcache.holdingsleep p i = true → s.wait p ≠ .read i → (s.buf i).valid = true
  dirty : ∀ i, (∀ p, s.wait p ≠ .write i) → ((s.buf i).dirty = true ↔ (s.buf i).dev = ROOTDEV ∧
    (s.buf i).blockno ∈ s.pinned)
  cached : ∀ b ∈ s.pinned, ∃ i, (s.buf i).dev = ROOTDEV ∧ (s.buf i).blockno = b ∧ (s.buf i).valid = true

variable {s s' : State nproc} {p : Fin nproc} {i j : Fin NBUF} {b : Nat}

theorem isUnused_false : s.cache.bcache.isUnused i = false ↔ (s.buf i).refcnt ≠ 0 ∨ (s.buf i).dirty = true := by
  unfold Bcache.isUnused
  simp only [Bool.and_eq_false_iff, beq_eq_false_iff_ne, Bool.not_eq_false']

theorem uses_of_holding (c : Cache.State nproc) (h : c.bcache.holdingsleep p i = true) : 0 < Cache.uses c i p := by
  simp [Cache.uses, h]

theorem refcnt_pos (hc : Cache.Inv s.cache) (h : 0 < Cache.uses s.cache i p) : 0 < (s.buf i).refcnt := by
  rw [State.buf, hc.count i]
  exact Nat.lt_of_lt_of_le h (le_sum (Cache.uses s.cache i) p)

theorem exists_uses (hc : Cache.Inv s.cache) (h : (s.buf i).refcnt ≠ 0) : ∃ p, 0 < Cache.uses s.cache i p := by
  rw [State.buf, hc.count i] at h
  obtain ⟨p, -, hp⟩ := Finset.exists_ne_zero_of_sum_ne_zero h
  exact ⟨p, Nat.pos_of_ne_zero hp⟩

theorem Flags.held (hf : Flags s) (hc : Cache.Inv s.cache) (h : s.cache.bcache.holdingsleep p i = true) :
    (s.buf i).dev = ROOTDEV :=
  hf.dev i (isUnused_false.mpr (.inl (Nat.ne_of_gt (refcnt_pos hc (uses_of_holding s.cache h)))))

theorem unique_buf (hc : Cache.Inv s.cache) (hi : (s.buf i).dev = ROOTDEV) (hj : (s.buf j).dev = ROOTDEV)
    (h : (s.buf i).blockno = (s.buf j).blockno) : i = j :=
  hc.unique i j (by rw [hi]; decide) ⟨hi.trans hj.symm, h⟩

theorem holding_unique {q : Fin nproc} {c : Bcache} (hp : c.holdingsleep p i = true) (hq : c.holdingsleep q i = true) :
    p = q := by
  simp only [Bcache.holdingsleep, Bool.and_eq_true, beq_iff_eq] at hp hq
  exact Fin.ext (hp.2.symm.trans hq.2)

variable (hf : Flags s)

section

include hf

theorem Flags.unused (hc : Cache.Inv s.cache) (h : s.cache.bcache.isUnused i = true) :
    (∀ p, s.wait p ≠ .write i) ∧ (∀ p : Fin nproc, s.cache.bcache.holdingsleep p i = false) ∧
      ((s.buf i).dev = ROOTDEV → (s.buf i).blockno ∉ s.pinned) := by
  simp only [Bcache.isUnused, Bool.and_eq_true, beq_iff_eq, Bool.not_eq_true'] at h
  have hheld : ∀ p : Fin nproc, s.cache.bcache.holdingsleep p i = false := by
    intro p
    by_contra hp
    have := refcnt_pos hc (uses_of_holding s.cache (Bool.eq_true_of_not_eq_false hp))
    exact Nat.ne_of_gt this h.1
  have hwait : ∀ p, s.wait p ≠ .write i := by
    intro p hp
    have := hf.write p i hp
    rw [hheld p] at this
    cases this
  refine ⟨hwait, hheld, fun hdev hmem => ?_⟩
  have hdirty := (hf.dirty i hwait).mpr ⟨hdev, hmem⟩
  rw [State.buf, h.2] at hdirty
  cases hdirty

theorem Flags.card_inUse (hc : Cache.Inv s.cache) :
    (inUse s).card = (Finset.univ.filter fun i => s.cache.bcache.isUnused i = false).card := by
  have himage : inUse s = (Finset.univ.filter fun i => s.cache.bcache.isUnused i = false).image fun i =>
    (s.buf i).blockno := by
    ext b
    simp only [inUse, Finset.mem_union, Finset.mem_image, Finset.mem_filter, Finset.mem_univ, true_and]
    constructor
    · rintro (⟨i, ⟨p, hp⟩, rfl⟩ | hb)
      · exact ⟨i, isUnused_false.mpr (.inl (Nat.ne_of_gt (refcnt_pos hc hp))), rfl⟩
      · obtain ⟨i, hdev, hblock, -⟩ := hf.cached b hb
        refine ⟨i, ?_, hblock⟩
        by_contra hu
        exact (hf.unused hc (by simpa using hu)).2.2 hdev (hblock ▸ hb)
    · rintro ⟨i, hi, rfl⟩
      rcases Nat.eq_zero_or_pos (s.buf i).refcnt with hzero | hpos
      · -- Nobody has it, so it is dirty because of the log.
        refine .inr ((hf.dirty i fun p hp => ?_).mp ?_).2
        · have := refcnt_pos hc (uses_of_holding s.cache (hf.write p i hp))
          omega
        · exact (isUnused_false.mp hi).resolve_left (absurd hzero)
      · exact .inl ⟨i, exists_uses hc (Nat.ne_of_gt hpos), rfl⟩
  have hinj : Set.InjOn (fun i => (s.buf i).blockno)
    (Finset.univ.filter fun i => s.cache.bcache.isUnused i = false) := by
    intro i hi j hj he
    have hi' := (Finset.mem_filter.mp hi).2
    have hj' := (Finset.mem_filter.mp hj).2
    exact unique_buf hc (hf.dev i hi') (hf.dev j hj') he
  rw [himage, Finset.card_image_of_injOn hinj]

theorem Flags.inUse_le (hc : Cache.Inv s.cache) : (inUse s).card ≤ NBUF := by
  rw [hf.card_inUse hc]
  have hle := Finset.card_filter_le Finset.univ fun i => s.cache.bcache.isUnused i = false
  simpa using hle

theorem Flags.all_used (hc : Cache.Inv s.cache) :
    (∀ i, s.cache.bcache.isUnused i = false) ↔ (inUse s).card = NBUF := by
  rw [hf.card_inUse hc]
  have hall := Finset.card_filter_eq_iff (s := Finset.univ) (p := fun i => s.cache.bcache.isUnused i = false)
  simpa using hall.symm

theorem Flags.keep (hbuf : ∀ j, (s'.buf j).dev = (s.buf j).dev ∧ (s'.buf j).blockno = (s.buf j).blockno ∧
      (s'.buf j).valid = (s.buf j).valid ∧ (s'.buf j).dirty = (s.buf j).dirty)
    (hdev : ∀ j, s'.cache.bcache.isUnused j = false → (s.buf j).dev = ROOTDEV) (hwait : s'.wait = s.wait)
    (hpinned : s'.pinned = s.pinned)
    (hkept : ∀ (q : Fin nproc) j, s.cache.bcache.holdingsleep q j = true → s.wait q ≠ .none →
      s'.cache.bcache.holdingsleep q j = true) (hnew : ∀ (q : Fin nproc) j, s'.cache.bcache.holdingsleep q j = true →
      s.cache.bcache.holdingsleep q j = true ∨ (s.buf j).valid = true) : Flags s' := by
  refine ⟨fun j hj => ?_, fun q j hq => ?_, fun q j hq => ?_, fun q j hq hne => ?_, fun j hj => ?_, fun b hb => ?_⟩
  · rw [(hbuf j).1]
    exact hdev j hj
  · rw [hwait] at hq
    obtain ⟨hheld, hvalid⟩ := hf.read q j hq
    exact ⟨hkept q j hheld (by simp [hq]), (hbuf j).2.2.1.trans hvalid⟩
  · rw [hwait] at hq
    exact hkept q j (hf.write q j hq) (by simp [hq])
  · rw [(hbuf j).2.2.1]
    rw [hwait] at hne
    exact (hnew q j hq).elim (fun hq => hf.valid q j hq hne) id
  · rw [hwait] at hj
    rw [(hbuf j).1, (hbuf j).2.1, (hbuf j).2.2.2, hpinned]
    exact hf.dirty j hj
  · rw [hpinned] at hb
    obtain ⟨j, hd, hn, hv⟩ := hf.cached b hb
    exact ⟨j, (hbuf j).1.trans hd, (hbuf j).2.1.trans hn, (hbuf j).2.2.1.trans hv⟩

theorem Flags.set {v d : Bool} {data : Block} {w : Wait} (hc : Cache.Inv s.cache)
    (hp : s.cache.bcache.holdingsleep p i = true)
    (hbuf : s'.cache.bcache = s.cache.bcache.setBuf i fun b => { b with valid := v, dirty := d, data := data })
    (hwait : s'.wait = update s.wait p w) (hother : ∀ j, w ≠ .read j) (hwrite : ∀ j, w = .write j → j = i)
    (hvalid : v = true) (hpin : ∀ x, x ≠ (s.buf i).blockno → (x ∈ s'.pinned ↔ x ∈ s.pinned))
    (hdirty : w = .none → (d = true ↔ (s.buf i).blockno ∈ s'.pinned))
    (hmine : ∀ j, j ≠ i → s.wait p ≠ .read j ∧ s.wait p ≠ .write j) : Flags s' := by
  have hdevi := hf.held hc hp
  have hself : s'.buf i = { s.buf i with valid := v, dirty := d, data := data } := by
    rw [State.buf, hbuf, Cache.setBuf_same]
  have hne : ∀ j, j ≠ i → s'.buf j = s.buf j := by
    intro j hj
    rw [State.buf, hbuf, Cache.setBuf_ne _ _ _ _ hj]
  have hlock : ∀ (q : Fin nproc) j, s'.cache.bcache.holdingsleep q j = s.cache.bcache.holdingsleep q j := by
    intro q j
    refine Cache.holdingsleep_congr _ _ _ _ ?_
    rw [hbuf]
    exact Cache.setBuf_lock _ _ _ _ fun _ => rfl
  have hwaitq : ∀ q, q ≠ p → s'.wait q = s.wait q := fun q hq => by rw [hwait, update_of_ne hq]
  have hwaitp : s'.wait p = w := by rw [hwait, update_self]
  refine ⟨fun j hj => ?_, fun q j hq => ?_, fun q j hq => ?_, fun q j hq hnr => ?_, fun j hj => ?_, fun b hb => ?_⟩
  · rcases eq_or_ne j i with rfl | hji
    · rw [hself]
      exact hdevi
    · rw [hne j hji]
      refine hf.dev j ?_
      rw [isUnused_false] at hj ⊢
      rwa [hne j hji] at hj
  · rcases eq_or_ne q p with rfl | hqp
    · rw [hwaitp] at hq
      exact absurd hq (hother j)
    · rw [hwaitq q hqp] at hq
      obtain ⟨hheld, hval⟩ := hf.read q j hq
      have hji : j ≠ i := by
        rintro rfl
        exact hqp (holding_unique hheld hp)
      rw [hlock, hne j hji]
      exact ⟨hheld, hval⟩
  · rw [hlock]
    rcases eq_or_ne q p with rfl | hqp
    · rw [hwaitp] at hq
      rw [hwrite j hq]
      exact hp
    · rw [hwaitq q hqp] at hq
      exact hf.write q j hq
  · rcases eq_or_ne j i with rfl | hji
    · rw [hself]
      exact hvalid
    · rw [hlock] at hq
      rw [hne j hji]
      rcases eq_or_ne q p with rfl | hqp
      · exact hf.valid q j hq (hmine j hji).1
      · rw [hwaitq q hqp] at hnr
        exact hf.valid q j hq hnr
  · rcases eq_or_ne j i with rfl | hji
    · have hnone : w = .none := by
        cases w with
        | none => rfl
        | read k => exact absurd rfl (hother k)
        | write k => exact absurd (hwaitp.trans (congrArg Wait.write (hwrite k rfl))) (hj p)
      rw [hself]
      rw [hdirty hnone]
      exact (and_iff_right hdevi).symm
    · rw [hne j hji, hf.dirty j fun q hq => ?_]
      · refine and_congr_right fun hdevj => (hpin _ fun he => hji ?_).symm
        exact unique_buf hc hdevj hdevi he
      · rcases eq_or_ne q p with rfl | hqp
        · exact (hmine j hji).2 hq
        · exact hj q ((hwaitq q hqp).trans hq)
  · rcases eq_or_ne b (s.buf i).blockno with rfl | hbi
    · exact ⟨i, by rw [hself]; exact ⟨hdevi, rfl, hvalid⟩⟩
    · obtain ⟨j, hd, hn, hv⟩ := hf.cached b ((hpin b hbi).mp hb)
      have hji : j ≠ i := fun he => hbi (he ▸ hn.symm)
      exact ⟨j, by rw [hne j hji]; exact ⟨hd, hn, hv⟩⟩

theorem Flags.hit (hi : s.cache.bcache.isBlock ROOTDEV b i = true)
    (hbuf : s'.cache.bcache = Cache.hit s.cache.bcache i) (hwait : s'.wait = s.wait) (hpinned : s'.pinned = s.pinned) :
    Flags s' := by
  have hlock : ∀ (q : Fin nproc) j, s'.cache.bcache.holdingsleep q j = s.cache.bcache.holdingsleep q j := by
    intro q j
    refine Cache.holdingsleep_congr _ _ _ _ ?_
    rw [hbuf]
    exact Cache.setBuf_lock _ _ _ _ fun _ => rfl
  have hne : ∀ j, j ≠ i → s'.buf j = s.buf j := by
    intro j hj
    rw [State.buf, hbuf]
    exact Cache.setBuf_ne _ _ _ _ hj
  refine hf.keep (fun j => ?_) (fun j hj => ?_) hwait hpinned (fun q j hq _ => by rwa [hlock]) fun q j hq => ?_
  · rcases eq_or_ne j i with rfl | hji
    · rw [State.buf, hbuf, Cache.hit, Cache.setBuf_same]
      exact ⟨rfl, rfl, rfl, rfl⟩
    · rw [hne j hji]
      exact ⟨rfl, rfl, rfl, rfl⟩
  · rcases eq_or_ne j i with rfl | hji
    · simp only [Bcache.isBlock, Bool.and_eq_true, beq_iff_eq] at hi
      exact hi.1
    · refine hf.dev j ?_
      rw [isUnused_false] at hj ⊢
      rwa [hne j hji] at hj
  · rw [hlock] at hq
    exact .inl hq

theorem Flags.recycle (hc : Cache.Inv s.cache) (hno : ∀ j, s.cache.bcache.isBlock ROOTDEV b j = false)
    (hi : s.cache.bcache.isUnused i = true) (hbuf : s'.cache.bcache = Cache.recycle s.cache.bcache ROOTDEV b i)
    (hwait : s'.wait = s.wait) (hpinned : s'.pinned = s.pinned) : Flags s' := by
  obtain ⟨hnw, hnh, hnp⟩ := hf.unused hc hi
  have hlock : ∀ (q : Fin nproc) j, s'.cache.bcache.holdingsleep q j = s.cache.bcache.holdingsleep q j := by
    intro q j
    refine Cache.holdingsleep_congr _ _ _ _ ?_
    rw [hbuf]
    exact Cache.setBuf_lock _ _ _ _ fun _ => rfl
  have hself : s'.buf i =
      { s.buf i with dev := ROOTDEV, blockno := b, valid := false, dirty := false, refcnt := 1 } := by
    rw [State.buf, hbuf, Cache.recycle, Cache.setBuf_same]
  have hne : ∀ j, j ≠ i → s'.buf j = s.buf j := by
    intro j hj
    rw [State.buf, hbuf]
    exact Cache.setBuf_ne _ _ _ _ hj
  have hji : ∀ (q : Fin nproc) j, s.cache.bcache.holdingsleep q j = true → j ≠ i := by
    rintro q j hq rfl
    rw [hnh q] at hq
    cases hq
  -- The block is not cached, so it is not pinned.
  have hb : b ∉ s.pinned := by
    intro hb
    obtain ⟨j, hd, hn, -⟩ := hf.cached b hb
    have := hno j
    simp [Bcache.isBlock, hd, hn] at this
  refine ⟨fun j hj => ?_, fun q j hq => ?_, fun q j hq => ?_, fun q j hq hnr => ?_, fun j hj => ?_, fun x hx => ?_⟩
  · rcases eq_or_ne j i with rfl | hji
    · rw [hself]
    · rw [hne j hji]
      refine hf.dev j ?_
      rw [isUnused_false] at hj ⊢
      rwa [hne j hji] at hj
  · rw [hwait] at hq
    obtain ⟨hheld, hval⟩ := hf.read q j hq
    rw [hlock, hne j (hji q j hheld)]
    exact ⟨hheld, hval⟩
  · rw [hwait] at hq
    rw [hlock]
    exact hf.write q j hq
  · rw [hlock] at hq
    rw [hwait] at hnr
    rw [hne j (hji q j hq)]
    exact hf.valid q j hq hnr
  · rw [hwait] at hj
    rw [hpinned]
    rcases eq_or_ne j i with rfl | hji
    · rw [hself]
      simp [hb]
    · rw [hne j hji]
      exact hf.dirty j hj
  · rw [hpinned] at hx
    obtain ⟨j, hd, hn, hv⟩ := hf.cached x hx
    have hji : j ≠ i := by
      rintro rfl
      exact hnp hd (hn ▸ hx)
    exact ⟨j, by rw [hne j hji]; exact ⟨hd, hn, hv⟩⟩

end

section

variable (hbuf : s'.cache.bcache = s.cache.bcache.setBuf i fun b => { b with lock := ⟨true, p⟩ })
  (hfree : (s.buf i).lock.locked = false) (hpinned : s'.pinned = s.pinned)
include hbuf

theorem acquire_buf (j : Fin NBUF) : (s'.buf j).dev = (s.buf j).dev ∧ (s'.buf j).blockno = (s.buf j).blockno ∧
    (s'.buf j).valid = (s.buf j).valid ∧ (s'.buf j).dirty = (s.buf j).dirty ∧ (s'.buf j).refcnt = (s.buf j).refcnt := by
  rcases eq_or_ne j i with rfl | hji
  · rw [State.buf, hbuf, Cache.setBuf_same]
    exact ⟨rfl, rfl, rfl, rfl, rfl⟩
  · rw [State.buf, hbuf, Cache.setBuf_ne _ _ _ _ hji]
    exact ⟨rfl, rfl, rfl, rfl, rfl⟩

theorem acquire_unused (j : Fin NBUF) : s'.cache.bcache.isUnused j = s.cache.bcache.isUnused j := by
  have hj := acquire_buf hbuf j
  simp only [Bcache.isUnused]
  rw [hj.2.2.2.1, hj.2.2.2.2]

include hfree

theorem acquire_holding (q : Fin nproc) (j : Fin NBUF) :
    s'.cache.bcache.holdingsleep q j = true ↔ s.cache.bcache.holdingsleep q j = true ∨ q = p ∧ j = i := by
  rw [hbuf]
  rcases eq_or_ne j i with rfl | hji
  · have hno : s.cache.bcache.holdingsleep q j = false := by
      rw [Bcache.holdingsleep, hfree, Bool.false_and]
    rw [hno]
    simp only [Bcache.holdingsleep, Cache.setBuf_same, Bool.true_and, beq_iff_eq, Bool.false_eq_true,
      false_or, and_true]
    exact ⟨fun he => Fin.ext he.symm, fun he => by rw [he]⟩
  · have hsame := Cache.holdingsleep_congr s.cache.bcache (s.cache.bcache.setBuf i
      fun b => { b with lock := ⟨true, p⟩ }) q j (by rw [Cache.setBuf_ne _ _ _ _ hji])
    rw [hsame]
    simp [hji]

include hpinned

theorem Flags.acquire_valid (hf : Flags s) (hv : (s.buf i).valid = true) (hwait : s'.wait = s.wait) : Flags s' := by
  have hold := acquire_holding hbuf hfree
  refine hf.keep (fun j => ?_) (fun j hj => ?_) hwait hpinned (fun q j hq _ => (hold q j).mpr (.inl hq))
    fun q j hq => ?_
  · obtain ⟨h₁, h₂, h₃, h₄, -⟩ := acquire_buf hbuf j
    exact ⟨h₁, h₂, h₃, h₄⟩
  · rw [acquire_unused hbuf] at hj
    exact hf.dev j hj
  · exact ((hold q j).mp hq).imp id fun ⟨_, hj⟩ => hj ▸ hv

theorem Flags.acquire_read (hf : Flags s) (hv : (s.buf i).valid = false) (hp : s.wait p = .none)
    (hwait : s'.wait = update s.wait p (.read i)) : Flags s' := by
  have hold := acquire_holding hbuf hfree
  have hsame := acquire_buf hbuf
  have hwaitq : ∀ q, q ≠ p → s'.wait q = s.wait q := fun q hq => by rw [hwait, update_of_ne hq]
  have hwaitp : s'.wait p = .read i := by rw [hwait, update_self]
  refine ⟨fun j hj => ?_, fun q j hq => ?_, fun q j hq => ?_, fun q j hq hnr => ?_, fun j hj => ?_, fun b hb => ?_⟩
  · rw [acquire_unused hbuf] at hj
    rw [(hsame j).1]
    exact hf.dev j hj
  · rw [(hsame j).2.2.1]
    rcases eq_or_ne q p with rfl | hqp
    · obtain rfl : i = j := Wait.read.inj (hwaitp.symm.trans hq)
      exact ⟨(hold q i).mpr (.inr ⟨rfl, rfl⟩), hv⟩
    · rw [hwaitq q hqp] at hq
      exact ⟨(hold q j).mpr (.inl (hf.read q j hq).1), (hf.read q j hq).2⟩
  · rcases eq_or_ne q p with rfl | hqp
    · rw [hwaitp] at hq
      cases hq
    · rw [hwaitq q hqp] at hq
      exact (hold q j).mpr (.inl (hf.write q j hq))
  · rw [(hsame j).2.2.1]
    rcases (hold q j).mp hq with hq | ⟨rfl, rfl⟩
    · rcases eq_or_ne q p with rfl | hqp
      · exact hf.valid q j hq (by simp [hp])
      · rw [hwaitq q hqp] at hnr
        exact hf.valid q j hq hnr
    · exact absurd hwaitp hnr
  · obtain ⟨h₁, h₂, -, h₄, -⟩ := hsame j
    rw [h₁, h₂, h₄, hpinned]
    refine hf.dirty j fun q hq => ?_
    rcases eq_or_ne q p with rfl | hqp
    · rw [hp] at hq
      cases hq
    · exact hj q ((hwaitq q hqp).trans hq)
  · rw [hpinned] at hb
    obtain ⟨j, hd, hn, hval⟩ := hf.cached b hb
    obtain ⟨h₁, h₂, h₃, -⟩ := hsame j
    exact ⟨j, h₁.trans hd, h₂.trans hn, h₃.trans hval⟩

end

theorem Flags.release (hf : Flags s) (hp : s.wait p = .none) (hheld : s.cache.bcache.holdingsleep p i = true)
    (hbuf : s'.cache.bcache = s.cache.bcache.releasesleep i) (hwait : s'.wait = s.wait)
    (hpinned : s'.pinned = s.pinned) :
    Flags s' := by
  have hsame : ∀ j, s'.buf j = { s.buf j with lock := (s'.buf j).lock } := by
    intro j
    rcases eq_or_ne j i with rfl | hji
    · rw [State.buf, hbuf, Bcache.releasesleep, Cache.setBuf_same]
    · rw [State.buf, hbuf, Bcache.releasesleep, Cache.setBuf_ne _ _ _ _ hji]
  have hlock : ∀ (q : Fin nproc) j, s'.cache.bcache.holdingsleep q j = true ↔
      s.cache.bcache.holdingsleep q j = true ∧ j ≠ i := by
    intro q j
    rw [hbuf]
    rcases eq_or_ne j i with rfl | hji
    · simp [Bcache.holdingsleep, Bcache.releasesleep]
    · simp [Bcache.holdingsleep, Bcache.releasesleep, hji]
  refine hf.keep (fun j => ?_) (fun j hj => hf.dev j ?_) hwait hpinned (fun q j hq hw => (hlock q j).mpr ⟨hq, ?_⟩)
    fun q j hq =>
    .inl ((hlock q j).mp hq).1
  · rw [hsame j]
    exact ⟨rfl, rfl, rfl, rfl⟩
  · rw [isUnused_false, hsame j] at hj
    exact isUnused_false.mpr hj
  · rintro rfl
    rw [holding_unique hq hheld] at hw
    exact hw hp

theorem Flags.put (hf : Flags s) (hbuf : s'.cache.bcache = s.cache.bcache.brelseSection i) (hwait : s'.wait = s.wait)
    (hpinned : s'.pinned = s.pinned) : Flags s' := by
  have hsame : ∀ j, ∃ n, n ≤ (s.buf j).refcnt ∧ s'.buf j = { s.buf j with refcnt := n } := by
    intro j
    rcases eq_or_ne j i with rfl | hji
    · refine ⟨(s.buf j).refcnt - 1, Nat.sub_le .., ?_⟩
      rw [State.buf, hbuf, Cache.brelseSection_buf, Cache.setBuf_same]
    · refine ⟨(s.buf j).refcnt, Nat.le_refl _, ?_⟩
      rw [State.buf, hbuf, Cache.brelseSection_buf, Cache.setBuf_ne _ _ _ _ hji]
  have hlock : ∀ (q : Fin nproc) j, s'.cache.bcache.holdingsleep q j = s.cache.bcache.holdingsleep q j := by
    intro q j
    obtain ⟨n, -, hn⟩ := hsame j
    exact Cache.holdingsleep_congr _ _ _ _ (by rw [show s'.cache.bcache.buf j = _ from hn])
  refine hf.keep (fun j => ?_) (fun j hj => hf.dev j ?_) hwait hpinned (fun q j hq _ => by rwa [hlock]) fun q j hq =>
    .inl (by rwa [hlock] at hq)
  · obtain ⟨n, -, hn⟩ := hsame j
    rw [hn]
    exact ⟨rfl, rfl, rfl, rfl⟩
  · obtain ⟨n, hle, hn⟩ := hsame j
    rw [isUnused_false, hn] at hj
    exact isUnused_false.mpr (hj.imp (fun h hz => h (by dsimp only; omega)) id)

structure Pins (s : State nproc) : Prop where
  logged : ∀ b ∈ s.pinned, b ∈ s.group.log.lh.blocks
  all : s.group.log.committing = false → ∀ b ∈ s.group.log.lh.blocks, b ∈ s.pinned
  left : ∀ p, s.group.pc p = .commit → ∀ b ∈ s.pinned, .bwrite b ∈ s.todo p
  writing : ∀ p i, s.wait p = .write i →
    (s.group.pc p).commits = 1 ∧ (s.todo p).head? = some (.bwrite (s.buf i).blockno)

theorem mem_commit {log : Log} (hb : b ∈ log.lh.blocks) : .bwrite b ∈ commit log := by
  obtain ⟨tail, htail, rfl⟩ := (log.lh.mem_blocks b).mp hb
  unfold commit
  rw [if_pos (by omega)]
  refine List.mem_append_right _ (List.mem_flatMap.mpr ⟨tail, List.mem_range.mpr htail, ?_⟩)
  simp

theorem Pins.keep (hp : Pins s) (hpinned : s'.pinned = s.pinned) (hlh : s'.group.log.lh = s.group.log.lh)
    (hcommitting : s'.group.log.committing = s.group.log.committing)
    (hpc : ∀ q, (s'.group.pc q).commits = (s.group.pc q).commits ∧ (s'.group.pc q = .commit → s.group.pc q = .commit))
    (htodo : ∀ q, s.group.pc q = .commit → ∀ b, .bwrite b ∈ s.todo q → .bwrite b ∈ s'.todo q)
    (hwriting : ∀ q j, s'.wait q = .write j → s.wait q = .write j ∧ (s'.buf j).blockno = (s.buf j).blockno ∧
        (s'.todo q).head? = (s.todo q).head? ∨
      (s.group.pc q).commits = 1 ∧ (s'.todo q).head? = some (.bwrite (s'.buf j).blockno)) : Pins s' := by
  refine ⟨fun b hb => ?_, fun hc b hb => ?_, fun q hq b hb => ?_, fun q j hq => ?_⟩
  · rw [hlh]
    exact hp.logged b (hpinned ▸ hb)
  · rw [hpinned]
    exact hp.all (hcommitting ▸ hc) b (hlh ▸ hb)
  · exact htodo q ((hpc q).2 hq) b (hp.left q ((hpc q).2 hq) b (hpinned ▸ hb))
  · rw [(hpc q).1]
    rcases hwriting q j hq with ⟨hq, hblock, hhead⟩ | hq
    · rw [hblock, hhead]
      exact hp.writing q j hq
    · exact hq

theorem Pins.cache (hp : Pins s) (hpinned : s'.pinned = s.pinned) (hgroup : s'.group = s.group)
    (htodo : s'.todo = s.todo ∨ ∃ c : Cmd, c.isWrite = false ∧ s'.todo = update s.todo p (s.todo p).tail ∧
      s.Calls p c)
    (hwait : ∀ q j, s'.wait q = .write j → s.wait q = .write j)
    (hblock : ∀ q j, s.wait q = .write j → (s'.buf j).blockno = (s.buf j).blockno) : Pins s' := by
  refine hp.keep hpinned (by rw [hgroup]) (by rw [hgroup]) (fun q => by rw [hgroup]; exact ⟨rfl, id⟩)
    (fun q hq b hb => ?_)
    fun q j hq => .inl ⟨hwait q j hq, hblock q j (hwait q j hq), ?_⟩
  · rcases htodo with htodo | ⟨c, hc, htodo, hcalls⟩
    · rwa [htodo]
    · rw [htodo]
      rcases eq_or_ne q p with rfl | hqp
      · -- The call that is done is another one.
        have hhead : (s.todo q).head? = some c := by
          have := hcalls.2
          rw [hq] at this
          exact this
        obtain ⟨rest, hrest⟩ : ∃ rest, s.todo q = c :: rest := by
          rcases ht : s.todo q with _ | ⟨d, rest⟩
          · rw [ht] at hhead
            cases hhead
          · rw [ht] at hhead
            exact ⟨rest, by rw [Option.some.inj hhead]⟩
        rw [update_self, hrest, List.tail_cons]
        rw [hrest] at hb
        refine List.mem_of_ne_of_mem ?_ hb
        rintro rfl
        cases hc
      · rwa [update_of_ne hqp]
  · rcases htodo with htodo | ⟨c, hc, htodo, hcalls⟩
    · rw [htodo]
    · have hqp : q ≠ p := by
        rintro rfl
        have hnone := hcalls.1.2
        rw [hwait q j hq] at hnone
        cases hnone
      rw [htodo, update_of_ne hqp]

structure Inv (s : State nproc) : Prop where
  cache : Cache.Inv s.cache
  group : Group.Inv s.group
  flags : Flags s
  pins : Pins s

theorem init_inv {size : Nat} (hs : Init size s) : Inv s := by
  have hbuf : ∀ i, s.buf i = Bcache.boot.buf i := by
    intro i
    have hcache : s.cache = { bcache := Bcache.boot.binit, pc := fun _ => .idle } := hs.cache
    rw [State.buf, hcache]
    rfl
  obtain ⟨start, block, hgroup⟩ := hs.group
  refine ⟨Cache.inv_init _ hs.cache, ?_, ⟨fun i hi => ?_, fun p i hw => ?_, fun p i hw => ?_, fun p i hh => ?_,
    fun i _ => ?_, fun b hb => ?_⟩, fun b hb => ?_, fun _ b hb => ?_, fun p hp b hb => ?_, fun p i hw => ?_⟩
  · rw [hgroup]
    exact Group.inv_initial nproc start size block
  · rw [isUnused_false, hbuf i] at hi
    simp [Bcache.boot] at hi
  · rw [hs.wait p] at hw
    cases hw
  · rw [hs.wait p] at hw
    cases hw
  · rw [Bcache.holdingsleep, show s.cache.bcache.buf i = _ from hbuf i] at hh
    cases hh
  · rw [hbuf i, hs.pinned]
    simp [Bcache.boot]
  · rw [hs.pinned] at hb
    cases hb
  · rw [hs.pinned] at hb
    cases hb
  · rw [hgroup] at hb
    cases hb
  · rw [hs.pinned] at hb
    cases hb
  · rw [hs.wait p] at hw
    cases hw

section

variable {c : Cache.State nproc} {g : Group.State nproc}

theorem cache_inv {a : Cache.Act nproc} (hc : Cache.Inv s.cache) (h : Cache.step s.cache a = some c) : Cache.Inv c :=
  Cache.inv_step s.cache a c hc h

theorem held_block {a : Cache.Act nproc} (hi : Inv s) (h : Cache.step s.cache a = some c)
    (hheld : s.cache.bcache.holdingsleep p i = true) : (c.bcache.buf i).blockno = (s.buf i).blockno := by
  have hmove := Cache.move_of_step s.cache c a hi.cache.linked h
  exact (Cache.move_identity _ _ hmove i (.inl (refcnt_pos hi.cache (uses_of_holding s.cache hheld)))).2

theorem written_block {a : Cache.Act nproc} (hi : Inv s) (h : Cache.step s.cache a = some c) (q : Fin nproc)
    (j : Fin NBUF)
    (hw : s.wait q = .write j) : (c.bcache.buf j).blockno = (s.buf j).blockno := held_block hi h (hi.flags.write q j hw)

theorem bread_inv (hi : Inv s) (h : s.bread p b = some s') : Inv s' := by
  unfold State.bread at h
  split_ifs at h with hcalls
  obtain ⟨c, hc, rfl⟩ := Option.map_eq_some_iff.mp h
  have hcache : Cache.Inv c := cache_inv hi.cache hc
  have hblock := written_block hi hc
  have hflags : Flags ((s.setCache c).advance p) := by
    simp only [Cache.step] at hc
    rw [if_pos hcalls.1.1] at hc
    rcases Cache.bgetSection_cases s.cache.bcache ROOTDEV b hi.cache.linked with ⟨i, hbl, he⟩ |
      ⟨i, hno, hun, he⟩ | ⟨-, -, he⟩
    · rw [he] at hc
      cases hc
      exact hi.flags.hit hbl rfl rfl rfl
    · rw [he] at hc
      cases hc
      exact hi.flags.recycle hi.cache hno hun rfl rfl rfl
    · rw [he] at hc
      cases hc
  exact ⟨hcache, hi.group, hflags, hi.pins.cache rfl rfl (.inr ⟨.bread b, rfl, rfl, hcalls⟩) (fun _ _ hw => hw) hblock⟩

theorem acquiresleep_inv (hi : Inv s) (h : s.acquiresleep p = some s') : Inv s' := by
  unfold State.acquiresleep at h
  split at h
  · rename_i i hpc hwait
    obtain ⟨c, hc, hs'⟩ := Option.map_eq_some_iff.mp h
    have hcache : Cache.Inv c := cache_inv hi.cache hc
    have hblock := written_block hi hc
    simp only [Cache.step, hpc, Bcache.acquiresleep] at hc
    have hfree : (s.buf i).lock.locked = false := by
      by_contra hlocked
      rw [if_pos (Bool.eq_true_of_not_eq_false hlocked)] at hc
      cases hc
    rw [if_neg (by rw [hfree]; exact Bool.false_ne_true)] at hc
    cases hc
    split_ifs at hs' with hvalid
    · subst hs'
      exact ⟨hcache, hi.group, hi.flags.acquire_valid rfl hfree rfl hvalid rfl,
        hi.pins.cache (p := p) rfl rfl (.inl rfl) (fun _ _ hw => hw) hblock⟩
    · subst hs'
      refine ⟨hcache, hi.group, hi.flags.acquire_read rfl hfree rfl (Bool.eq_false_iff.mpr hvalid) hwait rfl,
        hi.pins.cache (p := p) rfl rfl (.inl rfl) (fun q j hw => ?_) hblock⟩
      rcases eq_or_ne q p with rfl | hqp
      · simp only [State.setWait, update_self] at hw
        cases hw
      · simpa only [State.setWait, State.setCache, update_of_ne hqp] using hw
  · cases h

theorem write_step {v d : Bool} {data : Block} (h : Cache.step s.cache (.write p i v d data) = some c) :
    s.cache.bcache.holdingsleep p i = true ∧
    c = Cache.setPc s.cache p (s.cache.bcache.setBuf i fun b => { b with valid := v, dirty := d, data := data })
      .idle := by
  simp only [Cache.step] at h
  split_ifs at h with hp
  exact ⟨hp.2, (Option.some.inj h).symm⟩

theorem ideintr_inv (hi : Inv s) (h : s.ideintr p = some s') : Inv s' := by
  unfold State.ideintr at h
  split at h
  · cases h
  · rename_i i hw
    obtain ⟨c, hc, rfl⟩ := Option.map_eq_some_iff.mp h
    have hcache : Cache.Inv c := cache_inv hi.cache hc
    have hblock := written_block hi hc
    obtain ⟨hheld, rfl⟩ := write_step hc
    refine ⟨hcache, hi.group, hi.flags.set (w := .none) hi.cache hheld rfl rfl (by simp)
      (by simp) rfl (fun _ _ => Iff.rfl) (fun _ => ?_)
      fun j hj => ⟨?_, ?_⟩, hi.pins.cache (p := p) rfl rfl (.inl rfl) (fun q j hw => ?_) hblock⟩
    · -- The buffer was not valid, and those of pinned blocks are.
      refine ⟨fun h => (by cases h), fun hmem => ?_⟩
      obtain ⟨j, hd, hn, hv⟩ := hi.flags.cached _ hmem
      obtain rfl := unique_buf hi.cache hd (hi.flags.held hi.cache hheld) hn
      rw [(hi.flags.read p j hw).2] at hv
      exact hv
    · rw [hw]
      rintro he
      exact hj (Wait.read.inj he).symm
    · rw [hw]
      rintro ⟨⟩
    · rcases eq_or_ne q p with rfl | hqp
      · simp only [State.setWait, update_self] at hw
        cases hw
      · simpa only [State.setWait, State.setCache, update_of_ne hqp] using hw
  · rename_i i hw
    obtain ⟨c, hc, rfl⟩ := Option.map_eq_some_iff.mp h
    have hcache : Cache.Inv c := cache_inv hi.cache hc
    have hblock := written_block hi hc
    obtain ⟨hheld, rfl⟩ := write_step hc
    obtain ⟨hcommits, hhead⟩ := hi.pins.writing p i hw
    refine ⟨hcache, hi.group, hi.flags.set (w := .none) hi.cache hheld rfl rfl (by simp) (by simp) rfl (fun x hx => ?_)
      (fun _ => ?_)
      fun j hj => ⟨?_, ?_⟩, ?_⟩
    · exact Finset.mem_erase.trans (and_iff_right hx)
    · exact ⟨fun h => (by cases h), fun h => absurd rfl (Finset.mem_erase.mp h).1⟩
    · rw [hw]
      rintro ⟨⟩
    · rw [hw]
      rintro he
      exact hj (Wait.write.inj he).symm
    · obtain ⟨rest, hrest⟩ : ∃ rest, s.todo p = .bwrite (s.buf i).blockno :: rest := by
        rcases ht : s.todo p with _ | ⟨d, rest⟩
        · rw [ht] at hhead
          cases hhead
        · rw [ht] at hhead
          exact ⟨rest, by rw [Option.some.inj hhead]⟩
      refine ⟨fun b hb => hi.pins.logged b (Finset.mem_of_mem_erase hb), fun hno => ?_, fun q hq b hb => ?_,
        fun q j hq => ?_⟩
      · have := Group.committing_of_commits s.group p hi.group hcommits
        rw [show s.group.log.committing = false from hno] at this
        cases this
      · obtain ⟨hne, hb⟩ := Finset.mem_erase.mp hb
        have hleft := hi.pins.left q hq b hb
        dsimp only [State.advance, State.setTodo, State.setWait, State.setCache]
        rcases eq_or_ne q p with rfl | hqp
        · rw [update_self, hrest, List.tail_cons]
          rw [hrest] at hleft
          refine List.mem_of_ne_of_mem (fun he => hne (Cmd.bwrite.inj he)) hleft
        · rwa [update_of_ne hqp]
      · dsimp only [State.advance, State.setTodo, State.setWait, State.setCache] at hq ⊢
        have hqp : q ≠ p := by
          rintro rfl
          rw [update_self] at hq
          cases hq
        rw [update_of_ne hqp] at hq ⊢
        obtain ⟨hcommits', hhead'⟩ := hi.pins.writing q j hq
        refine ⟨hcommits', hhead'.trans ?_⟩
        exact congrArg (fun b => some (Cmd.bwrite b)) (hblock q j hq).symm

theorem bwrite_inv (hi : Inv s) (h : s.bwrite p i = some s') : Inv s' := by
  unfold State.bwrite at h
  split_ifs at h with hcalls
  obtain ⟨c, hc, rfl⟩ := Option.map_eq_some_iff.mp h
  have hcache : Cache.Inv c := cache_inv hi.cache hc
  have hblock := written_block hi hc
  have hself := fun h => held_block (i := i) (p := p) hi hc h
  obtain ⟨hheld, rfl⟩ := write_step hc
  obtain ⟨⟨hidle, hwait⟩, hpc⟩ := hcalls
  have hvalid : (s.buf i).valid = true := hi.flags.valid p i hheld (by rw [hwait]; rintro ⟨⟩)
  refine ⟨hcache, hi.group, hi.flags.set (w := .write i) hi.cache hheld rfl rfl (by simp)
    (fun j he => (Wait.write.inj he).symm) hvalid
    (fun _ _ => Iff.rfl) (by rintro ⟨⟩) fun j _ => by rw [hwait]; exact ⟨by rintro ⟨⟩, by rintro ⟨⟩⟩, ?_⟩
  refine hi.pins.keep rfl rfl rfl (fun _ => ⟨rfl, id⟩) (fun _ _ _ hb => hb) fun q j hq => ?_
  rcases eq_or_ne q p with rfl | hqp
  · have hji : i = j := by
      simp only [State.setWait, update_self] at hq
      exact Wait.write.inj hq
    subst hji
    refine .inr ?_
    have hhead : (s.group.pc q).commits = 1 ∧ (s.todo q).head? = some (.bwrite (s.buf i).blockno) := by
      cases hg : s.group.pc q <;> rw [hg] at hpc <;> first | exact ⟨rfl, hpc⟩ | cases hpc
    refine ⟨hhead.1, hhead.2.trans ?_⟩
    exact congrArg (fun b => some (Cmd.bwrite b)) (hself hheld).symm
  · simp only [State.setWait, State.setCache, update_of_ne hqp] at hq
    exact .inl ⟨hq, hblock q j hq, rfl⟩

theorem brelse_inv (hi : Inv s) (h : s.brelse p i = some s') : Inv s' := by
  unfold State.brelse at h
  split_ifs at h with hcalls
  obtain ⟨c, hc, rfl⟩ := Option.map_eq_some_iff.mp h
  have hcache : Cache.Inv c := cache_inv hi.cache hc
  have hblock := written_block hi hc
  simp only [Cache.step] at hc
  split_ifs at hc with hp
  cases hc
  exact ⟨hcache, hi.group, hi.flags.release hcalls.1.2 hp.2 rfl rfl rfl,
    hi.pins.cache rfl rfl (.inr ⟨.brelse (s.buf i).blockno, rfl, rfl, hcalls⟩) (fun _ _ hw => hw) hblock⟩

theorem brelseSection_inv (hi : Inv s) (h : (Cache.step s.cache (.brelseSection p)).map s.setCache = some s') :
    Inv s' := by
  obtain ⟨c, hc, rfl⟩ := Option.map_eq_some_iff.mp h
  have hcache : Cache.Inv c := cache_inv hi.cache hc
  have hblock := written_block hi hc
  simp only [Cache.step] at hc
  split at hc
  · rename_i i hpc
    cases hc
    exact ⟨hcache, hi.group, hi.flags.put (i := i) rfl rfl rfl,
      hi.pins.cache (p := p) rfl rfl (.inl rfl) (fun _ _ hw => hw) hblock⟩
  · cases hc

theorem Flags.setGroup (hf : Flags s) (hcache : s'.cache = s.cache) (hwait : s'.wait = s.wait)
    (hpinned : s'.pinned = s.pinned) :
    Flags s' := by
  obtain ⟨cache, group, wait, todo, pinned⟩ := s
  obtain ⟨cache', group', wait', todo', pinned'⟩ := s'
  obtain rfl : cache' = cache := hcache
  obtain rfl : wait' = wait := hwait
  obtain rfl : pinned' = pinned := hpinned
  exact ⟨hf.dev, hf.read, hf.write, hf.valid, hf.dirty, hf.cached⟩

structure Quiet (g g' : Group.State nproc) : Prop where
  lh : g'.log.lh = g.log.lh
  committing : g'.log.committing = g.log.committing
  pc : ∀ q, (g'.pc q).commits = (g.pc q).commits ∧ (g'.pc q = .commit → g.pc q = .commit)

theorem quiet_setPc {g : Group.State nproc} {pc : Group.Pc} (hold : (g.pc p).commits = 0) (hnew : pc.commits = 0) :
    Quiet g (Group.setPc g p pc) := by
  refine ⟨rfl, rfl, fun q => ?_⟩
  simp only [Group.setPc]
  rcases eq_or_ne q p with rfl | hqp
  · rw [update_self, hold, hnew]
    refine ⟨rfl, fun he => ?_⟩
    rw [he] at hnew
    cases hnew
  · rw [update_of_ne hqp]
    exact ⟨rfl, id⟩

theorem quiet_enter {g : Group.State nproc} (hp : g.pc p = .beginning) : Quiet g (Group.enter g p) := by
  have hold : (g.pc p).commits = 0 := by rw [hp]; rfl
  unfold Group.enter
  split_ifs
  · exact quiet_setPc hold rfl
  · exact quiet_setPc hold rfl
  · have hq : Quiet g (Group.setPc g p .running) := quiet_setPc hold rfl
    exact ⟨hq.lh, hq.committing, hq.pc⟩

theorem quiet_log_write {g : Group.State nproc} (hp : g.pc p = .running) (b : Nat) :
    Quiet g (Group.log_write g p b) := by
  unfold Group.log_write
  split_ifs
  · exact ⟨rfl, rfl, fun _ => ⟨rfl, id⟩⟩
  · exact ⟨rfl, rfl, fun _ => ⟨rfl, id⟩⟩
  · exact quiet_setPc (by rw [hp]; rfl) rfl

theorem quiet_inv (hi : Inv s) (hg : Group.Inv g) (hq : Quiet s.group g) : Inv (s.setGroup g) :=
  ⟨hi.cache, hg, hi.flags.setGroup rfl rfl rfl,
    hi.pins.keep rfl hq.lh hq.committing hq.pc (fun _ _ _ hb => hb) fun _ _ hw => .inl ⟨hw, rfl, rfl⟩⟩

theorem no_commit (hg : Group.Inv s.group) (hp : (s.group.pc p).busy = 1) (q : Fin nproc) :
    (s.group.pc q).commits ≠ 1 := by
  intro hq
  have := Group.committing_of_commits s.group q hg hq
  rw [Group.not_committing_of_busy s.group p hg hp] at this
  cases this

theorem absorb_inv (hi : Inv s) (h : s.absorb p i = some s') : Inv s' := by
  unfold State.absorb at h
  split_ifs at h with hp
  obtain ⟨⟨hidle, hwait⟩, hpc⟩ := hp
  obtain ⟨g, hg, h⟩ := Option.bind_eq_some_iff.mp h
  obtain ⟨c, hc, rfl⟩ := Option.map_eq_some_iff.mp h
  have hcache : Cache.Inv c := cache_inv hi.cache hc
  obtain ⟨hheld, rfl⟩ := write_step hc
  have hmove := (Group.move_of_step _ _ _ hg).2
  have hgroup := Group.inv_move _ _ _ hi.group hmove
  obtain rfl : g = Group.absorb s.group p (s.buf i).blockno := by
    cases hmove with
    | absorb p b hb =>
      obtain rfl := Group.Pc.logging.inj (hb.symm.trans hpc)
      rfl
  have hbusy : (s.group.pc p).busy = 1 := by rw [hpc]; rfl
  have hvalid : (s.buf i).valid = true := hi.flags.valid p i hheld (by rw [hwait]; rintro ⟨⟩)
  have hblocks : ∀ b, b ∈ (s.group.log.lh.absorb (s.buf i).blockno).blocks ↔ b ∈ s.group.log.lh.blocks ∨
    b = (s.buf i).blockno := by
    intro b
    rw [LogHeader.absorb_blocks]
    split_ifs with hmem
    · exact ⟨.inl, fun h => h.elim id fun he => he ▸ hmem⟩
    · simp
  refine ⟨hcache, hgroup, hi.flags.set (w := .none) hi.cache hheld rfl ?_ (by simp) (by simp) hvalid (fun x hx => ?_)
    (fun _ => ?_)
    fun j _ => by
      rw [hwait]
      exact ⟨by rintro ⟨⟩, by rintro ⟨⟩⟩, fun b hb => ?_, fun hno b hb => ?_, fun q hq => ?_, fun q j hq => ?_⟩
  · exact (update_eq_self_iff.mpr hwait.symm).symm
  · exact Finset.mem_insert.trans (or_iff_right hx)
  · exact ⟨fun _ => Finset.mem_insert_self _ _, fun _ => rfl⟩
  · refine (hblocks b).mpr ((Finset.mem_insert.mp hb).symm.imp (hi.pins.logged b) id)
  · refine Finset.mem_insert.mpr (((hblocks b).mp hb).symm.imp id fun hb => hi.pins.all ?_ b hb)
    exact Group.not_committing_of_busy s.group p hi.group hbusy
  · -- Nobody is in `commit`.
    exfalso
    refine no_commit hi.group hbusy q ?_
    dsimp only [State.setGroup, State.setCache, Group.absorb, Group.setPc] at hq
    rcases eq_or_ne q p with rfl | hqp
    · rw [update_self] at hq
      cases hq
    · rw [update_of_ne hqp] at hq
      rw [hq]
      rfl
  · exact absurd (hi.pins.writing q j hq).1 (no_commit hi.group hbusy q)

theorem end_op_inv (hi : Inv s) (h : s.end_op p = some s') : Inv s' := by
  unfold State.end_op at h
  split_ifs at h with hready
  obtain ⟨g, hg, hs'⟩ := Option.map_eq_some_iff.mp h
  have hmove := (Group.move_of_step _ _ _ hg).2
  have hgroup := Group.inv_move _ _ _ hi.group hmove
  obtain ⟨hpc, rfl⟩ : s.group.pc p = .running ∧ g = Group.end_op s.group p := by
    cases hmove with
    | end_op p hp => exact ⟨hp, rfl⟩
  have hbusy : (s.group.pc p).busy = 1 := by rw [hpc]; rfl
  have hno := Group.not_committing_of_busy s.group p hi.group hbusy
  have hall := hi.pins.all hno
  -- Nobody else comes to `commit`.
  have hother : ∀ q, q ≠ p → (Group.end_op s.group p).pc q ≠ .commit := by
    intro q hqp hq
    refine no_commit hi.group hbusy q ?_
    suffices hq' : s.group.pc q = .commit by rw [hq']; rfl
    simp only [Group.end_op] at hq
    split_ifs at hq
    · exact hq
    · simpa only [Group.setPc, update_of_ne hqp] using hq
    · simp only [Group.wakeup, Group.setPc, update_of_ne hqp] at hq
      split_ifs at hq
      exact hq
  have hlh : (Group.end_op s.group p).log.lh = s.group.log.lh := by
    unfold Group.end_op
    dsimp only
    split_ifs <;> rfl
  have hwriting : ∀ q j, s.wait q ≠ .write j := fun q j hq => no_commit hi.group hbusy q (hi.pins.writing q j hq).1
  have hinv : ∀ s₁ : State nproc, s₁.cache = s.cache → s₁.wait = s.wait → s₁.pinned = s.pinned →
      s₁.group = Group.end_op s.group p →
      ((Group.end_op s.group p).pc p = .commit → ∀ b ∈ s.group.log.lh.blocks, .bwrite b ∈ s₁.todo p) → Inv s₁ := by
    intro s₁ hc hw hpin hg htodo
    refine ⟨hc ▸ hi.cache, hg ▸ hgroup, hi.flags.setGroup hc hw hpin, fun b hb => ?_, fun _ b hb => ?_,
      fun q hq b hb => ?_, fun q j hq => absurd (hw ▸ hq) (hwriting q j)⟩
    · rw [hg, hlh]
      exact hi.pins.logged b (hpin ▸ hb)
    · rw [hg, hlh] at hb
      exact hpin ▸ hall b hb
    · rw [hg] at hq
      rcases eq_or_ne q p with rfl | hqp
      · exact htodo hq b (hi.pins.logged b (hpin ▸ hb))
      · exact absurd hq (hother q hqp)
  split_ifs at hs' with hcommit
  · subst hs'
    refine hinv _ rfl rfl rfl rfl fun _ b hb => ?_
    dsimp only [State.setTodo, State.setGroup]
    rw [update_self]
    exact mem_commit (hlh ▸ hb)
  · subst hs'
    exact hinv _ rfl rfl rfl rfl fun hq => absurd hq hcommit

theorem clear_inv (hi : Inv s) (h : s.clear p = some s') : Inv s' := by
  unfold State.clear at h
  split_ifs at h with hp
  obtain ⟨hready, htodo⟩ := hp
  obtain ⟨g, hg, rfl⟩ := Option.map_eq_some_iff.mp h
  have hmove := (Group.move_of_step _ _ _ hg).2
  have hgroup := Group.inv_move _ _ _ hi.group hmove
  obtain ⟨hpc, rfl⟩ : s.group.pc p = .commit ∧ g = Group.commit s.group p := by
    cases hmove with
    | commit p hp => exact ⟨hp, rfl⟩
  -- `commit` has written every pinned block.
  have hnone : ∀ b, b ∉ s.pinned := by
    intro b hb
    have := hi.pins.left p hpc b hb
    rw [htodo] at this
    cases this
  refine ⟨hi.cache, hgroup, hi.flags.setGroup rfl rfl rfl, fun b hb => absurd hb (hnone b), fun hno => ?_,
    fun _ _ b hb => absurd hb (hnone b), fun q j hq => ?_⟩
  · have := Group.committing_of_commits s.group p hi.group (by rw [hpc]; rfl)
    rw [show s.group.log.committing = false from hno] at this
    cases this
  · obtain ⟨hcommits, hhead⟩ := hi.pins.writing q j hq
    have hqp : q ≠ p := by
      rintro rfl
      rw [htodo] at hhead
      cases hhead
    dsimp only [State.setTodo, State.setGroup, Group.commit, Group.setPc]
    rw [update_of_ne hqp, update_of_ne hqp]
    exact ⟨hcommits, hhead⟩

theorem end_commit_inv (hi : Inv s) (h : s.end_commit p = some s') : Inv s' := by
  unfold State.end_commit at h
  split_ifs at h with hp
  obtain ⟨hready, htodo⟩ := hp
  obtain ⟨g, hg, rfl⟩ := Option.map_eq_some_iff.mp h
  have hmove := (Group.move_of_step _ _ _ hg).2
  have hgroup := Group.inv_move _ _ _ hi.group hmove
  obtain ⟨hpc, rfl⟩ : s.group.pc p = .committed ∧ g = Group.end_commit s.group p := by
    cases hmove with
    | end_commit p hp => exact ⟨hp, rfl⟩
  have hempty : s.group.log.lh.blocks = [] := by
    unfold LogHeader.blocks
    rw [hi.group.cleared p hpc]
    rfl
  have hnone : ∀ b, b ∉ s.pinned := by
    intro b hb
    have := hi.pins.logged b hb
    rw [hempty] at this
    cases this
  obtain ⟨r, hone⟩ := Group.one_committer s.group hi.group (Group.committing_of_commits s.group p hi.group
    (by rw [hpc]; rfl))
  refine ⟨hi.cache, hgroup, hi.flags.setGroup rfl rfl rfl, fun b hb => absurd hb (hnone b), fun _ b hb => ?_,
    fun _ _ b hb => absurd hb (hnone b), fun q j hq => ?_⟩
  · have hb' : b ∈ s.group.log.lh.blocks := hb
    rw [hempty] at hb'
    cases hb'
  · -- The only process that commits is not in `bwrite`.
    obtain ⟨hcommits, hhead⟩ := hi.pins.writing q j hq
    have hqp : q = p := ((hone q).mp hcommits).trans ((hone p).mp (by rw [hpc]; rfl)).symm
    rw [hqp, htodo] at hhead
    cases hhead

end

theorem step_inv {a : Act nproc} (hi : Inv s) (h : step s a = some s') : Inv s' := by
  cases a with
  | bread p b => exact bread_inv hi h
  | acquiresleep p => exact acquiresleep_inv hi h
  | ideintr p => exact ideintr_inv hi h
  | bwrite p i => exact bwrite_inv hi h
  | brelse p i => exact brelse_inv hi h
  | brelseSection p => exact brelseSection_inv hi h
  | begin_op p =>
    simp only [step] at h
    split_ifs at h
    obtain ⟨g, hg, rfl⟩ := Option.map_eq_some_iff.mp h
    have hmove := (Group.move_of_step _ _ _ hg).2
    refine quiet_inv hi (Group.inv_move _ _ _ hi.group hmove) ?_
    cases hmove with
    | begin_op p hp => exact quiet_setPc (by rw [hp]; rfl) rfl
  | enter p =>
    obtain ⟨g, hg, rfl⟩ := Option.map_eq_some_iff.mp h
    have hmove := (Group.move_of_step _ _ _ hg).2
    refine quiet_inv hi (Group.inv_move _ _ _ hi.group hmove) ?_
    cases hmove with
    | enter p hp => exact quiet_enter hp
  | wake p =>
    obtain ⟨g, hg, rfl⟩ := Option.map_eq_some_iff.mp h
    have hmove := (Group.move_of_step _ _ _ hg).2
    refine quiet_inv hi (Group.inv_move _ _ _ hi.group hmove) ?_
    cases hmove with
    | wake p hp => exact quiet_setPc (by rw [hp]; rfl) rfl
  | log_write p i =>
    simp only [step, State.log_write] at h
    split_ifs at h
    obtain ⟨g, hg, rfl⟩ := Option.map_eq_some_iff.mp h
    have hmove := (Group.move_of_step _ _ _ hg).2
    refine quiet_inv hi (Group.inv_move _ _ _ hi.group hmove) ?_
    cases hmove with
    | log_write p b hp => exact quiet_log_write hp _
  | absorb p i => exact absorb_inv hi h
  | end_op p => exact end_op_inv hi h
  | clear p => exact clear_inv hi h
  | end_commit p => exact end_commit_inv hi h

theorem inv_of_reach {size : Nat} (hs : (system nproc size).Reach s) : Inv s :=
  (system nproc size).reach_inv Inv (fun _ => init_inv) (fun _ _ _ => step_inv) s hs

/-- **When `bget` finds a buffer.** It does if the block is cached or fewer than `NBUF` blocks are in use, and panics if
not. What the log pins is in its header, and outside a commit it is all of that. -/
theorem bget_finds_buffer {size : Nat} (hs : (system nproc size).Reach s) (b : Nat) :
    ((∃ r, s.cache.bcache.bgetSection ROOTDEV b = .ok r) ↔
      (∃ i, s.cache.bcache.isBlock ROOTDEV b i = true) ∨ (inUse s).card < NBUF) ∧
    ((¬ ∃ r, s.cache.bcache.bgetSection ROOTDEV b = .ok r) →
      s.cache.bcache.bgetSection ROOTDEV b = .error (.panic "bget: no buffers")) ∧
    (∀ x ∈ s.pinned, x ∈ s.group.log.lh.blocks) ∧
    (s.group.log.committing = false → s.pinned = s.group.log.lh.blocks.toFinset) := by
  have hi := inv_of_reach hs
  have hall := hi.flags.all_used hi.cache
  have hle := hi.flags.inUse_le hi.cache
  refine ⟨?_, ?_, hi.pins.logged, fun hno => ?_⟩
  · rcases Cache.bgetSection_cases s.cache.bcache ROOTDEV b hi.cache.linked with ⟨i, hb, he⟩ | ⟨i, -, hun, he⟩ |
      ⟨hno, hun, he⟩
    · exact iff_of_true ⟨_, he⟩ (.inl ⟨i, hb⟩)
    · refine iff_of_true ⟨_, he⟩ (.inr (Nat.lt_of_le_of_ne hle fun hcard => ?_))
      have := hall.mpr hcard i
      rw [hun] at this
      cases this
    · refine iff_of_false ?_ ?_
      · rw [he]
        rintro ⟨r, ⟨⟩⟩
      · rintro (⟨i, hb⟩ | hlt)
        · rw [hno i] at hb
          cases hb
        · exact Nat.ne_of_lt hlt (hall.mp hun)
  · rcases Cache.bgetSection_cases s.cache.bcache ROOTDEV b hi.cache.linked with ⟨i, -, he⟩ | ⟨i, -, -, he⟩ | ⟨-, -, he⟩
    · exact fun hno => absurd ⟨_, he⟩ hno
    · exact fun hno => absurd ⟨_, he⟩ hno
    · exact fun _ => he
  · ext x
    rw [List.mem_toFinset]
    exact ⟨hi.pins.logged x, hi.pins.all hno x⟩

def boot : State NPROC where
  cache := { bcache := Bcache.boot.binit, pc := fun _ => .idle }
  group := Group.initial NPROC 2 LOGSIZE fun _ => 0
  wait _ := .none
  todo _ := []
  pinned := ∅

theorem boot_init : Init LOGSIZE boot := ⟨rfl, ⟨2, _, rfl⟩, fun _ => rfl, fun _ => rfl, rfl⟩

def readers (n : Nat) : List (Act NPROC) :=
  ((List.finRange NPROC).take n).flatMap fun p => [.bread p (100 + p), .acquiresleep p]

theorem bget_finds_buffer_threeReaders : ∃ s, (system NPROC LOGSIZE).Reach s ∧ (inUse s).card = 3 ∧
    ∃ r, s.cache.bcache.bgetSection ROOTDEV 103 = .ok r := by
  have hrun : ((system NPROC LOGSIZE).run boot (readers 3)).map (fun s => (inUse s).card) = some 3 := by
    decide +kernel
  obtain ⟨s, hreach, hcard⟩ := (system NPROC LOGSIZE).reach_of_map boot_init hrun
  exact ⟨s, hreach, hcard, (bget_finds_buffer hreach 103).1.mpr (.inr (by rw [hcard]; decide))⟩

/-- Thirty readers hold all buffers, and the next one finds none. It has not called `begin_op`, and nothing is in the
log. -/
theorem readers_exhaust_buffers : ∃ s, (system NPROC LOGSIZE).Reach s ∧ s.Calls ⟨30, by decide⟩ (.bread 130) ∧
    s.cache.bcache.bgetSection ROOTDEV 130 = .error (.panic "bget: no buffers") := by
  have hrun : ((system NPROC LOGSIZE).run boot (readers 30)).map
    (fun s => (decide (s.Calls ⟨30, by decide⟩ (.bread 130)),
      decide (∃ i, s.cache.bcache.isBlock ROOTDEV 130 i = true), (inUse s).card)) = some (true, false, NBUF) := by
    decide +kernel
  obtain ⟨s, hreach, hv⟩ := (system NPROC LOGSIZE).reach_of_map boot_init hrun
  simp only [Prod.mk.injEq, decide_eq_true_eq, decide_eq_false_iff_not, not_exists, Bool.not_eq_true] at hv
  obtain ⟨hcalls, hno, hcard⟩ := hv
  have hi := inv_of_reach hreach
  refine ⟨s, hreach, hcalls, ?_⟩
  rcases Cache.bgetSection_cases s.cache.bcache ROOTDEV 130 hi.cache.linked with ⟨i, hb, -⟩ |
    ⟨i, -, hun, -⟩ | ⟨-, -, he⟩
  · rw [hno i] at hb
    cases hb
  · rw [(hi.flags.all_used hi.cache).mpr hcard i] at hun
    cases hun
  · exact he

end Xv6.Buffers
