import Mathlib
import Xv6.Lib.Count
import Xv6.Lib.System
import Xv6.Log.Code

/-!
# Group commit

Any number of processes run `begin_op`, `log_write` and `end_op`. Each stretch under `log.lock`
is one step. The checks at the top of `log_write` and the body of `commit` run without the lock
and are steps of their own.
-/

open Lib Function

namespace Xv6.Group

inductive Pc where
  | idle
  /-- At the top of the loop of `begin_op`, about to hold `log.lock`. -/
  | beginning
  /-- In `sleep(&log, &log.lock)`. -/
  | asleep
  /-- Between `begin_op` and `end_op`. -/
  | running
  /-- In `log_write(blockno)`, past its checks. -/
  | logging (blockno : Nat)
  /-- In `commit`, before `log.lh.n = 0`. -/
  | commit
  /-- Back in `end_op` after `commit`. -/
  | committed
  deriving DecidableEq, Repr

structure State (nproc : Nat) where
  log : Log
  pc : Fin nproc → Pc
  stopped : Option String
  /-- Block numbers passed to `log_write` since the last commit, latest first. -/
  logged : List Nat
  /-- The same for the operation each process is in. -/
  mine : Fin nproc → List Nat

inductive Act (nproc : Nat) where
  | begin_op (p : Fin nproc)
  | enter (p : Fin nproc)
  | wake (p : Fin nproc)
  | log_write (p : Fin nproc) (blockno : Nat)
  | absorb (p : Fin nproc)
  | end_op (p : Fin nproc)
  | commit (p : Fin nproc)
  | end_commit (p : Fin nproc)

def Act.proc {nproc : Nat} : Act nproc → Fin nproc
  | begin_op p | enter p | wake p | log_write p _ | absorb p | end_op p | commit p | end_commit p => p

variable {nproc : Nat}

def setPc (s : State nproc) (p : Fin nproc) (pc : Pc) : State nproc := { s with pc := update s.pc p pc }

def wakeup (s : State nproc) : State nproc :=
  { s with pc := fun p => if s.pc p = .asleep then .beginning else s.pc p }

def panic (s : State nproc) (msg : String) : State nproc := { s with stopped := some msg }

def enter (s : State nproc) (p : Fin nproc) : State nproc :=
  if s.log.committing then setPc s p .asleep
  else if s.log.crowded then setPc s p .asleep
  else
    let s := { s with log := { s.log with outstanding := s.log.outstanding + 1 },
                      mine := update s.mine p [] }
    setPc s p .running

/-- The checks of `log_write`, made without `log.lock`. -/
def log_write (s : State nproc) (p : Fin nproc) (blockno : Nat) : State nproc :=
  if s.log.full then panic s "too big a transaction"
  else if s.log.outstanding < 1 then panic s "log_write outside of trans"
  else setPc s p (.logging blockno)

def absorb (s : State nproc) (p : Fin nproc) (blockno : Nat) : State nproc :=
  let s := { s with log := { s.log with lh := s.log.lh.absorb blockno }, logged := blockno :: s.logged,
                    mine := update s.mine p (blockno :: s.mine p) }
  setPc s p .running

def end_op (s : State nproc) (p : Fin nproc) : State nproc :=
  let s := { s with log := { s.log with outstanding := s.log.outstanding - 1 } }
  if s.log.committing then panic s "log.committing"
  else if s.log.outstanding = 0 then
    setPc { s with log := { s.log with committing := true } } p .commit
  else wakeup (setPc s p .idle)

/-- What `commit` does to the log in memory. With `n == 0` it does nothing. -/
def commit (s : State nproc) (p : Fin nproc) : State nproc :=
  let s := { s with log := { s.log with lh := { s.log.lh with n := 0 } }, logged := [] }
  setPc s p .committed

def end_commit (s : State nproc) (p : Fin nproc) : State nproc :=
  wakeup (setPc { s with log := { s.log with committing := false } } p .idle)

def step (s : State nproc) (a : Act nproc) : Option (State nproc) :=
  if s.stopped ≠ none then none
  else match a, s.pc a.proc with
    | .begin_op p, .idle => some (setPc s p .beginning)
    | .enter p, .beginning => some (enter s p)
    -- `kill` makes any sleeping process runnable.
    | .wake p, .asleep => some (setPc s p .beginning)
    | .log_write p blockno, .running => some (log_write s p blockno)
    | .absorb p, .logging blockno => some (absorb s p blockno)
    | .end_op p, .running => some (end_op s p)
    | .commit p, .commit => some (commit s p)
    | .end_commit p, .committed => some (end_commit s p)
    | _, _ => none

def initial (nproc start size : Nat) (block : Nat → Nat) : State nproc where
  log := { start := start, size := size, outstanding := 0, committing := false, dev := ROOTDEV,
           lh := { n := 0, block := block } }
  pc _ := .idle
  stopped := none
  logged := []
  mine _ := []

def system (nproc size : Nat) : System (State nproc) (Act nproc) where
  init s := ∃ start block, s = initial nproc start size block
  step := step

inductive Move (s : State nproc) : Act nproc → State nproc → Prop where
  | begin_op (p : Fin nproc) (hp : s.pc p = .idle) : Move s (.begin_op p) (setPc s p .beginning)
  | enter (p : Fin nproc) (hp : s.pc p = .beginning) : Move s (.enter p) (enter s p)
  | wake (p : Fin nproc) (hp : s.pc p = .asleep) : Move s (.wake p) (setPc s p .beginning)
  | log_write (p : Fin nproc) (b : Nat) (hp : s.pc p = .running) : Move s (.log_write p b) (log_write s p b)
  | absorb (p : Fin nproc) (b : Nat) (hp : s.pc p = .logging b) : Move s (.absorb p) (absorb s p b)
  | end_op (p : Fin nproc) (hp : s.pc p = .running) : Move s (.end_op p) (end_op s p)
  | commit (p : Fin nproc) (hp : s.pc p = .commit) : Move s (.commit p) (commit s p)
  | end_commit (p : Fin nproc) (hp : s.pc p = .committed) : Move s (.end_commit p) (end_commit s p)

variable (s : State nproc) (pc : Fin nproc → Pc) (p : Fin nproc) (a : Act nproc)

theorem move_of_step (s s' : State nproc) (a : Act nproc) (hs : step s a = some s') :
    s.stopped = none ∧ Move s a s' := by
  unfold step at hs
  split at hs
  · cases hs
  · rename_i h
    refine ⟨by simpa using h, ?_⟩
    split at hs
    all_goals first
      | (rename_i hp; cases hs; first
          | exact .begin_op _ hp
          | exact .enter _ hp
          | exact .wake _ hp
          | exact .log_write _ _ hp
          | exact .absorb _ _ hp
          | exact .end_op _ hp
          | exact .commit _ hp
          | exact .end_commit _ hp)
      | cases hs

def Pc.busy : Pc → Nat
  | .running | .logging _ => 1
  | _ => 0

def Pc.commits : Pc → Nat
  | .commit | .committed => 1
  | _ => 0

def active (pc : Fin nproc → Pc) : Nat := ∑ p, (pc p).busy

def committers (pc : Fin nproc → Pc) : Nat := ∑ p, (pc p).commits

structure Inv (s : State nproc) : Prop where
  count : s.log.outstanding = active s.pc
  one : committers s.pc = if s.log.committing then 1 else 0
  quiet : s.log.committing = true → s.log.outstanding = 0
  empty : s.log.committing = false → s.log.outstanding = 0 → s.log.lh.n = 0
  cleared : ∀ p, s.pc p = .committed → s.log.lh.n = 0
  nodup : s.log.lh.blocks.Nodup
  exact : ∀ b, b ∈ s.log.lh.blocks ↔ b ∈ s.logged
  cause : ∀ p, s.pc p = .asleep → s.log.committing = true ∨ s.log.crowded
  alive : s.stopped ≠ some "log.committing" ∧ s.stopped ≠ some "log_write outside of trans"

theorem active_update (v : Pc) :
    active (update pc p v) + (pc p).busy = active pc + v.busy := sum_update Pc.busy pc p v

theorem committers_update (v : Pc) :
    committers (update pc p v) + (pc p).commits = committers pc + v.commits := sum_update Pc.commits pc p v

theorem busy_le : (pc p).busy ≤ active pc := le_sum (fun q => (pc q).busy) p

theorem commits_le : (pc p).commits ≤ committers pc :=
  le_sum (fun q => (pc q).commits) p

theorem wakeup_pc : (wakeup s).pc p ≠ .asleep := by
  simp only [wakeup]
  split
  · simp
  · assumption

theorem wakeup_totals :
    active (wakeup s).pc = active s.pc ∧ committers (wakeup s).pc = committers s.pc := by
  constructor <;>
  · apply Finset.sum_congr rfl
    intro p _
    simp only [wakeup]
    split
    · rename_i h; rw [h]; rfl
    · rfl

theorem setPc_pc (p q : Fin nproc) (pc pc' : Pc) (h : (setPc s p pc).pc q = pc') (hne : pc' ≠ pc) :
    s.pc q = pc' := by
  by_cases hq : q = p
  · subst hq; simp [setPc] at h; exact absurd h.symm hne
  · simpa [setPc, hq] using h

theorem committing_of_commits (h : Inv s) (hp : (s.pc p).commits = 1) :
    s.log.committing = true := by
  have hle := commits_le s.pc p
  rw [hp, h.one] at hle
  by_contra hf
  simp [hf] at hle

theorem not_committing_of_busy (h : Inv s) (hp : (s.pc p).busy = 1) :
    s.log.committing = false := by
  have hle := busy_le s.pc p
  have hcount := h.count
  by_contra hc
  have := h.quiet (by simpa using hc)
  omega

theorem inv_setPc (pc : Pc) (h : Inv s) (hb : (s.pc p).busy = pc.busy)
    (hc : (s.pc p).commits = pc.commits) (hd : pc ≠ .committed)
    (hw : pc = .asleep → s.log.committing = true ∨ s.log.crowded) : Inv (setPc s p pc) := by
  have hact := active_update s.pc p pc
  have hcom := committers_update s.pc p pc
  refine ⟨?_, ?_, h.quiet, h.empty, ?_, h.nodup, h.exact, ?_, h.alive⟩
  · rw [show active (setPc s p pc).pc = active s.pc by simp only [setPc]; omega]; exact h.count
  · rw [show committers (setPc s p pc).pc = committers s.pc by simp only [setPc]; omega]; exact h.one
  · intro q hq; exact h.cleared q (setPc_pc s p q pc _ hq (Ne.symm hd))
  · intro q hq
    by_cases hpc : pc = .asleep
    · exact hw hpc
    · exact h.cause q (setPc_pc s p q pc _ hq (Ne.symm hpc))

theorem inv_enter (h : Inv s) (hp : s.pc p = .beginning) : Inv (enter s p) := by
  unfold enter
  split
  · rename_i hc
    exact inv_setPc s p _ h (by rw [hp]; rfl) (by rw [hp]; rfl) (by simp) (fun _ => Or.inl hc)
  split
  · rename_i hc
    exact inv_setPc s p _ h (by rw [hp]; rfl) (by rw [hp]; rfl) (by simp) (fun _ => Or.inr hc)
  · rename_i hc hroom
    have hact := active_update s.pc p .running
    have hcom := committers_update s.pc p .running
    simp only [hp, Pc.busy, Pc.commits] at hact hcom
    have hcount := h.count
    have hone := h.one
    simp only [setPc]
    refine ⟨?_, ?_, ?_, ?_, ?_, h.nodup, h.exact, ?_, h.alive⟩
    · dsimp only; omega
    · dsimp only; omega
    · intro he; exact absurd he hc
    · intro _ he; dsimp only at he; omega
    · intro q hq; exact h.cleared q (setPc_pc s p q .running _ hq (by simp))
    · intro q hq
      -- One more operation only makes the log more crowded.
      rcases h.cause q (setPc_pc s p q .running _ hq (by simp)) with hs | hs
      · exact Or.inl hs
      · right; simp only [Log.crowded, MAXOPBLOCKS] at hs ⊢; omega

theorem inv_log_write (b : Nat) (h : Inv s) (hp : s.pc p = .running) :
    Inv (log_write s p b) := by
  unfold log_write
  split
  · exact ⟨h.count, h.one, h.quiet, h.empty, h.cleared, h.nodup, h.exact, h.cause, by simp [panic]⟩
  split
  · rename_i hout
    -- The caller itself is counted in `outstanding`.
    have hle := busy_le s.pc p
    have hcount := h.count
    simp only [hp, Pc.busy] at hle
    omega
  · exact inv_setPc s p _ h (by rw [hp]; rfl) (by rw [hp]; rfl) (by simp) (by simp)

theorem inv_absorb (b : Nat) (h : Inv s) (hp : s.pc p = .logging b) :
    Inv (absorb s p b) := by
  have hact := active_update s.pc p .running
  have hcom := committers_update s.pc p .running
  have hle := busy_le s.pc p
  simp only [hp, Pc.busy, Pc.commits] at hact hcom hle
  have hnc := not_committing_of_busy s p h (by rw [hp]; rfl)
  have hcount := h.count
  have hone := h.one
  simp only [absorb, setPc]
  refine ⟨?_, ?_, h.quiet, ?_, ?_, ?_, ?_, ?_, h.alive⟩
  · dsimp only; omega
  · dsimp only; omega
  · intro _ hz; dsimp only at hz; omega
  · intro q hq
    have hq' := setPc_pc s p q .running _ hq (by simp)
    have := committing_of_commits s q h (by rw [hq']; rfl)
    simp [hnc] at this
  · exact s.log.lh.absorb_nodup b h.nodup
  · intro c
    simp only [LogHeader.absorb_blocks, List.mem_cons, ← h.exact]
    split
    · rename_i hb
      constructor
      · intro hc; exact Or.inr hc
      · rintro (rfl | hc)
        · exact hb
        · exact hc
    · rw [List.mem_append, List.mem_singleton]; tauto
  · intro q hq
    rcases h.cause q (setPc_pc s p q .running _ hq (by simp)) with hs | hs
    · exact Or.inl hs
    · right
      have hn : s.log.lh.n ≤ (s.log.lh.absorb b).n := by rw [LogHeader.absorb_n]; split <;> omega
      simp only [Log.crowded] at hs ⊢
      omega

theorem inv_end_op (h : Inv s) (hp : s.pc p = .running) : Inv (end_op s p) := by
  have hle := busy_le s.pc p
  simp only [hp, Pc.busy] at hle
  have hcount := h.count
  have hnc := not_committing_of_busy s p h (by rw [hp]; rfl)
  have hnot : ∀ q, s.pc q ≠ .committed := by
    intro q hq
    have := committing_of_commits s q h (by rw [hq]; rfl)
    simp [hnc] at this
  have hone := h.one
  simp only [hnc, Bool.false_eq_true, if_false] at hone
  unfold end_op
  simp only [hnc, Bool.false_eq_true, if_false]
  split
  · rename_i hlast
    have hact := active_update s.pc p .commit
    have hcom := committers_update s.pc p .commit
    simp only [hp, Pc.busy, Pc.commits] at hact hcom
    simp only [setPc]
    refine ⟨?_, ?_, fun _ => hlast, ?_, ?_, h.nodup, h.exact, fun _ _ => Or.inl rfl, h.alive⟩
    · dsimp only; omega
    · dsimp only; rw [if_pos rfl]; omega
    · intro hf; simp at hf
    · intro q hq; exact absurd (setPc_pc s p q .commit _ hq (by simp)) (hnot q)
  · rename_i hlast
    have hact := active_update s.pc p .idle
    have hcom := committers_update s.pc p .idle
    simp only [hp, Pc.busy, Pc.commits] at hact hcom
    refine ⟨?_, ?_, ?_, ?_, ?_, h.nodup, h.exact, ?_, h.alive⟩
    · rw [(wakeup_totals _).1]; simp only [wakeup, setPc]; omega
    · rw [(wakeup_totals _).2]; simp only [wakeup, setPc, Bool.false_eq_true, if_false]; omega
    · intro hf; simp [wakeup, setPc] at hf
    · intro _ hf; exact absurd hf hlast
    · intro q hq
      simp only [wakeup] at hq
      split at hq
      · cases hq
      · exact absurd (setPc_pc s p q .idle _ hq (by simp)) (hnot q)
    · intro q hq; exact absurd hq (wakeup_pc _ q)

theorem inv_commit (h : Inv s) (hp : s.pc p = .commit) : Inv (commit s p) := by
  have hact := active_update s.pc p .committed
  have hcom := committers_update s.pc p .committed
  simp only [hp, Pc.busy, Pc.commits] at hact hcom
  have hcount := h.count
  have hone := h.one
  have hcm := committing_of_commits s p h (by rw [hp]; rfl)
  simp only [commit, setPc]
  -- Clearing `lh` gives room, but `committing` is still set.
  refine ⟨?_, ?_, h.quiet, fun _ _ => rfl, fun _ _ => rfl, by simp [LogHeader.blocks], by simp [LogHeader.blocks],
    fun _ _ => Or.inl hcm, h.alive⟩
  · dsimp only; omega
  · dsimp only; omega

theorem inv_end_commit (h : Inv s) (hp : s.pc p = .committed) :
    Inv (end_commit s p) := by
  have hact := active_update s.pc p .idle
  have hcom := committers_update s.pc p .idle
  simp only [hp, Pc.busy, Pc.commits] at hact hcom
  have hcount := h.count
  have hone := h.one
  have hcm := committing_of_commits s p h (by rw [hp]; rfl)
  simp only [hcm, if_true] at hone
  have hn := h.cleared p hp
  simp only [end_commit]
  refine ⟨?_, ?_, ?_, fun _ _ => hn, fun _ _ => hn, h.nodup, h.exact, ?_, h.alive⟩
  · rw [(wakeup_totals _).1]; simp only [wakeup, setPc]; omega
  · rw [(wakeup_totals _).2]; simp only [wakeup, setPc, Bool.false_eq_true, if_false]; omega
  · intro hf; simp [wakeup, setPc] at hf
  · intro q hq; exact absurd hq (wakeup_pc _ q)

theorem inv_initial (nproc start size : Nat) (block : Nat → Nat) : Inv (initial nproc start size block) := by
  refine ⟨?_, ?_, ?_, ?_, ?_, ?_, ?_, ?_, ?_⟩ <;>
    simp [initial, active, committers, Pc.busy, Pc.commits, LogHeader.blocks]

theorem inv_move (s s' : State nproc) (a : Act nproc) (h : Inv s) (hm : Move s a s') : Inv s' := by
  cases hm with
  | begin_op p hp => exact inv_setPc s p _ h (by rw [hp]; rfl) (by rw [hp]; rfl) (by simp) (by simp)
  | enter p hp => exact inv_enter s p h hp
  | wake p hp => exact inv_setPc s p _ h (by rw [hp]; rfl) (by rw [hp]; rfl) (by simp) (by simp)
  | log_write p b hp => exact inv_log_write s p b h hp
  | absorb p b hp => exact inv_absorb s p b h hp
  | end_op p hp => exact inv_end_op s p h hp
  | commit p hp => exact inv_commit s p h hp
  | end_commit p hp => exact inv_end_commit s p h hp

theorem inv_of_reach (nproc size : Nat) (s : State nproc) (h : (system nproc size).Reach s) : Inv s := by
  apply (system nproc size).reach_inv Inv _ _ s h
  · rintro s ⟨start, block, rfl⟩; exact inv_initial nproc start size block
  · intro s a s' hi hs; exact inv_move s s' a hi (move_of_step s s' a hs).2

theorem one_committer (h : Inv s) (hc : s.log.committing = true) :
    ∃ p, ∀ q, (s.pc q).commits = 1 ↔ q = p := by
  have hone := h.one
  simp only [hc, if_true] at hone
  obtain ⟨p, -, hp⟩ := Finset.exists_ne_zero_of_sum_ne_zero (by rw [← committers, hone]; simp :
    ∑ q, (s.pc q).commits ≠ 0)
  have hp1 : (s.pc p).commits = 1 := by have := commits_le s.pc p; omega
  refine ⟨p, fun q => ⟨fun hq => ?_, fun hq => hq ▸ hp1⟩⟩
  by_contra hne
  have hsum := Finset.add_sum_erase Finset.univ (fun q => (s.pc q).commits) (Finset.mem_univ p)
  have hmem : q ∈ Finset.univ.erase p := Finset.mem_erase.mpr ⟨hne, Finset.mem_univ q⟩
  have hle := Finset.single_le_sum (f := fun q => (s.pc q).commits) (fun _ _ => Nat.zero_le _) hmem
  simp only [committers] at hone
  omega

theorem move_lh (s s' : State nproc) (a : Act nproc) (h : Inv s) (hc : s.log.committing = true)
    (hm : Move s a s') (hne : s'.log.lh ≠ s.log.lh) : (s.pc a.proc).commits = 1 := by
  cases hm with
  | begin_op p hp | wake p hp | end_commit p hp => exact absurd rfl hne
  | enter p hp => simp [enter, hc, setPc] at hne
  | log_write p b hp | end_op p hp | absorb p b hp =>
    have := not_committing_of_busy s p h (by rw [hp]; rfl)
    simp [hc] at this
  | commit p hp => simp [Act.proc, hp, Pc.commits]

theorem busy_eq_one (pc : Pc) : pc.busy = 1 ↔ pc = .running ∨ ∃ b, pc = .logging b := by
  cases pc <;> simp [Pc.busy]

theorem commits_eq_one (pc : Pc) : pc.commits = 1 ↔ pc = .commit ∨ pc = .committed := by
  cases pc <;> simp [Pc.commits]

/-- **Group commit is isolated.** While a commit runs no operation is open and only the committing
process changes `lh`; an idle log is empty; `lh` holds each logged block once; a process asleep in
`begin_op` has a reason to sleep; and `end_op` does not panic. -/
theorem group_commit_isolated (nproc size : Nat) (s : State nproc) (h : (system nproc size).Reach s) :
    (s.log.committing = true → s.log.outstanding = 0 ∧ (∀ p, s.pc p ≠ .running ∧ ∀ b, s.pc p ≠ .logging b) ∧
      ∃ p, (∀ q, s.pc q = .commit ∨ s.pc q = .committed ↔ q = p) ∧
        ∀ a s', (system nproc size).step s a = some s' → s'.log.lh ≠ s.log.lh → a.proc = p) ∧
    (s.log.outstanding = 0 → s.log.committing = false → s.log.lh.n = 0) ∧
    (s.log.lh.blocks.Nodup ∧ ∀ b, b ∈ s.log.lh.blocks ↔ b ∈ s.logged) ∧
    (∀ p, s.pc p = .asleep → s.log.committing = true ∨
      (s.log.lh.n : Int) + (s.log.outstanding + 1) * MAXOPBLOCKS > LOGSIZE) ∧
    s.stopped ≠ some "log.committing" := by
  have hinv := inv_of_reach nproc size s h
  refine ⟨?_, fun h0 hc => hinv.empty hc h0, ⟨hinv.nodup, hinv.exact⟩, hinv.cause, hinv.alive.1⟩
  intro hc
  have hidle : ∀ p, (s.pc p).busy ≠ 1 := by
    intro p hp
    have := not_committing_of_busy s p hinv hp
    simp [hc] at this
  refine ⟨hinv.quiet hc, fun p => ⟨?_, ?_⟩, ?_⟩
  · intro hp; exact hidle p ((busy_eq_one _).mpr (Or.inl hp))
  · intro b hp; exact hidle p ((busy_eq_one _).mpr (Or.inr ⟨b, hp⟩))
  · obtain ⟨p, hp⟩ := one_committer s hinv hc
    refine ⟨p, fun q => by rw [← commits_eq_one, hp], ?_⟩
    intro a s' hs hne
    rw [← hp]
    exact move_lh s s' a hinv hc (move_of_step s s' a hs).2 hne

/-- One operation that logs block 5 twice and ends, while another process waits for the commit. -/
def oneOp : List (Act 2) :=
  [.begin_op 0, .enter 0, .log_write 0 5, .absorb 0, .log_write 0 5, .absorb 0, .end_op 0, .begin_op 1, .enter 1]

theorem group_commit_isolated_oneOp : ∃ s : State 2, s.log.committing = true ∧ s.pc 1 = .asleep ∧
    s.log.lh.blocks = [5] ∧ s.log.outstanding = 0 ∧ s.stopped ≠ some "log.committing" := by
  have hrun : ((system 2 30).run (initial 2 2 30 fun _ => 0) oneOp).map
      (fun s => (s.log.committing, s.pc 1, s.log.lh.blocks)) = some (true, .asleep, [5]) := by decide
  obtain ⟨s, hreach, he⟩ := (system 2 30).reach_of_map ⟨2, _, rfl⟩ hrun
  simp only [Prod.mk.injEq] at he
  have h := group_commit_isolated 2 30 s hreach
  exact ⟨s, he.1, he.2.1, he.2.2, (h.1 he.1).1, h.2.2.2.2⟩

end Xv6.Group
