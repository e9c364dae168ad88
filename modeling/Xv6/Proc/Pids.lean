import Mathlib
import Xv6.Proc.Table

/-!
# Process numbers

`allocproc` takes pids from `nextpid`, an `int` that wraps around and is never compared with the
pids in use. A `fork` that fails has used up a pid too.
-/

open Lib

namespace Xv6.Procs

variable {nproc : Nat} {s s' : State nproc} {p : Fin nproc}

theorem wait_nextpid (two : Bool) : (wait p two s).nextpid = s.nextpid := by
  unfold wait
  split
  · rfl
  · split_ifs <;> rfl

theorem step_nextpid {a : Act nproc} (hs : step s a = some s') (ha : ∀ p, a ≠ .fork p) : s'.nextpid = s.nextpid := by
  unfold step at hs
  rcases a with p | p | ⟨p, addr⟩ | addr | p | p | p | p | ⟨p, how⟩ | p | ⟨p, two⟩ | pid | p <;> dsimp only at hs
  case fork => exact absurd rfl (ha p)
  case sched =>
    split_ifs at hs
    cases hs
    unfold sched
    dsimp only
    split
    · rw [wait_nextpid]
      rfl
    · rfl
  case wait =>
    split_ifs at hs
    cases hs
    exact wait_nextpid two
  case kill =>
    cases hs
    unfold kill
    split <;> rfl
  case wakeup =>
    cases hs
    rfl
  case yield | sleep | exit | fault =>
    split_ifs at hs
    cases hs
    rfl
  case forkFail | forkCopy | forkRun | exitLocked =>
    split at hs <;> [split_ifs at hs; exact absurd hs (by simp)]
    cases hs
    rfl

/-- Every slot in use was in use before, with the same pid. -/
def KeepsPids (s s' : State nproc) : Prop :=
  ∀ q, (s'.proc q).state ≠ .unused → (s.proc q).state ≠ .unused ∧ (s'.proc q).pid = (s.proc q).pid

theorem Stir.keepsPids {a : Act nproc} (h : Stir s a s') : KeepsPids s s' :=
  fun q hq => ⟨fun hu => hq ((h.dead q .unused rfl).mpr hu), (h.same q).1⟩

theorem keepsPids_set (np : Fin nproc) (f : Proc nproc → Proc nproc) (hproc : s'.proc = s.proc.set np f)
    (hf : (f (s.proc np)).state ≠ .unused → (s.proc np).state ≠ .unused ∧ (f (s.proc np)).pid = (s.proc np).pid) :
    KeepsPids s s' := by
  intro q hq
  rw [hproc, Ptable.set_apply] at hq ⊢
  split_ifs at hq ⊢ with h
  · subst h
    exact hf hq
  · exact ⟨hq, rfl⟩

theorem Prim.keepsPids {a : Act nproc} (hi : Sane s) (h : Prim s a s') (ha : ∀ p, a ≠ .fork p) : KeepsPids s s' := by
  rcases h with ⟨a, s', h⟩ | ⟨p, np, hp, hnp⟩ | ⟨p, np, hp, hpc⟩ | ⟨p, np, hp, hpc⟩ | ⟨p, np, hp, hpc⟩ |
    ⟨p, how, hp, hpc⟩ |
    ⟨a, p, q, stored, hq, hstored⟩
  · exact h.keepsPids
  · exact absurd rfl (ha p)
  · exact keepsPids_set np (fun v => { v with state := .unused }) rfl (fun h => absurd rfl h)
  · exact keepsPids_set np (fun v => { v with parent := some p }) rfl (fun h => ⟨h, rfl⟩)
  · obtain ⟨he, -⟩ := hi.fork p np true hp hpc
    exact keepsPids_set np (fun v => { v with state := .runnable }) rfl (fun _ => ⟨by simp [he], rfl⟩)
  · obtain ⟨h, -⟩ := hi.exited how hp hpc
    intro q hq
    dsimp only at hq ⊢
    rcases eq_or_ne q p with rfl | hqp
    · rw [h.self]
      exact ⟨by simp [hp], rfl⟩
    · exact ⟨fun hu => hq ((h.dead q hqp .unused rfl).mpr hu), (h.same q hqp).1⟩
  · exact keepsPids_set q (fun v => { v with pid := 0, parent := none, killed := false, state := .unused }) rfl
      (fun h => absurd rfl h)

theorem step_keepsPids {a : Act nproc} (hi : Sane s) (hs : step s a = some s') (ha : ∀ p, a ≠ .fork p) :
    KeepsPids s s' := by
  obtain ⟨s₁, rfl | ⟨hstir, -⟩, hprim⟩ := step_prim hs
  · exact hprim.keepsPids hi ha
  · intro q hq
    obtain ⟨hq₁, hpid₁⟩ := hprim.keepsPids (hi.stir hstir) ha q hq
    obtain ⟨hq₀, hpid₀⟩ := hstir.keepsPids q hq₁
    exact ⟨hq₀, hpid₁.trans hpid₀⟩

theorem allocproc_cases (p : Fin nproc) (s : State nproc) :
    (∀ q, (s.proc q).state ≠ .unused) ∧ allocproc p s = s ∨
    ∃ np, (s.proc np).state = .unused ∧ (allocproc p s).nextpid = Int.bmod (s.nextpid + 1) (2 ^ 32) ∧
      (allocproc p s).proc = s.proc.set np fun v => { v with state := .embryo, pid := s.nextpid } := by
  unfold allocproc
  split
  · rename_i hnone
    refine .inl ⟨fun q => ?_, rfl⟩
    simpa using List.find?_eq_none.mp hnone q (List.mem_finRange q)
  · rename_i np hnp
    exact .inr ⟨np, by simpa using List.find?_some hnp, rfl, rfl⟩

theorem step_fork (hs : step s (.fork p) = some s') : s' = allocproc p s := by
  simp only [step] at hs
  split_ifs at hs
  exact (Option.some.inj hs).symm

def FreshPid (s : State nproc) : Act nproc → Prop
  | .fork _ => (∃ q, (s.proc q).state = .unused) → 0 < s.nextpid
  | _ => True

instance (s : State nproc) (a : Act nproc) : Decidable (FreshPid s a) :=
  match a with
  | .fork _ => inferInstanceAs (Decidable (_ → _))
  | .sched _ | .yield _ | .sleep .. | .wakeup _ | .forkFail _ | .forkCopy _ | .forkRun _ | .exit .. | .exitLocked _ |
      .wait .. | .kill _
  | .fault _ => .isTrue trivial

structure Numbered (s : State nproc) : Prop where
  next : 0 < s.nextpid ∧ s.nextpid < 2 ^ 31 ∨ s.nextpid = -2 ^ 31
  positive : ∀ q, (s.proc q).state ≠ .unused → 0 < (s.proc q).pid
  below : 0 < s.nextpid → ∀ q, (s.proc q).state ≠ .unused → (s.proc q).pid < s.nextpid
  distinct : ∀ q q', (s.proc q).state ≠ .unused → (s.proc q').state ≠ .unused → (s.proc q).pid = (s.proc q').pid →
    q = q'

theorem init_numbered (h : Init s) : Numbered s := by
  have hone : ∀ q, (s.proc q).state ≠ .unused → q = s.initproc ∧ (s.proc q).pid = 1 := by
    intro q hq
    rcases eq_or_ne q s.initproc with rfl | hne
    · rw [h.init]
      exact ⟨rfl, rfl⟩
    · rw [h.rest q hne] at hq
      exact absurd rfl hq
  refine ⟨?_, fun q hq => ?_, fun _ q hq => ?_, fun q q' hq hq' _ => (hone q hq).1.trans (hone q' hq').1.symm⟩
  · rw [h.nextpid]
    decide
  · rw [(hone q hq).2]
    decide
  · rw [(hone q hq).2, h.nextpid]
    decide

theorem Numbered.keep (hn : Numbered s) (hnext : s'.nextpid = s.nextpid) (h : KeepsPids s s') : Numbered s' := by
  refine ⟨by rw [hnext]; exact hn.next, fun q hq => ?_, fun hpos q hq => ?_, fun q q' hq hq' he => ?_⟩
  · obtain ⟨hq, hpid⟩ := h q hq
    rw [hpid]
    exact hn.positive q hq
  · obtain ⟨hq, hpid⟩ := h q hq
    rw [hnext] at hpos ⊢
    rw [hpid]
    exact hn.below hpos q hq
  · obtain ⟨hq, hpid⟩ := h q hq
    obtain ⟨hq', hpid'⟩ := h q' hq'
    exact hn.distinct q q' hq hq' (by rw [← hpid, ← hpid', he])

theorem next_pid (n : Int) (h : 0 < n) (hlt : n < 2 ^ 31) :
    Int.bmod (n + 1) (2 ^ 32) = n + 1 ∧ n + 1 < 2 ^ 31 ∨ Int.bmod (n + 1) (2 ^ 32) = -2 ^ 31 := by
  rcases eq_or_ne (n + 1) (2 ^ 31) with he | hne
  · right
    rw [he]
    rfl
  · left
    exact ⟨Int.bmod_eq_of_le_mul_two (by omega) (by omega), by omega⟩

theorem Numbered.alloc (hn : Numbered s) (np : Fin nproc) (hpos : 0 < s.nextpid)
    (hnext : s'.nextpid = Int.bmod (s.nextpid + 1) (2 ^ 32))
    (hproc : s'.proc = s.proc.set np fun v => { v with state := .embryo, pid := s.nextpid }) : Numbered s' := by
  have hlt : s.nextpid < 2 ^ 31 := by
    rcases hn.next with h | h <;> omega
  have hself : (s'.proc np).pid = s.nextpid := by rw [hproc, Ptable.set_self]
  have hother : ∀ q, q ≠ np → s'.proc q = s.proc q := fun q hq => by rw [hproc, Ptable.set_ne _ _ _ hq]
  have hbelow : ∀ q, (s'.proc q).state ≠ .unused → q = np ∧ (s'.proc q).pid = s.nextpid ∨
      q ≠ np ∧ (s.proc q).state ≠ .unused ∧ (s'.proc q).pid = (s.proc q).pid ∧ (s.proc q).pid < s.nextpid := by
    intro q hq
    rcases eq_or_ne q np with rfl | hqn
    · exact .inl ⟨rfl, hself⟩
    · rw [hother q hqn] at hq ⊢
      exact .inr ⟨hqn, hq, rfl, hn.below hpos q hq⟩
  refine ⟨?_, fun q hq => ?_, fun hpos' q hq => ?_, fun q q' hq hq' he => ?_⟩
  · rw [hnext]
    rcases next_pid _ hpos hlt with ⟨h, h'⟩ | h <;> rw [h]
    · exact .inl ⟨by omega, h'⟩
    · exact .inr rfl
  · rcases hbelow q hq with ⟨-, he⟩ | ⟨-, hu, he, -⟩ <;> rw [he]
    · exact hpos
    · exact hn.positive q hu
  · rw [hnext] at hpos' ⊢
    rcases next_pid _ hpos hlt with ⟨h, -⟩ | h <;> rw [h] at hpos' ⊢
    · rcases hbelow q hq with ⟨-, he⟩ | ⟨-, -, he, hb⟩ <;> omega
    · exact absurd hpos' (by decide)
  · rcases hbelow q hq with ⟨rfl, h1⟩ | ⟨-, hu, h1, hb⟩ <;> rcases hbelow q' hq' with ⟨rfl, h2⟩ | ⟨-, hu', h2, hb'⟩
    · rfl
    · omega
    · omega
    · exact hn.distinct q q' hu hu' (by rw [← h1, ← h2, he])

theorem step_numbered {a : Act nproc} (hi : Sane s ∧ Numbered s) (hc : FreshPid s a) (hs : step s a = some s') :
    Sane s' ∧ Numbered s' := by
  refine ⟨step_sane hi.1 hs, ?_⟩
  rcases a with p | p | ⟨p, addr⟩ | addr | p | p | p | p | ⟨p, how⟩ | p | ⟨p, two⟩ | pid | p
  case fork =>
    rw [step_fork hs]
    rcases allocproc_cases p s with ⟨-, he⟩ | ⟨np, hu, hnext, hproc⟩
    · rw [he]
      exact hi.2
    · exact hi.2.alloc np (hc ⟨np, hu⟩) hnext hproc
  all_goals exact hi.2.keep (step_nextpid hs nofun) (step_keepsPids hi.1 hs nofun)

theorem freshPid_of_positive {a : Act nproc} (hs : step s a = some s')
    (hpos : ∀ q, (s'.proc q).state ≠ .unused → 0 < (s'.proc q).pid) : FreshPid s a := by
  unfold FreshPid
  split
  · rename_i p
    rintro ⟨q, hq⟩
    rw [step_fork hs] at hpos
    rcases allocproc_cases p s with ⟨hnone, -⟩ | ⟨np, -, -, hproc⟩
    · exact absurd hq (hnone q)
    · have := hpos np
      rw [hproc, Ptable.set_self] at this
      exact this (by simp)
  · trivial

def forkReturns (s : State nproc) (p : Fin nproc) : Option Int :=
  match s.pc p with
  | .fork np true => some (s.proc np).pid
  | _ => none

/-- **Pids are unique and positive** as long as no `fork` takes a pid after `nextpid` has wrapped around, and a `fork`
that does hands out a pid that is not positive. -/
theorem pids_unique (s : State nproc) (h : (procs nproc).ReachIf FreshPid s) :
    (∀ q q', (s.proc q).state ≠ .unused → (s.proc q').state ≠ .unused → (s.proc q).pid = (s.proc q').pid → q = q') ∧
    (∀ q, (s.proc q).state ≠ .unused → 0 < (s.proc q).pid) ∧
    (∀ p s', step s (.forkRun p) = some s' → ∃ np pid, s.pc p = .fork np true ∧ forkReturns s p = some pid ∧
      (s'.proc np).parent = some p ∧ (s'.proc np).pid = pid ∧ 0 < pid ∧
      ∀ q, q ≠ np → (s'.proc q).state ≠ .unused → (s'.proc q).pid ≠ pid) ∧
    ∀ a s', step s a = some s' → ((∀ q, (s'.proc q).state ≠ .unused → 0 < (s'.proc q).pid) ↔ FreshPid s a) := by
  have hall : Sane s ∧ Numbered s :=
    (procs nproc).reachIf_inv FreshPid (fun s => Sane s ∧ Numbered s) (fun s h => ⟨init_sane h, init_numbered h⟩)
      (fun _ _ _ => step_numbered) s h
  refine ⟨hall.2.distinct, hall.2.positive, fun p s' hs => ?_,
    fun a s' hs => ⟨freshPid_of_positive hs, fun hc => (step_numbered hall hc hs).2.positive⟩⟩
  have hn' := (step_numbered hall (show FreshPid s (.forkRun p) from trivial) hs).2
  simp only [step] at hs
  split at hs <;> [split_ifs at hs with hrun; exact absurd hs (by simp)]
  rename_i np hpc
  cases hs
  obtain ⟨-, hparent⟩ := hall.1.fork p np true (by rw [hrun]; rfl) hpc
  have hself : ∀ f : Proc nproc → Proc nproc, s.proc.set np f np = f (s.proc np) := Ptable.set_self s.proc np
  dsimp only at hn' ⊢
  refine ⟨np, (s.proc np).pid, hpc, by rw [forkReturns, hpc], ?_, by rw [hself], ?_, fun q hq hu he => ?_⟩
  · rw [hself]
    simpa using hparent
  · have := hn'.positive np
    dsimp only at this
    rw [hself] at this
    exact this (by simp)
  · refine hq (hn'.distinct q np hu ?_ ?_) <;> dsimp only <;> rw [hself]
    · simp
    · exact he

structure Ready (s : State 2) : Prop where
  reach : (procs 2).Reach s
  run : (s.proc 0).state = .running ∧ s.pc 0 = .idle
  init : (s.proc 0).pid = 1
  free : (s.proc 1).state = .unused

theorem Ready.fork {s : State 2} (h : Ready s) :
    step s (.fork 0) = some (allocproc 0 s) ∧
    allocproc 0 s = { s with
      proc := s.proc.set 1 fun v => { v with state := .embryo, pid := s.nextpid }
      nextpid := Int.bmod (s.nextpid + 1) (2 ^ 32)
      life := Function.update s.life 1 (s.life 1 + 1)
      pc := Function.update s.pc 0 (.fork 1 false)
      log := .born (1, s.life 1 + 1) s.nextpid (s.id 0) :: s.log } := by
  have hfind : (List.finRange 2).find? (fun np => (s.proc np).state = .unused) = some 1 := by
    simp [List.finRange_succ, h.run.1, h.free]
  refine ⟨by simp [step, h.run], ?_⟩
  unfold allocproc
  rw [hfind]
  rfl

theorem Ready.forkFail {s : State 2} (h : Ready s) :
    ∃ s', Ready s' ∧ s'.nextpid = Int.bmod (s.nextpid + 1) (2 ^ 32) := by
  obtain ⟨hs, he⟩ := h.fork
  have hreach : (procs 2).Reach (allocproc 0 s) := .step s _ (.fork 0) h.reach hs
  generalize allocproc 0 s = s₁ at hs he hreach
  have hfail : step s₁ (.forkFail 0) =
      some ((s₁.onTable fun t => t.set 1 fun v => { v with state := .unused }).setPc 0 .idle) := by
    subst he
    simp [step, h.run.1, Ptable.set]
  refine ⟨_, ⟨.step s₁ _ (.forkFail 0) hreach hfail, ?_, ?_, ?_⟩, ?_⟩ <;> subst he
  · exact ⟨h.run.1, rfl⟩
  · exact h.init
  · rfl
  · rfl

theorem ready_forkFails (n : Nat) : ∃ s, Ready s ∧ s.nextpid = Int.bmod (2 + n) (2 ^ 32) := by
  induction n with
  | zero =>
    have hsched : step boot (.sched 0) = some (sched 0 boot) := by simp [step, boot]
    exact ⟨sched 0 boot, ⟨.step boot _ (.sched 0) (.init _ boot_init) hsched, ⟨rfl, rfl⟩, rfl, rfl⟩, rfl⟩
  | succ n ih =>
    obtain ⟨s, hs, hnext⟩ := ih
    obtain ⟨s', hs', hnext'⟩ := hs.forkFail
    refine ⟨s', hs', ?_⟩
    rw [hnext', hnext, Int.bmod_add_bmod, Int.add_assoc, Int.natCast_succ]

theorem child_after_forkFails (n : Nat) : ∃ s, (procs 2).Reach s ∧ (s.proc 0).state = .running ∧ (s.proc 0).pid = 1 ∧
    (s.proc 1).state = .embryo ∧ (s.proc 1).pid = Int.bmod (2 + n) (2 ^ 32) := by
  obtain ⟨s, h, hnext⟩ := ready_forkFails n
  obtain ⟨hs, he⟩ := h.fork
  refine ⟨allocproc 0 s, .step s _ (.fork 0) h.reach hs, ?_⟩
  rw [he]
  exact ⟨h.run.1, h.init, rfl, hnext⟩

/-- The pid after the largest `int` is negative, and after `2 ^ 32` pids the next child has the pid of init. -/
theorem pids_wrap_around :
    (∃ s, (procs 2).Reach s ∧ (s.proc 1).state = .embryo ∧ (s.proc 1).pid = -2147483648) ∧
    ∃ s, (procs 2).Reach s ∧ (s.proc 0).state = .running ∧ (s.proc 1).state = .embryo ∧
    (s.proc 0).pid = (s.proc 1).pid := by
  obtain ⟨s, hs, -, -, hstate, hpid⟩ := child_after_forkFails (2 ^ 31 - 2)
  obtain ⟨s', hs', hrun, hinit, hstate', hpid'⟩ := child_after_forkFails (2 ^ 32 - 1)
  exact ⟨⟨s, hs, hstate, hpid⟩, s', hs', hrun, hstate', by rw [hinit, hpid']; rfl⟩

theorem pids_unique_forked : ∃ s, (procs 2).ReachIf FreshPid s ∧ (s.proc 0).state ≠ .unused ∧
    (s.proc 1).state ≠ .unused ∧ (s.proc 0).pid ≠ (s.proc 1).pid := by
  have hrun : ((procs 2).runIf FreshPid boot forked).map (fun s => ((s.proc 0).state, (s.proc 1).state)) =
      some (.running, .runnable) := by
    decide +kernel
  obtain ⟨s, hreach, hv⟩ := (procs 2).reachIf_of_map boot_init hrun
  simp only [Prod.mk.injEq] at hv
  have h0 : (s.proc 0).state ≠ .unused := by simp [hv.1]
  have h1 : (s.proc 1).state ≠ .unused := by simp [hv.2]
  exact ⟨s, hreach, h0, h1, fun he => absurd ((pids_unique s hreach).1 0 1 h0 h1 he) (by decide)⟩

end Xv6.Procs
