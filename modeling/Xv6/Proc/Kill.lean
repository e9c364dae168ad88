import Xv6.Proc.Table

/-!
# Who is killed

The flag `killed` of a slot is cleared by `wait` and by nobody else. `kill` takes the first slot
with the given pid in any state, so it may set the flag of a slot that holds no process: a slot
has pid 0 before its first process and after it is reaped, and keeps the pid of a `fork` that fails.
-/

open Lib

namespace Xv6.Procs

variable {nproc : Nat} {s s' : State nproc} {p : Fin nproc}

/-- `kill` finds a process, or nothing, and no `fork` fails after its child is killed. -/
def KillsLive (s : State nproc) : Act nproc → Prop
  | .kill pid => ∀ q, s.proc.withPid pid = some q → (s.proc q).state ≠ .unused
  | .forkFail p => ∀ np, s.pc p = .fork np false → (s.proc np).killed = false
  | _ => True

instance (s : State nproc) (a : Act nproc) : Decidable (KillsLive s a) := by
  unfold KillsLive
  split <;> infer_instance

structure Clean (s : State nproc) : Prop where
  unused : ∀ q, (s.proc q).state = .unused → (s.proc q).killed = false
  named : ∀ q, (s.proc q).killed = true → .killed (s.proc q).pid (s.id q) true ∈ s.log ∨ .faulted (s.id q) ∈ s.log
  alive : ∀ pid q b, .killed pid q b ∈ s.log → b = true

theorem init_clean (h : Init s) : Clean s := by
  have hkilled : ∀ q, (s.proc q).killed = false := by
    intro q
    rcases eq_or_ne q s.initproc with rfl | hq
    · rw [h.init]
    · rw [h.rest q hq]
  refine ⟨fun q _ => hkilled q, fun q hq => ?_, ?_⟩
  · rw [hkilled q] at hq
    simp at hq
  · simp [h.log]

theorem withPid_pid {t : Ptable nproc} {pid : Int} {q : Fin nproc} (h : t.withPid pid = some q) : (t q).pid = pid := by
  have := List.find?_some h
  simpa using this

theorem Mild.of_killed {a : Act nproc} {pid : Int} {w : Id nproc} {b : Bool} (h : Mild s a (.killed pid w b)) :
    a = .kill pid ∧ ∃ q, s.proc.withPid pid = some q ∧ b = decide ((s.proc q).state ≠ .unused) := by
  rcases h with _ | ⟨pid, q, hq⟩
  exact ⟨rfl, q, hq, rfl⟩

theorem Mild.of_faulted {a : Act nproc} {q : Fin nproc} (h : Mild s a (.faulted (s.id q))) :
    (s.proc q).state ≠ .unused := by
  generalize hw : s.id q = w at h
  rcases h with _ | _ | ⟨q', hq'⟩
  obtain rfl := (Prod.mk.inj hw).1
  intro hu
  rw [hu] at hq'
  exact absurd hq' (by simp [ProcState.live])

theorem Clean.stir {a : Act nproc} (hk : Clean s) (hc : KillsLive s a) (h : Stir s a s') : Clean s' := by
  have hid : ∀ q, s'.id q = s.id q := fun q => by rw [State.id, State.id, h.life]
  have hold : ∀ e, e ∈ s.log → e ∈ s'.log := by
    intro e he
    rcases h.log with hlog | ⟨e', -, hlog⟩ <;> rw [hlog]
    · exact he
    · exact List.mem_cons_of_mem _ he
  have hmild : ∀ e, s'.log = e :: s.log → Mild s a e := by
    intro e he
    rcases h.log with hlog | ⟨e', he', hlog⟩
    · rw [hlog] at he
      exact absurd he.symm (List.cons_ne_self _ _)
    · rw [hlog] at he
      rwa [← (List.cons.inj he).1]
  -- A new flag belongs to a slot that is in use, and the log names its reason.
  have hnew : ∀ q, (s'.proc q).killed = true → (s.proc q).killed = true ∨ (s.proc q).state ≠ .unused ∧
      (.killed (s.proc q).pid (s.id q) true ∈ s'.log ∨ .faulted (s.id q) ∈ s'.log) := by
    intro q hq
    rcases h.killed q hq with hq | ⟨pid, hpid, hlog⟩ | hlog
    · exact .inl hq
    · obtain ⟨rfl, -⟩ := (hmild _ hlog).of_killed
      have hlive : (s.proc q).state ≠ .unused := hc q hpid
      refine .inr ⟨hlive, .inl ?_⟩
      rw [hlog, withPid_pid hpid, decide_eq_true hlive]
      exact List.mem_cons_self ..
    · refine .inr ⟨(hmild _ hlog).of_faulted, .inr ?_⟩
      rw [hlog]
      exact List.mem_cons_self ..
  refine ⟨fun q hq => ?_, fun q hq => ?_, fun pid w b hmem => ?_⟩
  · rw [h.dead q .unused rfl] at hq
    refine Bool.eq_false_iff.mpr fun hflag => ?_
    rcases hnew q hflag with hflag | ⟨hlive, -⟩
    · rw [hk.unused q hq] at hflag
      simp at hflag
    · exact hlive hq
  · rw [(h.same q).1, hid]
    rcases hnew q hq with hq | ⟨-, hlog⟩
    · exact (hk.named q hq).imp (hold _) (hold _)
    · exact hlog
  · rcases h.log with hlog | ⟨e, he, hlog⟩ <;> rw [hlog] at hmem
    · exact hk.alive pid w b hmem
    · rcases List.mem_cons.mp hmem with rfl | hmem
      · obtain ⟨rfl, q, hq, rfl⟩ := he.of_killed
        exact decide_eq_true (hc q hq)
      · exact hk.alive pid w b hmem

theorem Clean.keep (hk : Clean s)
    (hkilled : ∀ q, (s'.proc q).killed = true →
      (s.proc q).killed = true ∧ (s'.proc q).pid = (s.proc q).pid ∧ s'.life q = s.life q)
    (hunused : ∀ q, (s'.proc q).state = .unused → (s.proc q).state = .unused ∨ (s'.proc q).killed = false)
    (hold : ∀ e ∈ s.log, e ∈ s'.log) (hlog : ∀ pid w b, .killed pid w b ∈ s'.log → .killed pid w b ∈ s.log) :
    Clean s' := by
  refine ⟨fun q hq => ?_, fun q hq => ?_, fun pid w b hmem => hk.alive pid w b (hlog pid w b hmem)⟩
  · rcases hunused q hq with hu | hflag
    · refine Bool.eq_false_iff.mpr fun hflag => ?_
      have := (hkilled q hflag).1
      rw [hk.unused q hu] at this
      simp at this
    · exact hflag
  · obtain ⟨hflag, hpid, hlife⟩ := hkilled q hq
    rw [State.id, hlife, hpid]
    exact (hk.named q hflag).imp (hold _) (hold _)

theorem Clean.slot (hk : Clean s) (np : Fin nproc) (f : Proc nproc → Proc nproc) (hproc : s'.proc = s.proc.set np f)
    (hlife : ∀ q, q ≠ np → s'.life q = s.life q)
    (hkilled : (f (s.proc np)).killed = true →
      (s.proc np).killed = true ∧ (f (s.proc np)).pid = (s.proc np).pid ∧ s'.life np = s.life np)
    (hunused : (f (s.proc np)).state = .unused → (s.proc np).state = .unused ∨ (f (s.proc np)).killed = false)
    (hold : ∀ e ∈ s.log, e ∈ s'.log) (hlog : ∀ pid w b, .killed pid w b ∈ s'.log → .killed pid w b ∈ s.log) :
    Clean s' := by
  refine hk.keep (fun q hq => ?_) (fun q hq => ?_) hold hlog
  all_goals
    rcases eq_or_ne q np with rfl | hqn
    · rw [hproc, Ptable.set_self] at hq ⊢
      first | exact hkilled hq | exact hunused hq
    · rw [hproc, Ptable.set_ne _ _ _ hqn] at hq ⊢
      first | exact ⟨hq, rfl, hlife q hqn⟩ | exact .inl hq

theorem Clean.prim {a : Act nproc} (hk : Clean s) (hi : Sane s) (hc : KillsLive s a) (h : Prim s a s') : Clean s' := by
  rcases h with ⟨a, s', h⟩ | ⟨p, np, hp, hnp⟩ | ⟨p, np, hp, hpc⟩ | ⟨p, np, hp, hpc⟩ | ⟨p, np, hp, hpc⟩ |
    ⟨p, how, hp, hpc⟩ |
    ⟨a, p, q, stored, hq, hstored⟩
  · exact hk.stir hc h
  · refine hk.slot np (fun v => { v with state := .embryo, pid := s.nextpid }) rfl
      (fun q hq => Function.update_of_ne hq _ _) (fun hflag => ?_) nofun (fun e => List.mem_cons_of_mem _) (by simp)
    exact absurd hflag (by simp [hk.unused np hnp])
  · exact hk.slot np (fun v => { v with state := .unused }) rfl (fun _ _ => rfl) (fun h => ⟨h, rfl, rfl⟩)
      (fun _ => .inr (hc np hpc)) (fun _ h => h) (fun _ _ _ h => h)
  · exact hk.slot np (fun v => { v with parent := some p }) rfl (fun _ _ => rfl)
      (fun h => ⟨h, rfl, rfl⟩) .inl (fun _ h => h) (fun _ _ _ h => h)
  · exact hk.slot np (fun v => { v with state := .runnable }) rfl (fun _ _ => rfl) (fun h => ⟨h, rfl, rfl⟩) nofun
      (fun _ h => h) (fun _ _ _ h => h)
  · obtain ⟨h, -⟩ := hi.exited how hp hpc
    refine hk.keep (fun q hq => ?_) (fun q hq => ?_) (fun e => List.mem_cons_of_mem _) (by simp)
    all_goals dsimp only at hq ⊢
    · rcases eq_or_ne q p with rfl | hqp
      · rw [h.self] at hq ⊢
        exact ⟨hq, rfl, rfl⟩
      · rw [(h.same q hqp).2.2.1] at hq
        exact ⟨hq, (h.same q hqp).1, rfl⟩
    · rcases eq_or_ne q p with rfl | hqp
      · rw [h.self] at hq
        simp at hq
      · exact .inl ((h.dead q hqp .unused rfl).mp hq)
  · exact hk.slot q (fun v => { v with pid := 0, parent := none, killed := false, state := .unused }) rfl
      (fun _ _ => rfl)
      nofun (fun _ => .inr rfl) (fun e => List.mem_cons_of_mem _) (by simp)

theorem step_clean {a : Act nproc} (hi : Sane s ∧ Clean s) (hc : KillsLive s a) (hs : step s a = some s') :
    Sane s' ∧ Clean s' := by
  refine ⟨step_sane hi.1 hs, ?_⟩
  obtain ⟨s₁, rfl | ⟨hstir, p, rfl⟩, hprim⟩ := step_prim hs
  · exact hi.2.prim hi.1 hc hprim
  · exact (hi.2.stir hc hstir).prim (hi.1.stir hstir) (show KillsLive s₁ (.sched p) from trivial) hprim

theorem allocproc_killed (hu : ∀ q, (s.proc q).state = .unused → (s.proc q).killed = false) (np : Fin nproc)
    (hidle : s.pc p = .idle) (hpc : (allocproc p s).pc p = .fork np false) :
    ((allocproc p s).proc np).killed = false := by
  unfold allocproc at hpc ⊢
  split at hpc
  · rw [hidle] at hpc
    simp at hpc
  · rename_i np' hnp
    have hunused : (s.proc np').state = .unused := by simpa using List.find?_some hnp
    simp only [State.event, Function.update_self, Pc.fork.injEq, and_true] at hpc ⊢
    subst hpc
    rw [Ptable.set_self]
    exact hu np' hunused

theorem killsLive_of_unused {a : Act nproc} (hs : step s a = some s')
    (hu : ∀ q, (s'.proc q).state = .unused → (s'.proc q).killed = false) : KillsLive s a := by
  unfold KillsLive
  split
  · rename_i pid
    intro q hq hunused
    cases hs
    have hproc : (kill pid s).proc q = { s.proc q with killed := true } := by
      rw [kill, hq]
      simp only [State.event, State.onTable, Ptable.kill]
      rw [Ptable.set_self]
      simp [hunused]
    have := hu q (by rw [hproc]; exact hunused)
    rw [hproc] at this
    simp at this
  · rename_i p
    intro np hpc
    simp only [step, hpc] at hs
    split_ifs at hs
    cases hs
    have := hu np
    simp only [State.setPc, State.onTable] at this
    rw [Ptable.set_self] at this
    exact this rfl
  · trivial

/-- **`kill` hits its target only** as long as it finds no free slot. -/
theorem kill_hits_its_target (s : State nproc) (h : (procs nproc).ReachIf KillsLive s) :
    (∀ q, (s.proc q).killed = true → .killed (s.proc q).pid (s.id q) true ∈ s.log ∨ .faulted (s.id q) ∈ s.log) ∧
    (∀ q, (s.proc q).state = .unused → (s.proc q).killed = false) ∧
    (∀ p np s', step s (.fork p) = some s' → s'.pc p = .fork np false → (s'.proc np).killed = false) ∧
    (∀ pid q alive, .killed pid q alive ∈ s.log → alive = true) ∧
    ∀ a s', step s a = some s' →
      ((∀ q, (s'.proc q).state = .unused → (s'.proc q).killed = false) ↔ KillsLive s a) := by
  have hall : Sane s ∧ Clean s :=
    (procs nproc).reachIf_inv KillsLive (fun s => Sane s ∧ Clean s) (fun s h => ⟨init_sane h, init_clean h⟩)
      (fun _ _ _ => step_clean) s h
  refine ⟨hall.2.named, hall.2.unused, fun p np s' hs hpc => ?_, hall.2.alive,
    fun a s' hs => ⟨killsLive_of_unused hs, fun hc => (step_clean hall hc hs).2.unused⟩⟩
  simp only [step] at hs
  split_ifs at hs with hp
  cases hs
  exact allocproc_killed hall.2.unused np hp.2 hpc

theorem kill_zero_kills_next_child : ∃ s, (procs 2).Reach s ∧ (s.proc 1).state = .embryo ∧ (s.proc 1).killed = true ∧
    s.id 1 = (1, 1) ∧ s.log = [.born (1, 1) 2 (0, 0), .killed 0 (1, 0) false] := by
  have hrun : ((procs 2).run boot [.sched 0, .kill 0, .fork 0]).map
      (fun s => ((s.proc 1).state, (s.proc 1).killed, s.id 1, s.log)) =
      some (.embryo, true, (1, 1), [.born (1, 1) 2 (0, 0), .killed 0 (1, 0) false]) := by
    decide +kernel
  obtain ⟨s, hreach, hv⟩ := (procs 2).reach_of_map boot_init hrun
  simp only [Prod.mk.injEq] at hv
  exact ⟨s, hreach, hv.1, hv.2.1, hv.2.2.1, hv.2.2.2⟩

theorem kill_hits_its_target_child : ∃ s, (procs 2).ReachIf KillsLive s ∧ (s.proc 1).killed = true ∧
    (.killed (s.proc 1).pid (s.id 1) true ∈ s.log ∨ .faulted (s.id 1) ∈ s.log) := by
  have hrun : ((procs 2).runIf KillsLive boot (forked ++ [.kill 2])).map (fun s => (s.proc 1).killed) = some true := by
    decide +kernel
  obtain ⟨s, hreach, hv⟩ := (procs 2).reachIf_of_map boot_init hrun
  exact ⟨s, hreach, hv, (kill_hits_its_target s hreach).1 1 hv⟩

end Xv6.Procs
