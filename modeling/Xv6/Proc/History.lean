import Mathlib
import Xv6.Proc.Table

/-!
# Who is reaped by whom

The history of a run tells for each process who forked it, how it ended and which call reaped it.
Each entry is justified by the entries before it.
-/

open Lib Function

namespace Xv6.Procs

variable {nproc : Nat} {s s' : State nproc} {p : Fin nproc} {initproc : Fin nproc} {past log : List (Event nproc)}

/-- The parent of a process that `f` forked: `f` until it has exited, then init. -/
def IsParent (initproc : Fin nproc) (past : List (Event nproc)) (f q : Id nproc) : Prop :=
  (∃ how, .exited f how ∈ past) ∧ q = (initproc, 0) ∨ (∀ how, .exited f how ∉ past) ∧ q = f

/-- A process is born, exits and is reaped at most once. It is reaped by its parent after it has exited, the call
returns its pid, and what `wait2` stores is the status that it exited with. -/
def Event.Ok (initproc : Fin nproc) (past : List (Event nproc)) : Event nproc → Prop
  | .born child _ _ => ∀ pid f, .born child pid f ∉ past
  | .exited p _ => ∀ how, .exited p how ∉ past
  | .reaped q child pid stored => (∀ q' pid' stored', .reaped q' child pid' stored' ∉ past) ∧
      ∃ f how, .born child pid f ∈ past ∧ .exited child how ∈ past ∧ (stored = none ∨ stored = some how.status) ∧
        IsParent initproc past f q
  | _ => True

def History (initproc : Fin nproc) : List (Event nproc) → Prop
  | [] => True
  | e :: past => e.Ok initproc past ∧ History initproc past

theorem History.exited {q child : Id nproc} {pid : Int} {stored : Option Int} (h : History initproc log)
    (hr : .reaped q child pid stored ∈ log) : ∃ how, .exited child how ∈ log := by
  induction log with
  | nil => simp at hr
  | cons e past ih =>
    rcases List.mem_cons.mp hr with rfl | hr
    · obtain ⟨-, f, how, -, he, -⟩ := h.1
      exact ⟨how, List.mem_cons_of_mem _ he⟩
    · obtain ⟨how, he⟩ := ih h.2 hr
      exact ⟨how, List.mem_cons_of_mem _ he⟩

theorem IsParent.cons {e : Event nproc} {f q : Id nproc} (h : IsParent initproc past f q)
    (he : ∀ how, e ≠ .exited f how) :
    IsParent initproc (e :: past) f q := by
  rcases h with ⟨⟨how, hf⟩, hq⟩ | ⟨hf, hq⟩
  · exact .inl ⟨⟨how, List.mem_cons_of_mem _ hf⟩, hq⟩
  · refine .inr ⟨fun how hmem => ?_, hq⟩
    rcases List.mem_cons.mp hmem with hmem | hmem
    · exact he how hmem.symm
    · exact hf how hmem

structure Told (s : State nproc) : Prop where
  history : History s.initproc s.log
  born_le : ∀ q k pid f, .born (q, k) pid f ∈ s.log → k ≤ s.life q
  exited_le : ∀ q k how, .exited (q, k) how ∈ s.log → k ≤ s.life q
  init_life : s.life s.initproc = 0
  born : ∀ q, q ≠ s.initproc → (s.proc q).state ≠ .unused → ∃ f, .born (s.id q) (s.proc q).pid f ∈ s.log ∧
    ((s.proc q).state ≠ .embryo → ∀ r, (s.proc q).parent = some r → IsParent s.initproc s.log f (s.id r)) ∧
    ((s.proc q).state = .embryo → ∀ q' c, (s.proc q').state.live = true → s.pc q' = .fork q c → f = s.id q')
  going : ∀ q, (s.proc q).state.live = true ∨ (s.proc q).state = .embryo → ∀ how, .exited (s.id q) how ∉ s.log
  zombie : ∀ q, (s.proc q).state = .zombie → ∃ how, .exited (s.id q) how ∈ s.log ∧ (s.proc q).exit_status = how.status ∧
    ∀ b pid stored, .reaped b (s.id q) pid stored ∉ s.log
  done : ∀ q k how, .exited (q, k) how ∈ s.log →
    (s.proc q).state = .zombie ∧ s.life q = k ∨ ∃ b pid stored, .reaped b (q, k) pid stored ∈ s.log

theorem init_told (h : Init s) : Told s := by
  have hstate : ∀ q, (s.proc q).state = .unused ∨ q = s.initproc ∧ (s.proc q).state = .runnable := by
    intro q
    rcases eq_or_ne q s.initproc with rfl | hq
    · rw [h.init]
      exact .inr ⟨rfl, rfl⟩
    · rw [h.rest q hq]
      exact .inl rfl
  refine ⟨?_, ?_, ?_, h.life _, fun q hq hs => ?_, ?_, fun q hz => ?_, ?_⟩
  · rw [h.log]
    trivial
  · simp [h.log]
  · simp [h.log]
  · rcases hstate q with he | ⟨he, -⟩
    · exact absurd he hs
    · exact absurd he hq
  · simp [h.log]
  · rcases hstate q with he | ⟨-, he⟩ <;> rw [hz] at he <;> simp at he
  · simp [h.log]

theorem Event.Ok.neutral {e : Event nproc} (he : e.neutral = true) : e.Ok initproc past := by
  unfold Event.neutral at he
  split at he <;> trivial

theorem Stir.mem {a : Act nproc} (h : Stir s a s') (e : Event nproc) (he : e.neutral = false) :
    e ∈ s'.log ↔ e ∈ s.log := by
  rcases h.log with hlog | ⟨e', he', hlog⟩ <;> rw [hlog]
  rw [List.mem_cons, or_iff_right]
  rintro rfl
  exact absurd he'.neutral (by simp [he])

theorem Stir.isParent {a : Act nproc} (h : Stir s a s') (f q : Id nproc) :
    IsParent initproc s'.log f q ↔ IsParent initproc s.log f q := by
  unfold IsParent
  simp only [h.mem _ (show (Event.exited f _ : Event nproc).neutral = false from rfl)]

theorem Told.stir {a : Act nproc} (ht : Told s) (h : Stir s a s') : Told s' := by
  have hid : ∀ q, s'.id q = s.id q := fun q => by rw [State.id, State.id, h.life]
  have hborn : ∀ q pid f, (.born q pid f : Event nproc) ∈ s'.log ↔ .born q pid f ∈ s.log := fun q pid f => h.mem _ rfl
  have hexited : ∀ q how, (.exited q how : Event nproc) ∈ s'.log ↔ .exited q how ∈ s.log := fun q how => h.mem _ rfl
  have hreaped : ∀ b q pid st, (.reaped b q pid st : Event nproc) ∈ s'.log ↔ .reaped b q pid st ∈ s.log :=
    fun b q pid st => h.mem _ rfl
  refine ⟨?_, ?_, ?_, ?_, fun q hq hs => ?_, fun q hq how => ?_, fun q hz => ?_, fun q k how he => ?_⟩
  · rw [h.initproc]
    rcases h.log with hlog | ⟨e, he, hlog⟩ <;> rw [hlog]
    · exact ht.history
    · exact ⟨.neutral he.neutral, ht.history⟩
  · simp only [hborn, h.life]
    exact ht.born_le
  · simp only [hexited, h.life]
    exact ht.exited_le
  · rw [h.initproc, h.life]
    exact ht.init_life
  · rw [h.initproc] at hq
    rw [ne_eq, h.dead q .unused rfl] at hs
    obtain ⟨f, hf, hparent, hfork⟩ := ht.born q hq hs
    refine ⟨f, ?_, fun he r hr => ?_, fun he q' c hq' hpc => ?_⟩
    · rwa [hborn, hid, (h.same q).1]
    · rw [ne_eq, h.dead q .embryo rfl] at he
      rw [(h.same q).2.1] at hr
      rw [h.isParent, h.initproc, hid]
      exact hparent he r hr
    · rw [h.dead q .embryo rfl] at he
      rw [h.live] at hq'
      rw [hid]
      exact hfork he q' c hq' (h.fork q' q c hpc)
  · rw [h.live, h.dead q .embryo rfl] at hq
    rw [hexited, hid]
    exact ht.going q hq how
  · rw [h.dead q .zombie rfl] at hz
    obtain ⟨how, he, hst, hr⟩ := ht.zombie q hz
    refine ⟨how, ?_, by rw [(h.same q).2.2, hst], fun b pid st => ?_⟩
    · rwa [hexited, hid]
    · rw [hreaped, hid]
      exact hr b pid st
  · rw [hexited] at he
    rw [h.dead q .zombie rfl, h.life]
    simp only [hreaped]
    exact ht.done q k how he

theorem Told.alloc (ht : Told s) (hi : Sane s) (np : Fin nproc) (hp : (s.proc p).state.live = true)
    (hnp : (s.proc np).state = .unused) (hinit : s'.initproc = s.initproc)
    (hproc : s'.proc = s.proc.set np fun v => { v with state := .embryo, pid := s.nextpid })
    (hlife : s'.life = update s.life np (s.life np + 1)) (hpc : s'.pc = update s.pc p (.fork np false))
    (hlog : s'.log = .born (np, s.life np + 1) s.nextpid (s.id p) :: s.log) : Told s' := by
  have hdead : (s.proc np).state.live = false := by rw [hnp]; rfl
  have hself : s'.proc np = { s.proc np with state := .embryo, pid := s.nextpid } := by rw [hproc, Ptable.set_self]
  have hother : ∀ q, q ≠ np → s'.proc q = s.proc q := fun q hq => by rw [hproc, Ptable.set_ne _ _ _ hq]
  have hid : ∀ q, q ≠ np → s'.id q = s.id q := fun q hq => by rw [State.id, State.id, hlife, update_of_ne hq]
  have hidself : s'.id np = (np, s.life np + 1) := by rw [State.id, hlife, update_self]
  have hle : ∀ q, s.life q ≤ s'.life q := by
    intro q
    rw [hlife, update_apply]
    split_ifs with hq
    · rw [hq]
      omega
    · exact le_rfl
  have hexited : ∀ q how, (.exited q how : Event nproc) ∈ s'.log ↔ .exited q how ∈ s.log := by simp [hlog]
  have hreaped : ∀ b q pid st, (.reaped b q pid st : Event nproc) ∈ s'.log ↔ .reaped b q pid st ∈ s.log := by
    simp [hlog]
  have hpne := live_ne hp hdead
  refine ⟨?_, fun q k pid f he => ?_, fun q k how he => ?_, ?_, fun q hq hs => ?_, fun q hq how => ?_, fun q hz => ?_,
    fun q k how he => ?_⟩
  · rw [hinit, hlog]
    refine ⟨fun pid f hmem => ?_, ht.history⟩
    have := ht.born_le np _ pid f hmem
    omega
  · rw [hlog] at he
    rcases List.mem_cons.mp he with he | he
    · obtain ⟨hqk, -⟩ := Event.born.inj he
      obtain ⟨rfl, rfl⟩ := Prod.mk.inj hqk
      rw [hlife, update_self]
    · exact (ht.born_le q k pid f he).trans (hle q)
  · rw [hexited] at he
    exact (ht.exited_le q k how he).trans (hle q)
  · rw [hinit, hlife, update_of_ne (live_ne hi.init_live hdead)]
    exact ht.init_life
  · rw [hinit] at hq
    rcases eq_or_ne q np with rfl | hqn
    · refine ⟨s.id p, ?_, fun he => absurd (by rw [hself]) he, fun _ q' c hq' hf => ?_⟩
      · rw [hlog, hidself, hself]
        exact List.mem_cons_self ..
      · rw [hpc, update_apply] at hf
        split_ifs at hf with hqp
        · rw [hqp, hid p hpne]
        · rcases eq_or_ne q' q with rfl | hne
          · rw [hself] at hq'
            exact absurd hq' (by simp [ProcState.live])
          · rw [hother q' hne] at hq'
            exact absurd hf (hi.not_forked q (by rw [hnp]; simp) q' c hq')
    · rw [hother q hqn] at hs ⊢
      obtain ⟨f, hf, hparent, hfork⟩ := ht.born q hq hs
      refine ⟨f, ?_, fun he r hr => ?_, fun he q' c hq' hfc => ?_⟩
      · rw [hlog, hid q hqn]
        exact List.mem_cons_of_mem _ hf
      · have hstate : (s.proc q).state.live = true ∨ (s.proc q).state = .zombie := by
          rcases hst : (s.proc q).state with _ | _ | _ | _ | _ | _ <;> simp_all [ProcState.live]
        obtain ⟨r', -, hr', hlive⟩ := hi.parent q hq hstate
        rw [hr] at hr'
        cases hr'
        rw [hinit, hlog, hid r (live_ne hlive hdead)]
        exact (hparent he r hr).cons (by simp)
      · rw [hpc, update_apply] at hfc
        split_ifs at hfc with hqp
        · exact absurd (Pc.fork.inj hfc).1.symm hqn
        · rcases eq_or_ne q' np with rfl | hne
          · rw [hself] at hq'
            exact absurd hq' (by simp [ProcState.live])
          · rw [hother q' hne] at hq'
            rw [hid q' hne]
            exact hfork he q' c hq' hfc
  · rw [hexited]
    rcases eq_or_ne q np with rfl | hqn
    · rw [hidself]
      intro he
      have := ht.exited_le q _ how he
      omega
    · rw [hother q hqn] at hq
      rw [hid q hqn]
      exact ht.going q hq how
  · have hqn : q ≠ np := by
      rintro rfl
      rw [hself] at hz
      simp at hz
    rw [hother q hqn] at hz ⊢
    obtain ⟨how, he, hst, hr⟩ := ht.zombie q hz
    refine ⟨how, ?_, hst, fun b pid st => ?_⟩
    · rwa [hexited, hid q hqn]
    · rw [hreaped, hid q hqn]
      exact hr b pid st
  · rw [hexited] at he
    simp only [hreaped]
    rcases ht.done q k how he with ⟨hz, hk⟩ | hr
    · have hqn : q ≠ np := by
        rintro rfl
        rw [hnp] at hz
        simp at hz
      rw [hother q hqn, hlife, update_of_ne hqn]
      exact .inl ⟨hz, hk⟩
    · exact .inr hr

theorem Told.embryo (ht : Told s) (hi : Sane s) (np : Fin nproc) (c : Bool) (f : Proc nproc → Proc nproc)
    (hp : (s.proc p).state.live = true) (hf : s.pc p = .fork np c) (hinit : s'.initproc = s.initproc)
    (hproc : s'.proc = s.proc.set np f) (hlife : s'.life = s.life) (hlog : s'.log = s.log)
    (hpc : ∀ q q' c, (s'.proc q).state.live = true → s'.pc q = .fork q' c →
      (s.proc q).state.live = true ∧ ∃ c', s.pc q = .fork q' c')
    (hpid : (f (s.proc np)).pid = (s.proc np).pid) (hzombie : (f (s.proc np)).state ≠ .zombie)
    (hlive : (f (s.proc np)).state.live = true → (f (s.proc np)).parent = some p) : Told s' := by
  obtain ⟨hembryo, -⟩ := hi.fork p np c hp hf
  have hself : s'.proc np = f (s.proc np) := by rw [hproc, Ptable.set_self]
  have hother : ∀ q, q ≠ np → s'.proc q = s.proc q := fun q hq => by rw [hproc, Ptable.set_ne _ _ _ hq]
  have hid : ∀ q, s'.id q = s.id q := fun q => by rw [State.id, State.id, hlife]
  refine ⟨?_, ?_, ?_, ?_, fun q hq hs => ?_, fun q hq how => ?_, fun q hz => ?_, fun q k how he => ?_⟩
  · rw [hinit, hlog]
    exact ht.history
  · rw [hlog, hlife]
    exact ht.born_le
  · rw [hlog, hlife]
    exact ht.exited_le
  · rw [hinit, hlife]
    exact ht.init_life
  · rw [hinit] at hq
    rcases eq_or_ne q np with rfl | hqn
    · obtain ⟨g, hg, -, hfork⟩ := ht.born q hq (by rw [hembryo]; simp)
      obtain rfl := hfork hembryo p c hp hf
      refine ⟨s.id p, ?_, fun he r hr => ?_, fun _ q' c' hq' hf' => ?_⟩
      · rwa [hlog, hid, hself, hpid]
      · have hl : (f (s.proc q)).state.live = true := by
          rw [hself] at he hs
          rcases hst : (f (s.proc q)).state with _ | _ | _ | _ | _ | _ <;> simp_all [ProcState.live]
        rw [hself, hlive hl] at hr
        cases hr
        rw [hinit, hlog, hid]
        exact .inr ⟨ht.going p (.inl hp), rfl⟩
      · obtain ⟨hq', c'', hf'⟩ := hpc q' q c' hq' hf'
        rw [hid, hi.fork_unique q' p q c'' c hq' hp hf' hf]
    · rw [hother q hqn] at hs ⊢
      obtain ⟨g, hg, hparent, hfork⟩ := ht.born q hq hs
      refine ⟨g, by rwa [hlog, hid], fun he r hr => ?_, fun he q' c' hq' hf' => ?_⟩
      · rw [hinit, hlog, hid]
        exact hparent he r hr
      · obtain ⟨hq', c'', hf'⟩ := hpc q' q c' hq' hf'
        rw [hid]
        exact hfork he q' c'' hq' hf'
  · rw [hlog, hid]
    rcases eq_or_ne q np with rfl | hqn
    · exact ht.going q (.inr hembryo) how
    · rw [hother q hqn] at hq
      exact ht.going q hq how
  · have hqn : q ≠ np := by
      rintro rfl
      rw [hself] at hz
      exact hzombie hz
    rw [hother q hqn] at hz ⊢
    rw [hlog, hid]
    exact ht.zombie q hz
  · rw [hlog] at he ⊢
    rw [hlife]
    rcases ht.done q k how he with ⟨hz, hk⟩ | hr
    · have hqn : q ≠ np := by
        rintro rfl
        rw [hembryo] at hz
        simp at hz
      rw [hother q hqn]
      exact .inl ⟨hz, hk⟩
    · exact .inr hr

theorem Told.exit (ht : Told s) (hi : Sane s) (how : Exit) (hp : (s.proc p).state = .running) (hpc : s.pc p = .exit how)
    (hinit : s'.initproc = s.initproc) (hproc : s'.proc = s.proc.exit s.initproc p how.status)
    (hlife : s'.life = s.life) (hpc' : s'.pc = s.pc) (hlog : s'.log = .exited (s.id p) how :: s.log) : Told s' := by
  obtain ⟨h, hne⟩ := hi.exited how hp hpc
  rw [← hproc] at h
  have hrun : (s.proc p).state.live = true := by rw [hp]; rfl
  have hgoing := ht.going p (.inl hrun)
  have hid : ∀ q, s'.id q = s.id q := fun q => by rw [State.id, State.id, hlife]
  have hborn : ∀ q pid f, (.born q pid f : Event nproc) ∈ s'.log ↔ .born q pid f ∈ s.log := by simp [hlog]
  have hreaped : ∀ b q pid st, (.reaped b q pid st : Event nproc) ∈ s'.log ↔ .reaped b q pid st ∈ s.log := by
    simp [hlog]
  have hexited : ∀ q how', (.exited q how' : Event nproc) ∈ s'.log ↔ q = s.id p ∧ how' = how ∨
    .exited q how' ∈ s.log := by
    simp [hlog]
  have hidne : ∀ q, q ≠ p → s.id q ≠ s.id p := fun q hq he => hq (Prod.mk.inj he).1
  have hlive : ∀ q, (s'.proc q).state.live = true → q ≠ p := by
    rintro q hq rfl
    rw [h.self] at hq
    exact absurd hq (by simp [ProcState.live])
  refine ⟨?_, ?_, fun q k how' he => ?_, ?_, fun q hq hs => ?_, fun q hq how' => ?_, fun q hz => ?_,
    fun q k how' he => ?_⟩
  · rw [hinit, hlog]
    exact ⟨hgoing, ht.history⟩
  · simp only [hborn, hlife]
    exact ht.born_le
  · rw [hlife]
    rcases (hexited _ _).mp he with ⟨hq, -⟩ | he
    · obtain ⟨rfl, rfl⟩ := Prod.mk.inj hq
      exact le_rfl
    · exact ht.exited_le q k how' he
  · rw [hinit, hlife]
    exact ht.init_life
  · rw [hinit] at hq
    rcases eq_or_ne q p with rfl | hqp
    · obtain ⟨f, hf, hparent, -⟩ := ht.born q hq (by rw [hp]; simp)
      obtain ⟨r, hr, hpar, -⟩ := hi.parent q hq (.inl hrun)
      refine ⟨f, ?_, fun _ r' hr' => ?_, fun he => ?_⟩
      · rw [hborn, hid, h.self]
        exact hf
      · rw [h.self] at hr'
        rw [hinit, hlog, hid]
        have hold := hparent (by rw [hp]; simp) r' hr'
        refine hold.cons fun how' he => ?_
        -- The parent of the process that exits has not exited.
        obtain ⟨rfl, -⟩ := Event.exited.inj he
        rcases hold with ⟨⟨how'', hmem⟩, -⟩ | ⟨-, hr''⟩
        · exact hgoing how'' hmem
        · rw [hpar] at hr'
          cases hr'
          exact hr (Prod.mk.inj hr'').1
      · rw [h.self] at he
        simp at he
    · rw [ne_eq, h.dead q hqp .unused rfl] at hs
      obtain ⟨f, hf, hparent, hfork⟩ := ht.born q hq hs
      refine ⟨f, by rwa [hborn, hid, (h.same q hqp).1], fun he r hr => ?_, fun he q' c hq' hfc => ?_⟩
      · rw [ne_eq, h.dead q hqp .embryo rfl] at he
        rw [h.parent q hqp] at hr
        rw [hinit, hlog, hid]
        split_ifs at hr with hchild
        · cases hr
          have hinitid : s.id s.initproc = (s.initproc, 0) := by rw [State.id, ht.init_life]
          rw [hinitid]
          rcases hparent he p hchild with ⟨-, hf'⟩ | ⟨-, rfl⟩
          · exact absurd (Prod.mk.inj hf').1.symm hne
          · exact .inl ⟨⟨how, List.mem_cons_self ..⟩, rfl⟩
        · have hold := hparent he r hr
          refine hold.cons fun how' he' => ?_
          obtain ⟨rfl, -⟩ := Event.exited.inj he'
          rcases hold with ⟨⟨how'', hmem⟩, -⟩ | ⟨-, hr'⟩
          · exact hgoing how'' hmem
          · refine hchild ?_
            rw [hr, (Prod.mk.inj hr').1]
      · rw [h.dead q hqp .embryo rfl] at he
        rw [hpc'] at hfc
        rw [h.live q' (hlive q' hq')] at hq'
        rw [hid]
        exact hfork he q' c hq' hfc
  · have hqp : q ≠ p := by
      rintro rfl
      rw [h.self] at hq
      exact absurd hq (by simp [ProcState.live])
    rw [h.live q hqp, h.dead q hqp .embryo rfl] at hq
    rw [hid, hexited]
    rintro (⟨he, -⟩ | he)
    · exact hidne q hqp he
    · exact ht.going q hq how' he
  · rcases eq_or_ne q p with rfl | hqp
    · refine ⟨how, by rw [hexited, hid]; exact .inl ⟨rfl, rfl⟩, by rw [h.self], fun b pid st hr => ?_⟩
      rw [hreaped, hid] at hr
      obtain ⟨how', he⟩ := ht.history.exited hr
      exact hgoing how' he
    · rw [h.dead q hqp .zombie rfl] at hz
      obtain ⟨how', he, hst, hr⟩ := ht.zombie q hz
      refine ⟨how', by rw [hexited, hid]; exact .inr he, by rw [(h.same q hqp).2.2.2, hst], fun b pid st => ?_⟩
      rw [hreaped, hid]
      exact hr b pid st
  · simp only [hreaped]
    rw [hlife]
    rcases (hexited _ _).mp he with ⟨hq, -⟩ | he
    · obtain ⟨rfl, rfl⟩ := Prod.mk.inj hq
      exact .inl ⟨by rw [h.self], rfl⟩
    · rcases ht.done q k how' he with ⟨hz, hk⟩ | hr
      · have hqp : q ≠ p := by
          rintro rfl
          rw [hp] at hz
          simp at hz
        exact .inl ⟨(h.dead q hqp .zombie rfl).mpr hz, hk⟩
      · exact .inr hr

theorem Told.reap (ht : Told s) (hi : Sane s) (q : Fin nproc) (stored : Option Int) (hq : s.proc.zombieChild p = some q)
    (hstored : stored = none ∨ stored = some (s.proc q).exit_status) (hinit : s'.initproc = s.initproc)
    (hproc : s'.proc = s.proc.reap q) (hlife : s'.life = s.life) (hpc : s'.pc = update s.pc p .idle)
    (hlog : s'.log = .reaped (s.id p) (s.id q) (s.proc q).pid stored :: s.log) : Told s' := by
  obtain ⟨hchild, hz⟩ := Ptable.zombieChild_some hq
  have hself : s'.proc q = { s.proc q with pid := 0, parent := none, killed := false, state := .unused } := by
    rw [hproc, Ptable.reap, Ptable.set_self]
  have hother : ∀ q', q' ≠ q → s'.proc q' = s.proc q' := fun q' hq' => by
    rw [hproc, Ptable.reap, Ptable.set_ne _ _ _ hq']
  have hunused : (s'.proc q).state = .unused := by rw [hself]
  have hid : ∀ q, s'.id q = s.id q := fun q => by rw [State.id, State.id, hlife]
  have hborn : ∀ q pid f, (.born q pid f : Event nproc) ∈ s'.log ↔ .born q pid f ∈ s.log := by simp [hlog]
  have hexited : ∀ q how', (.exited q how' : Event nproc) ∈ s'.log ↔ .exited q how' ∈ s.log := by simp [hlog]
  have hqinit : q ≠ s.initproc := by
    rintro rfl
    have := hi.init_live
    rw [hz] at this
    exact absurd this (by simp [ProcState.live])
  have hidne : ∀ q', q' ≠ q → s.id q ≠ s.id q' := fun q' hq' he => hq' (Prod.mk.inj he).1.symm
  obtain ⟨how, he, hst, hfresh⟩ := ht.zombie q hz
  obtain ⟨f, hf, hparent, -⟩ := ht.born q hqinit (by rw [hz]; simp)
  refine ⟨?_, ?_, ?_, ?_, fun q' hq' hs => ?_, fun q' hq' how' => ?_, fun q' hz' => ?_, fun q' k how' he' => ?_⟩
  · rw [hinit, hlog]
    refine ⟨⟨hfresh, f, how, hf, he, ?_, hparent (by rw [hz]; simp) p hchild⟩, ht.history⟩
    rwa [← hst]
  · simp only [hborn, hlife]
    exact ht.born_le
  · simp only [hexited, hlife]
    exact ht.exited_le
  · rw [hinit, hlife]
    exact ht.init_life
  · rw [hinit] at hq'
    have hqn : q' ≠ q := by
      rintro rfl
      exact hs hunused
    rw [hother q' hqn] at hs ⊢
    obtain ⟨g, hg, hpar, hfork⟩ := ht.born q' hq' hs
    refine ⟨g, by rwa [hborn, hid], fun he r hr => ?_, fun he q'' c hq'' hfc => ?_⟩
    · rw [hinit, hlog, hid]
      exact (hpar he r hr).cons (by simp)
    · rw [hpc, update_apply] at hfc
      split_ifs at hfc
      have hqn' : q'' ≠ q := by
        rintro rfl
        rw [hunused] at hq''
        exact absurd hq'' (by simp [ProcState.live])
      rw [hother q'' hqn'] at hq''
      rw [hid]
      exact hfork he q'' c hq'' hfc
  · have hqn : q' ≠ q := by
      rintro rfl
      rw [hunused] at hq'
      exact absurd hq' (by simp [ProcState.live])
    rw [hother q' hqn] at hq'
    rw [hexited, hid]
    exact ht.going q' hq' how'
  · have hqn : q' ≠ q := by
      rintro rfl
      rw [hunused] at hz'
      simp at hz'
    rw [hother q' hqn] at hz' ⊢
    obtain ⟨how', he', hst', hr'⟩ := ht.zombie q' hz'
    refine ⟨how', by rwa [hexited, hid], hst', fun b pid st hmem => ?_⟩
    rw [hlog, hid] at hmem
    rcases List.mem_cons.mp hmem with hmem | hmem
    · exact hidne q' hqn (Event.reaped.inj hmem).2.1.symm
    · exact hr' b pid st hmem
  · rw [hexited] at he'
    rw [hlife, hlog]
    rcases ht.done q' k how' he' with ⟨hz', hk⟩ | ⟨b, pid, st, hr⟩
    · rcases eq_or_ne q' q with rfl | hqn
      · refine .inr ⟨s.id p, (s.proc q').pid, stored, ?_⟩
        rw [← hk]
        exact List.mem_cons_self ..
      · rw [hother q' hqn]
        exact .inl ⟨hz', hk⟩
    · exact .inr ⟨b, pid, st, List.mem_cons_of_mem _ hr⟩

theorem forks_of_update (np : Fin nproc) (f : Proc nproc → Proc nproc) (pc : Pc nproc)
    (hproc : s'.proc = s.proc.set np f) (hnp : (f (s.proc np)).state.live = true → ∀ q c, s'.pc np ≠ .fork q c)
    (hpc : ∀ q, q ≠ np → s'.pc q = update s.pc p pc q) (hp : (s.proc p).state.live = true)
    (hfork : ∀ q c, pc = .fork q c → ∃ c', s.pc p = .fork q c') (q q' : Fin nproc) (c : Bool)
    (hq : (s'.proc q).state.live = true) (hf : s'.pc q = .fork q' c) :
    (s.proc q).state.live = true ∧ ∃ c', s.pc q = .fork q' c' := by
  rcases eq_or_ne q np with rfl | hqn
  · rw [hproc, Ptable.set_self] at hq
    exact absurd hf (hnp hq q' c)
  · rw [hproc, Ptable.set_ne _ _ _ hqn] at hq
    rw [hpc q hqn, update_apply] at hf
    split_ifs at hf with hqp
    · rw [hqp]
      exact ⟨hp, hfork q' c hf⟩
    · exact ⟨hq, c, hf⟩

theorem Told.prim {a : Act nproc} (ht : Told s) (hi : Sane s) (h : Prim s a s') : Told s' := by
  rcases h with ⟨a, s', h⟩ | ⟨p, np, hp, hnp⟩ | ⟨p, np, hp, hpc⟩ | ⟨p, np, hp, hpc⟩ | ⟨p, np, hp, hpc⟩ |
    ⟨p, how, hp, hpc⟩ |
    ⟨a, p, q, stored, hq, hstored⟩
  · exact ht.stir h
  · exact ht.alloc hi np hp hnp rfl rfl rfl rfl rfl
  · exact ht.embryo hi np false (fun v => { v with state := .unused }) hp hpc rfl rfl rfl rfl
      (forks_of_update np (fun v => { v with state := .unused }) .idle rfl (by simp [ProcState.live])
        (fun _ _ => rfl) hp nofun)
      rfl (by simp) (by simp [ProcState.live])
  · obtain ⟨hembryo, -⟩ := hi.fork p np false hp hpc
    refine ht.embryo hi np false (fun v => { v with parent := some p }) hp hpc rfl rfl rfl rfl
      (forks_of_update np (fun v => { v with parent := some p }) (.fork np true) rfl (by simp [hembryo, ProcState.live])
        (fun _ _ => rfl) hp ?_) rfl (by simp [hembryo]) (fun _ => rfl)
    rintro q c he
    rw [hpc, (Pc.fork.inj he).1]
    exact ⟨false, rfl⟩
  · obtain ⟨hembryo, hparent⟩ := hi.fork p np true hp hpc
    refine ht.embryo hi np true (fun v => { v with state := .runnable }) hp hpc rfl rfl rfl rfl
      (forks_of_update np (fun v => { v with state := .runnable }) .idle rfl (fun _ q c => ?_)
        (fun q hq => update_of_ne hq _ _) hp nofun) rfl (by simp) (fun _ => hparent)
    dsimp only
    rw [update_self]
    simp
  · exact ht.exit hi how hp hpc rfl rfl rfl rfl rfl
  · exact ht.reap hi q stored hq hstored rfl rfl rfl rfl rfl

theorem step_told {a : Act nproc} (hi : Sane s ∧ Told s) (hs : step s a = some s') : Sane s' ∧ Told s' := by
  refine ⟨step_sane hi.1 hs, ?_⟩
  obtain ⟨s₁, rfl | ⟨hstir, -⟩, hprim⟩ := step_prim hs
  · exact hi.2.prim hi.1 hprim
  · exact (hi.2.stir hstir).prim (hi.1.stir hstir) hprim

theorem told_of_reach (s : State nproc) (h : (procs nproc).Reach s) : Sane s ∧ Told s :=
  (procs nproc).reach_inv (fun s => Sane s ∧ Told s) (fun _ h => ⟨init_sane h, init_told h⟩)
    (fun _ _ _ => step_told) s h

theorem wait_failed (two : Bool) (w : Id nproc) (h : (wait p two s).log = .waitFailed w :: s.log) :
    w = s.id p ∧ (wait p two s).proc = s.proc := by
  unfold wait at h ⊢
  split at h
  · exact absurd (List.cons.inj h).1 (by simp)
  · split_ifs at h ⊢
    · exact ⟨(Event.waitFailed.inj (List.cons.inj h).1).symm, rfl⟩
    · exact absurd h (List.ne_cons_self)

/-- A call of `wait` or `wait2` that returns -1 in this step changes no slot but that of its caller, which may start to
run. -/
theorem step_waitFailed {a : Act nproc} (w : Id nproc) (hs : step s a = some s')
    (hw : s'.log = .waitFailed w :: s.log) :
    s'.proc = s.proc ∨ s'.proc = s.proc.set w.1 fun v => { v with state := .running, chan := none } := by
  have hsame : ∀ log : List (Event nproc), log ≠ .waitFailed w :: log := fun log => (List.cons_ne_self _ _).symm
  unfold step at hs
  rcases a with p | p | ⟨p, addr⟩ | addr | p | p | p | p | ⟨p, how⟩ | p | ⟨p, two⟩ | pid | p <;> dsimp only at hs
  case sched =>
    split_ifs at hs
    cases hs
    unfold sched at hw ⊢
    dsimp only at hw ⊢
    split at hw
    · obtain ⟨rfl, hproc⟩ := wait_failed _ _ hw
      exact .inr hproc
    · exact absurd hw (hsame _)
  case wait =>
    split_ifs at hs
    cases hs
    exact .inl (wait_failed _ _ hw).2
  case fork =>
    split_ifs at hs
    cases hs
    unfold allocproc at hw
    split at hw
    · exact absurd hw (hsame _)
    · exact absurd (List.cons.inj hw).1 (by simp)
  case kill =>
    cases hs
    unfold kill at hw
    split at hw
    · exact absurd (List.cons.inj hw).1 (by simp)
    · exact absurd hw (hsame _)
  case exitLocked =>
    split at hs <;> [split_ifs at hs; exact absurd hs (by simp)]
    cases hs
    exact absurd (List.cons.inj hw).1 (by simp)
  case fault =>
    split_ifs at hs
    cases hs
    exact absurd (List.cons.inj hw).1 (by simp)
  case wakeup =>
    cases hs
    exact absurd hw (hsame _)
  case yield | sleep | exit =>
    split_ifs at hs
    cases hs
    exact absurd hw (hsame _)
  case forkFail | forkCopy | forkRun =>
    split at hs <;> [split_ifs at hs; exact absurd hs (by simp)]
    cases hs
    exact absurd hw (hsame _)

/-- **Every process that ends is reaped once, by its parent, with its own status.** -/
theorem reaped_once_by_parent (s : State nproc) (h : (procs nproc).Reach s) :
    History s.initproc s.log ∧
    (∀ q k how, .exited (q, k) how ∈ s.log →
      ((s.proc q).state = .zombie ∧ s.life q = k ∧ ∀ b pid stored, .reaped b (q, k) pid stored ∉ s.log) ∨
      ∃ b pid stored, .reaped b (q, k) pid stored ∈ s.log) ∧
    (∀ q, q ≠ s.initproc → (s.proc q).state ≠ .unused → (s.proc q).state ≠ .embryo →
      ∃ r, (s.proc q).parent = some r ∧ (s.proc r).state ≠ .unused ∧ (s.proc r).state ≠ .zombie) ∧
    ∀ a s' w, step s a = some s' → s'.log = .waitFailed w :: s.log →
      s'.proc = s.proc ∨ s'.proc = s.proc.set w.1 fun v => { v with state := .running, chan := none } := by
  obtain ⟨hi, ht⟩ := told_of_reach s h
  refine ⟨ht.history, fun q k how he => ?_, fun q hq hu he => ?_, fun a s' w hs hw => step_waitFailed w hs hw⟩
  · rcases ht.done q k how he with ⟨hz, rfl⟩ | hr
    · obtain ⟨-, -, -, hr⟩ := ht.zombie q hz
      exact .inl ⟨hz, rfl, hr⟩
    · exact .inr hr
  · have hstate : (s.proc q).state.live = true ∨ (s.proc q).state = .zombie := by
      rcases hst : (s.proc q).state with _ | _ | _ | _ | _ | _ <;> simp_all [ProcState.live]
    obtain ⟨r, -, hr, hlive⟩ := hi.parent q hq hstate
    refine ⟨r, hr, fun hst => ?_, fun hst => ?_⟩ <;> rw [hst] at hlive <;> exact absurd hlive (by simp [ProcState.live])

def reapedChild : List (Act 2) :=
  forked ++ [.yield 0, .sched 1, .exit 1 (.exit2 7), .exitLocked 1, .sched 0, .wait 0 true]

theorem reaped_once_by_parent_reapedChild : ∃ s, (procs 2).Reach s ∧
    s.log = [.reaped (0, 0) (1, 1) 2 (some 7), .exited (1, 1) (.exit2 7), .born (1, 1) 2 (0, 0)] ∧
    History s.initproc s.log := by
  have hrun : ((procs 2).run boot reapedChild).map (fun s => s.log) =
      some [.reaped (0, 0) (1, 1) 2 (some 7), .exited (1, 1) (.exit2 7), .born (1, 1) 2 (0, 0)] := by
    decide +kernel
  obtain ⟨s, hreach, hv⟩ := (procs 2).reach_of_map boot_init hrun
  exact ⟨s, hreach, hv, (reaped_once_by_parent s hreach).1⟩

end Xv6.Procs
