import Mathlib
import Xv6.Sched.Pages

/-! # A process runs on one CPU, with its memory -/

open Lib Function

namespace Xv6.Sched

open Procs (ProcState Ptable Exit)

variable {ncpu nproc : Nat} {s s' : State ncpu nproc} {c : Fin ncpu} {p np : Fin nproc}

def Keeps (s s' : State ncpu nproc) : Prop := ∀ p, Started s p →
  Started s' p ∧ s'.kstack p = s.kstack p ∧ s'.pgdir p = s.pgdir p ∨
  (s.proc p).state = .zombie ∧ ∀ c, (s.cpu c).proc ≠ some p ∧ (s.cpu c).thread ≠ some p

structure Good (s s' : State ncpu nproc) : Prop where
  cpus : Cpus s'
  pages : Pages s'
  keeps : Keeps s s'

theorem good_of_kind (hc : Cpus s') (hp : Pages s) (hkstack : s'.kstack = s.kstack) (hpgdir : s'.pgdir = s.pgdir)
    (hused : s'.used = s.used) (hpc : s'.pc = s.pc) (hinit : s'.initproc = s.initproc)
    (hkind : ∀ q, kind (s'.proc q).state = kind (s.proc q).state)
    (hstage : ∀ q, (s.proc q).state = .embryo → s'.stage q = s.stage q)
    (htask : ∀ p t, s'.stage p = .locked t → s.stage p = .locked t ∨
      (∀ np, t = .run np → s.pc p = .copied np) ∧ ∀ how, t = .exit how → s.pc p = .exit how) : Good s s' := by
  refine ⟨hc, hp.keep hkstack hpgdir hused hpc hinit hkind hstage htask, fun p hs => .inl ⟨?_, ?_, ?_⟩⟩
  · rw [Started, hkind]
    exact hs
  · rw [hkstack]
  · rw [hpgdir]

theorem Cpus.schedule (h : Cpus s) (v : Cpu nproc) (hcpu : s'.cpu = update s.cpu c v) (hat : At s' c)
    (hlock : ∀ c', c' ≠ c → (s'.lock = some c' ↔ s.lock = some c'))
    (hother : ∀ q c', c' ≠ c → (s.cpu c').proc = some q → (s'.proc q).state = (s.proc q).state ∧ s'.stage q = s.stage q)
    (hinj : ∀ q c', c' ≠ c → (s.cpu c').proc = some q → v.proc ≠ some q)
    (hrunning : ∀ q, (s'.proc q).state = .running → v.proc = some q ∨ (s.proc q).state = .running ∧
      (s.cpu c).proc ≠ some q)
    (hparked : ∀ q, left (s'.proc q).state = true → (∃ k, s'.stage q = .parked k) ∨ v.thread = some q ∨
      left (s.proc q).state = true ∧ s'.stage q = s.stage q ∧ (s.cpu c).thread ≠ some q) : Cpus s' := by
  have hself : s'.cpu c = v := by rw [hcpu, update_self]
  have hrest : ∀ c', c' ≠ c → s'.cpu c' = s.cpu c' := fun c' hc => by rw [hcpu, update_of_ne hc]
  refine ⟨fun c' => ?_, fun c₁ c₂ q h₁ h₂ => ?_, fun q hq => ?_, fun q hq => ?_⟩
  · rcases eq_or_ne c' c with rfl | hc
    · exact hat
    · exact (h.at_ c').frame (hrest c' hc) (hlock c' hc) fun q hq => hother q c' hc hq
  · rcases eq_or_ne c₁ c with e₁ | e₁ <;> rcases eq_or_ne c₂ c with e₂ | e₂
    · rw [e₁, e₂]
    · rw [e₁, hself] at h₁
      rw [hrest c₂ e₂] at h₂
      exact absurd h₁ (hinj q c₂ e₂ h₂)
    · rw [e₂, hself] at h₂
      rw [hrest c₁ e₁] at h₁
      exact absurd h₂ (hinj q c₁ e₁ h₁)
    · rw [hrest c₁ e₁] at h₁
      rw [hrest c₂ e₂] at h₂
      exact h.inj c₁ c₂ q h₁ h₂
  · rcases hrunning q hq with hv | ⟨hr, hne⟩
    · exact ⟨c, by rw [hself, hv]⟩
    · obtain ⟨c', hc'⟩ := h.running q hr
      refine ⟨c', ?_⟩
      rwa [hrest c']
      rintro rfl
      exact hne hc'
  · rcases hparked q hq with hk | hv | ⟨hl, hst, hne⟩
    · exact .inl hk
    · exact .inr ⟨c, by rw [hself, hv]⟩
    · rw [hst]
      refine (h.parked q hl).imp_right fun ⟨c', hc'⟩ => ⟨c', ?_⟩
      rwa [hrest c']
      rintro rfl
      exact hne hc'

theorem Cpus.scan (h : Cpus s) (v : Cpu nproc) (lock : Option (Fin ncpu))
    (hcpu : (s.cpu c).proc = none ∧ (s.cpu c).thread = none)
    (hv : v.proc = none ∧ v.thread = none) (hlock : ∀ c', c' ≠ c → (lock = some c' ↔ s.lock = some c'))
    (hat : At ({ s with lock := lock }.setCpu c v) c) : Cpus ({ s with lock := lock }.setCpu c v) := by
  refine h.schedule v rfl hat hlock (fun _ _ _ _ => ⟨rfl, rfl⟩) (fun q c' _ _ => ?_) (fun q hq => .inr ⟨hq, ?_⟩)
    (fun q hq => .inr (.inr ⟨hq, rfl, ?_⟩))
  · simp [hv.1]
  · simp [hcpu.1]
  · simp [hcpu.2]

theorem scheduler_good (h : Cpus s) (hp : Pages s) (hthread : (s.cpu c).thread = none) (hs : scheduler s c = some s') :
    Good s s' := by
  have hat := h.at_ c
  rcases hat with ⟨hc, hl⟩ | ⟨i, hc, hl⟩ | ⟨p, k, hc, hl, hr, hst⟩ | ⟨p, i, hc, hl, hr, hst⟩ | ⟨p, i, hc, hl, hr, hst⟩ |
    ⟨p, i, k, hc, hl, hr, hst⟩ | ⟨p, i, k, hc, hl, hr, hst⟩
  case free | busy | leaving =>
    rw [hc] at hthread
    cases hthread
  all_goals simp only [scheduler, hc] at hs
  · split_ifs at hs with hnone
    cases hs
    refine good_of_kind ?_ hp rfl rfl rfl rfl rfl (fun _ => rfl) (fun _ _ => rfl) fun _ _ ht => .inl ht
    refine h.scan _ _ ⟨by rw [hc], by rw [hc]⟩ ⟨rfl, rfl⟩ (fun c' hne => ?_) ?_
    · rw [hnone]
      simpa using hne.symm
    · exact .scan 0 (by simp [State.setCpu]) rfl
  · split_ifs at hs with hi hrun
    · have he := (Option.some.inj hs).symm
      have hoff := h.off_of_locked hl (q := ⟨i, hi⟩) (by rw [hrun]; rfl) (by simp [hc])
      have hpk : ∃ k, s.stage ⟨i, hi⟩ = .parked k := by
        rcases h.parked ⟨i, hi⟩ (by rw [hrun]; rfl) with hk | ⟨c', hc'⟩
        · exact hk
        · exact absurd hc' (hoff c').2
      obtain ⟨k, hk⟩ := hpk
      have hstate : ∀ q, (s'.proc q).state = if q = ⟨i, hi⟩ then .running else (s.proc q).state := by
        intro q
        rw [he]
        dsimp only [State.setProc, State.setCpu]
        rw [Ptable.set_apply]
        split_ifs <;> rfl
      have hstage : s'.stage = s.stage := by rw [he]; rfl
      have hlock : s'.lock = s.lock := by rw [he]; rfl
      refine good_of_kind ?_ hp (by rw [he]; rfl) (by rw [he]; rfl) (by rw [he]; rfl) (by rw [he]; rfl)
        (by rw [he]; rfl) (fun q => ?_) (fun _ _ => by rw [hstage]) fun _ _ ht => .inl (hstage ▸ ht)
      · refine h.schedule ⟨some ⟨i, hi⟩, none, .chosen i⟩ (by rw [he]; rfl) ?_ (fun _ _ => by rw [hlock])
          (fun q c' _ hq => ⟨?_, by rw [hstage]⟩) (fun q c' _ hq hv => ?_) (fun q hq => ?_) (fun q hq => ?_)
        · refine .chosen ⟨i, hi⟩ k (by rw [he]; simp [State.setProc, State.setCpu])
            (hlock.trans hl) ?_ (by rw [hstage, hk])
          rw [hstate, if_pos rfl]
        · rw [hstate, if_neg]
          rintro rfl
          exact (hoff c').1 hq
        · cases hv
          exact (hoff c').1 hq
        · rw [hstate] at hq
          split_ifs at hq with hqi
          · exact .inl (by rw [hqi])
          · exact .inr ⟨hq, by simp [hc]⟩
        · rw [hstate] at hq
          split_ifs at hq with hqi
          · cases hq
          · exact .inr (.inr ⟨hq, by rw [hstage], by simp [hc]⟩)
      · rw [hstate]
        split_ifs with hqi
        · rw [hqi, hrun]
          rfl
        · rfl
    · cases hs
      refine good_of_kind ?_ hp rfl rfl rfl rfl rfl (fun _ => rfl) (fun _ _ => rfl) fun _ _ ht => .inl ht
      exact h.scan _ s.lock ⟨by rw [hc], by rw [hc]⟩ ⟨rfl, rfl⟩ (fun _ _ => Iff.rfl)
        (.scan (i + 1) (by simp [State.setCpu]) hl)
    · cases hs
      refine good_of_kind ?_ hp rfl rfl rfl rfl rfl (fun _ => rfl) (fun _ _ => rfl) fun _ _ ht => .inl ht
      refine h.scan _ _ ⟨by rw [hc], by rw [hc]⟩ ⟨rfl, rfl⟩ (fun c' hne => ?_) (.idle (by simp [State.setCpu]) nofun)
      rw [hl]
      simpa using hne.symm
  · rw [dif_pos p.isLt, hst] at hs
    cases hs
    have hoff : ∀ q c', c' ≠ c → (s.cpu c').proc = some q → q ≠ p := by
      rintro q c' hne hq rfl
      exact hne (h.inj c' c q hq (by rw [hc]))
    have hstage : ∀ q, q ≠ p → update s.stage p (.resumed k) q = s.stage q := fun q hq => update_of_ne hq ..
    refine good_of_kind ?_ hp rfl rfl rfl rfl rfl (fun _ => rfl) (fun q hq => hstage q ?_) fun q t ht => ?_
    · refine h.schedule _ rfl ?_ (fun _ _ => Iff.rfl) (fun q c' hne hq => ⟨rfl, hstage q (hoff q c' hne hq)⟩)
        (fun q c' hne hq he => ?_) (fun q hq => ?_) (fun q hq => ?_)
      · exact .busy p p.val (by simp [State.setStage, State.setCpu]) hl hr (by simp [State.setStage, Stage.busy])
      · exact hoff q c' hne hq (Option.some.inj he).symm
      · rcases eq_or_ne q p with rfl | hqp
        · exact .inl rfl
        · exact .inr ⟨hq, by simpa [hc] using hqp.symm⟩
      · rcases eq_or_ne q p with rfl | hqp
        · exact .inr (.inl rfl)
        · exact .inr (.inr ⟨hq, hstage q hqp, by simp [hc]⟩)
    · rintro rfl
      rw [hr] at hq
      cases hq
    · rcases eq_or_ne q p with rfl | hqp
      · simp [State.setStage] at ht
      · exact .inl ((hstage q hqp).symm.trans ht)
  · cases hs
    refine good_of_kind ?_ hp rfl rfl rfl rfl rfl (fun _ => rfl) (fun _ _ => rfl) fun _ _ ht => .inl ht
    refine h.schedule _ rfl (.scan (i + 1) (by simp [State.setCpu]) hl) (fun _ _ => Iff.rfl) (fun _ _ _ _ => ⟨rfl, rfl⟩)
      (fun _ _ _ _ => nofun) (fun q hq => .inr ⟨hq, ?_⟩) (fun q hq => .inr (.inr ⟨hq, rfl, by simp [hc]⟩))
    rw [hc]
    intro he
    cases he
    rw [State.setCpu] at hq
    rw [hq] at hr
    cases hr

theorem handler_good (h : Cpus s) (hp : Pages s) {addr : Nat} (hs : handler s c addr = some s') : Good s s' := by
  unfold handler at hs
  split_ifs at hs with hidle
  cases hs
  have hwake := Ptable.wakeup1_state (.other addr) s.proc
  have hrunning : ∀ q, (s.proc.wakeup1 (.other addr) q).state = .running ↔ (s.proc q).state = .running := by
    intro q
    rcases hwake q with he | ⟨he, he'⟩
    · rw [he]
    · simp [he, he']
  have hfree : ∀ c', s.lock ≠ some c' := fun c' => by simp [hidle.2]
  refine good_of_kind ⟨fun c' => ?_, h.inj, fun q hq => ?_, fun q hq => ?_⟩ hp rfl rfl rfl rfl rfl (fun q => ?_)
    (fun _ _ => rfl) fun _ _ ht => .inl ht
  · -- The lock is free, so that the process on `c'` runs.
    refine (h.at_ c').frame rfl Iff.rfl fun q hq => ⟨?_, rfl⟩
    have hr := ((h.at_ c').unlocked (hfree c') hq).1
    exact ((hrunning q).mpr hr).trans hr.symm
  · exact h.running q ((hrunning q).mp hq)
  · refine h.parked q ?_
    rcases hwake q with he | ⟨he, -⟩
    · exact he ▸ hq
    · rw [he]
      rfl
  · rcases hwake q with he | ⟨he, he'⟩
    · exact congrArg kind he
    · rw [he, he']
      rfl

theorem table_good (h : Cpus s) (hp : Pages s) (hthread : (s.cpu c).thread = some p) (hl : s.lock = some c)
    (t : Ptable nproc) (st : Stage nproc) (hstarted : Started s p)
    (hstate : ∀ q, q ≠ p → (t q).state = (s.proc q).state ∨ (s.proc q).state = .sleeping ∧ (t q).state = .runnable)
    (hst : (t p).state = .running ∧ st.busy = true ∨ left (t p).state = true ∧ ∃ k, st = .sched k)
    (htask : ∀ t, st = .locked t → ∃ two, t = .wait two) : Good s ({ s with proc := t }.setStage p st) := by
  have hstage : ∀ q, q ≠ p → update s.stage p st q = s.stage q := fun q hq => update_of_ne hq ..
  have hself : update s.stage p st p = st := update_self ..
  refine good_of_kind ?_ hp rfl rfl rfl rfl rfl (fun q => ?_) (fun q hq => hstage q ?_) fun q t' ht => ?_
  · refine h.locked rfl hthread hl hl ⟨fun q hq => ?_, fun q hq hleft => ?_, hstage⟩ ?_
    · rcases hstate q hq with he | ⟨he, he'⟩
      · exact he ▸ Iff.rfl
      · dsimp only [State.setStage]
        simp [he, he']
    · rcases hstate q hq with he | ⟨he, -⟩
      · exact .inl (by rwa [← he])
      · exact .inl (by rw [he]; rfl)
    · dsimp only [State.setStage]
      rw [hself]
      exact hst
  · dsimp only [State.setStage]
    rcases eq_or_ne q p with rfl | hqp
    · rw [hstarted]
      rcases hst with ⟨hr, -⟩ | ⟨hr, -⟩
      · rw [hr]
        rfl
      · exact kind_left hr
    · rcases hstate q hqp with he | ⟨he, he'⟩
      · rw [he]
      · rw [he, he']
        rfl
  · rintro rfl
    rw [Started, hq] at hstarted
    cases hstarted
  · dsimp only [State.setStage] at ht
    rcases eq_or_ne q p with rfl | hqp
    · rw [hself] at ht
      obtain ⟨two, rfl⟩ := htask t' ht
      exact .inr ⟨(by simp), (by simp)⟩
    · exact .inl (by rwa [hstage q hqp] at ht)

theorem set_state_ne (t : Ptable nproc) (f : Procs.Proc nproc → Procs.Proc nproc) (q : Fin nproc) (hq : q ≠ p) :
    (t.set p f q).state = (t q).state ∨ (t q).state = .sleeping ∧ (t.set p f q).state = .runnable :=
  .inl (by rw [Ptable.set_ne _ _ _ hq])

theorem kill_state (t : Ptable nproc) (r q : Fin nproc) :
    (t.kill r q).state = (t q).state ∨ (t q).state = .sleeping ∧ (t.kill r q).state = .runnable := by
  unfold Ptable.kill
  rcases eq_or_ne q r with rfl | hq
  · rw [Ptable.set_self]
    split_ifs with hs
    · exact .inr ⟨hs, rfl⟩
    · exact .inl rfl
  · rw [Ptable.set_ne _ _ _ hq]
    exact .inl rfl

theorem OneSlot.keeps (h : OneSlot p np s s') (hnp : ¬ Started s np) : Keeps s s' := by
  intro q hq
  have hqn : q ≠ np := by
    rintro rfl
    exact hnp hq
  exact .inl ⟨(h.started hqn).mpr hq, h.kstack q hqn, h.pgdir q hqn⟩

theorem not_started {st : ProcState} (h : (s.proc p).state = st) (hk : kind st ≠ .started) : ¬ Started s p := by
  rw [Started, h]
  exact hk

theorem OneSlot.not_hasStack (h : OneSlot p np s s') (hnp : ¬ Started s' np) (hpc : (s'.pc p).hasStack ≠ some np) :
    ¬ HasStack s' np := by
  rintro (hst | ⟨q, hq⟩)
  · exact hnp hst
  · rw [h.only q (Pc.child_of_hasStack hq)] at hq
    exact hpc hq

theorem OneSlot.not_hasDir (h : OneSlot p np s s') (hnp : ¬ Started s' np) (hpc : (s'.pc p).hasDir ≠ some np) :
    ¬ HasDir s' np := by
  rintro (hst | ⟨q, hq⟩)
  · exact hnp hst
  · rw [h.only q (Pc.child_of_hasStack (Pc.hasStack_of_hasDir hq))] at hq
    exact hpc hq

theorem Pages.empty (h : Pages s) (ho : OneSlot p np s s') (hnp : ¬ Started s' np) (hkstack : s'.kstack np = none)
    (hembryo : (s'.pc p).child = some np → (s'.proc np).state = .embryo) (hpc : (s'.pc p).hasStack ≠ some np)
    (hold : ∀ q, q ≠ np → ∀ pg w, Owns s q pg w → s'.used pg = true) : Pages s' := by
  have hdir := ho.not_hasDir hnp fun hd => hpc (Pc.hasStack_of_hasDir hd)
  have hnone : ∀ pg w, ¬ Owns s' np pg w := by
    rintro pg (_ | _) hw
    · rw [Owns, hkstack] at hw
      cases hw
    · exact hdir hw.1
  exact h.slot ho hembryo (fun hq => absurd hq hpc) (fun hq => absurd hq (ho.not_hasStack hnp hpc))
    (fun hq => absurd hq hdir)
    (fun _ => hkstack) hold (fun pg w hw => absurd hw (hnone pg w)) fun pg hw => absurd hw (hnone pg _)

theorem task_of_update {f : Fin nproc → Stage nproc} {v : Stage nproc} (hv : ∀ t, v ≠ .locked t) {q : Fin nproc}
    {t : Task nproc} (h : update f p v q = .locked t) : f q = .locked t := by
  rcases eq_or_ne q p with rfl | hqp
  · rw [update_self] at h
    exact absurd h (hv t)
  · rwa [update_of_ne hqp] at h

variable (h : Cpus s) (hp : Pages s) (hthread : (s.cpu c).thread = some p)

section

include h hp hthread

theorem allocproc_good (hl : s.lock = some c)
    (hrun : (s.proc p).state = .running) : Good s ((allocproc s p).setStage p .done) := by
  have hstarted : Started s p := by rw [Started, hrun]; rfl
  unfold allocproc
  split
  · exact table_good h hp hthread hl s.proc .done hstarted (fun _ _ => .inl rfl) (.inl ⟨hrun, rfl⟩) (by simp)
  rename_i np hfind
  have hnp : (s.proc np).state = .unused := by simpa using List.find?_some hfind
  have hpn : p ≠ np := by
    rintro rfl
    rw [hrun] at hnp
    cases hnp
  have hfree : ∀ q, (s.pc q).child ≠ some np := by
    intro q hq
    rw [hp.child q np hq] at hnp
    cases hnp
  generalize he : ((({ s with nextpid := Int.bmod (s.nextpid + 1) (2 ^ 32) }.setProc np fun v =>
      { v with state := .embryo, pid := s.nextpid }).setPc p (.allocated np)).setStage p .done) = s'
  have hstate : ∀ q, q ≠ np → (s'.proc q).state = (s.proc q).state := by
    intro q hq
    rw [← he]
    exact congrArg (·.state) (Ptable.set_ne _ _ _ hq)
  have hnp' : (s'.proc np).state = .embryo := by
    rw [← he]
    exact congrArg (·.state) (Ptable.set_self s.proc np _)
  have hstage : ∀ q, q ≠ p → s'.stage q = s.stage q := fun q hq => by rw [← he]; exact update_of_ne hq ..
  have hdone : s'.stage p = .done := by rw [← he]; exact update_self ..
  have hpcp : s'.pc p = .allocated np := by rw [← he]; exact update_self ..
  have hkstack : s'.kstack = s.kstack := by rw [← he]; rfl
  have hone : OneSlot p np s s' :=
    oneSlot_of hpn hstarted hstate (fun q _ => by rw [hkstack]) (fun q _ => by rw [← he]; rfl) (by rw [← he]; rfl)
      (fun q hq _ => hstage q hq) (by simp [hdone]) (fun _ _ => not_started hnp' (by simp [kind]))
      (fun q hq => .inl (by rw [← he]; exact update_of_ne hq ..)) (fun q _ => hfree q)
      (.inr (.inr (by rw [hpcp]; rfl)))
  refine ⟨?_, ?_, hone.keeps (not_started hnp (by simp [kind]))⟩
  · refine h.locked (by rw [← he]; rfl) hthread hl (by rw [← he]; exact hl) ⟨fun q _ => ?_, fun q _ hleft => ?_, hstage⟩
      (.inl ⟨by rw [hstate p hpn, hrun], by rw [hdone]; rfl⟩)
    · rcases eq_or_ne q np with rfl | hqn
      · simp [hnp', hnp]
      · rw [hstate q hqn]
    · rcases eq_or_ne q np with rfl | hqn
      · rw [hnp'] at hleft
        cases hleft
      · exact .inl (by rwa [← hstate q hqn])
  · refine hp.empty hone (not_started hnp' (by simp [kind])) (by rw [hkstack]; exact hp.unused np hnp) (fun _ => hnp')
      (by rw [hpcp]; simp [Pc.hasStack]) fun q _ pg w ho => ?_
    rw [show s'.used = s.used by rw [← he]; rfl]
    exact hp.used q pg w ho

theorem run_good (hl : s.lock = some c) (hrun : (s.proc p).state = .running) (hpc : s.pc p = .copied np) :
    Good s (((s.setProc np fun v => { v with state := .runnable }).setPc p .idle).setStage p .done) := by
  have hstarted : Started s p := by rw [Started, hrun]; rfl
  have hchild : (s.pc p).child = some np := by rw [hpc]; rfl
  have hnp : (s.proc np).state = .embryo := hp.child p np hchild
  have hpn : p ≠ np := by
    rintro rfl
    rw [hrun] at hnp
    cases hnp
  obtain ⟨k, hk⟩ := hp.parked p np (by rw [hpc]; rfl)
  have hdirnp : HasDir s np := .inr ⟨p, by rw [hpc]; rfl⟩
  generalize he : ((s.setProc np fun v => { v with state := .runnable }).setPc p .idle).setStage p .done = s'
  have hstate : ∀ q, q ≠ np → (s'.proc q).state = (s.proc q).state := by
    intro q hq
    rw [← he]
    exact congrArg (·.state) (Ptable.set_ne _ _ _ hq)
  have hnp' : (s'.proc np).state = .runnable := by
    rw [← he]
    exact congrArg (·.state) (Ptable.set_self s.proc np _)
  have hstage : ∀ q, q ≠ p → s'.stage q = s.stage q := fun q hq => by rw [← he]; exact update_of_ne hq ..
  have hdone : s'.stage p = .done := by rw [← he]; exact update_self ..
  have hpcp : s'.pc p = .idle := by rw [← he]; exact update_self ..
  have hkstack : s'.kstack = s.kstack := by rw [← he]; rfl
  have hpgdir : s'.pgdir = s.pgdir := by rw [← he]; rfl
  have hused : s'.used = s.used := by rw [← he]; rfl
  have hone : OneSlot p np s s' :=
    oneSlot_of hpn hstarted hstate (fun q _ => by rw [hkstack]) (fun q _ => by rw [hpgdir]) (by rw [← he]; rfl)
      (fun q hq _ => hstage q hq) (by simp [hdone]) (fun t ht => by rw [hstage np hpn.symm, hk] at ht; cases ht)
      (fun q hq => .inl (by rw [← he]; exact update_of_ne hq ..)) (fun q hq => hp.only hchild hq) (.inr (.inl hpcp))
  have howns : ∀ pg w, Owns s' np pg w → Owns s np pg w := by
    rintro pg (_ | _) hw
    · rwa [Owns, hkstack] at hw
    · exact ⟨hdirnp, by rw [← hpgdir]; exact hw.2⟩
  refine ⟨?_, ?_, hone.keeps (not_started hnp (by simp [kind]))⟩
  · refine h.locked (by rw [← he]; rfl) hthread hl (by rw [← he]; exact hl) ⟨fun q _ => ?_, fun q _ hleft => ?_, hstage⟩
      (.inl ⟨by rw [hstate p hpn, hrun], by rw [hdone]; rfl⟩)
    · rcases eq_or_ne q np with rfl | hqn
      · simp [hnp', hnp]
      · rw [hstate q hqn]
    · rcases eq_or_ne q np with rfl | hqn
      · exact .inr ⟨k, hk⟩
      · exact .inl (by rwa [← hstate q hqn])
  · refine hp.slot hone (fun hq => ?_) (fun hq => ?_) (fun _ => ?_) (fun _ => ?_) (fun hu => ?_) (fun q _ pg w ho => ?_)
      (fun pg w hw => ⟨?_, hp.not_owns (howns pg w hw)⟩) fun pg hw hw' => ?_
    · rw [hpcp] at hq
      cases hq
    · rw [hpcp] at hq
      cases hq
    · rw [hkstack]
      exact hp.stack np (.inr ⟨p, by rw [hpc]; rfl⟩)
    · rw [hpgdir]
      exact hp.dir np hdirnp
    · rw [hnp'] at hu
      cases hu
    · rw [hused]
      exact hp.used q pg w ho
    · rw [hused]
      exact hp.used np pg w (howns pg w hw)
    · cases (hp.inj np np pg _ _ (howns pg _ hw) (howns pg _ hw')).2

theorem wait_good (hl : s.lock = some c)
    (hrun : (s.proc p).state = .running) (two : Bool) : Good s (wait s p p two) := by
  have hstarted : Started s p := by rw [Started, hrun]; rfl
  obtain ⟨⟨i, hc⟩, -⟩ := (h.at_ c).thread hthread
  unfold wait
  split
  · rename_i q hq
    obtain ⟨-, hz⟩ := Ptable.zombieChild_some hq
    have hpq : p ≠ q := by
      rintro rfl
      rw [hrun] at hz
      cases hz
    have hqs : Started s q := by rw [Started, hz]; rfl
    obtain ⟨k, hk⟩ := hp.stack q (.inl hqs)
    obtain ⟨d, hd⟩ := hp.dir q (.inl hqs)
    have hfree : ∀ r, (s.pc r).child ≠ some q := by
      intro r hr
      rw [hp.child r q hr] at hz
      cases hz
    generalize he : ({ ((s.kfree (s.kstack q)).setKstack q none).kfree
      (((s.kfree (s.kstack q)).setKstack q none).pgdir q) with
      proc := (((s.kfree (s.kstack q)).setKstack q none).kfree (((s.kfree (s.kstack q)).setKstack q none).pgdir
        q)).proc.reap q }
      : State ncpu nproc).setStage p .done = s'
    rw [hk] at he
    have hpg : ((s.kfree (some k)).setKstack q none).pgdir q = some d := hd
    rw [hpg] at he
    have hstate : ∀ r, r ≠ q → (s'.proc r).state = (s.proc r).state := by
      intro r hr
      rw [← he]
      exact congrArg (·.state) (Ptable.set_ne _ _ _ hr)
    have hq' : (s'.proc q).state = .unused := by
      rw [← he]
      exact congrArg (·.state) (Ptable.set_self s.proc q _)
    have hstage : ∀ r, r ≠ p → s'.stage r = s.stage r := fun r hr => by rw [← he]; exact update_of_ne hr ..
    have hdone : s'.stage p = .done := by rw [← he]; exact update_self ..
    have hpc : s'.pc = s.pc := by rw [← he]; rfl
    have hused : s'.used = update (update s.used k false) d false := by rw [← he]; rfl
    have hone : OneSlot p q s s' :=
      oneSlot_of hpq hstarted hstate (fun r hr => by rw [← he]; exact update_of_ne hr ..) (fun r _ => by rw [← he]; rfl)
        (by rw [← he]; rfl) (fun r hr _ => hstage r hr) (by simp [hdone]) (fun _ _ => not_started hq' (by simp [kind]))
        (fun r _ => .inl (by rw [hpc])) (fun r _ => hfree r) (.inl ⟨by rw [hpc], hfree p⟩)
    refine ⟨?_, ?_, fun r hr => ?_⟩
    · refine h.locked (by rw [← he]; rfl) hthread hl (by rw [← he]; exact hl) ⟨fun r _ => ?_,
        fun r _ hleft => ?_, hstage⟩ (.inl ⟨by rw [hstate p hpq, hrun], by rw [hdone]; rfl⟩)
      · rcases eq_or_ne r q with rfl | hrq
        · simp [hq', hz]
        · rw [hstate r hrq]
      · rcases eq_or_ne r q with rfl | hrq
        · rw [hq'] at hleft
          cases hleft
        · exact .inl (by rwa [← hstate r hrq])
    · refine hp.empty hone (not_started hq' (by simp [kind])) (by rw [← he]; exact update_self ..) (fun hr => ?_)
        (fun hr => hfree p ?_) fun r hr pg w ho => ?_
      · rw [hpc] at hr
        exact absurd hr (hfree p)
      · rw [hpc] at hr
        exact Pc.child_of_hasStack hr
      · have hnk : pg ≠ k := by
          rintro rfl
          exact hp.not_owns (w := .stack) hk r hr w ho
        have hnd : pg ≠ d := by
          rintro rfl
          exact hp.not_owns (w := .dir) ⟨.inl hqs, hd⟩ r hr w ho
        rw [hused, update_of_ne hnd, update_of_ne hnk]
        exact hp.used r pg w ho
    · rcases eq_or_ne r q with rfl | hrq
      · refine .inr ⟨hz, h.off_of_locked hl (by rw [hz]; rfl) ?_⟩
        rw [hc]
        simpa using hpq
      · exact .inl ⟨(hone.started hrq).mpr hr, hone.kstack r hrq, hone.pgdir r hrq⟩
  · split_ifs
    · exact table_good h hp hthread hl s.proc .done hstarted (fun _ _ => .inl rfl) (.inl ⟨hrun, rfl⟩) (by simp)
    · refine table_good h hp hthread hl _ _ hstarted (set_state_ne s.proc _) (.inr ⟨?_, _, rfl⟩) (by simp)
      rw [Ptable.set_self]
      rfl

theorem perform_good (hl : s.lock = some c)
    (hrun : (s.proc p).state = .running) (t : Task nproc) (ht : s.stage p = .locked t) : Good s (t.perform s p p) := by
  have hstarted : Started s p := by rw [Started, hrun]; rfl
  obtain ⟨htrun, htexit⟩ := hp.task p t ht hstarted
  rcases t with _ | addr | addr | pid | _ | np | how | two <;> dsimp only [Task.perform]
  · refine table_good h hp hthread hl _ _ hstarted (set_state_ne s.proc _) (.inr ⟨?_, _, rfl⟩) (by simp)
    rw [Ptable.set_self]
    rfl
  · refine table_good h hp hthread hl _ _ hstarted (set_state_ne s.proc _) (.inr ⟨?_, _, rfl⟩) (by simp)
    rw [Ptable.set_self]
    rfl
  · refine table_good h hp hthread hl _ _ hstarted (fun q _ => Ptable.wakeup1_state _ s.proc q)
      (.inl ⟨?_, rfl⟩) (by simp)
    rcases Ptable.wakeup1_state (.other addr) s.proc p with he | ⟨he, -⟩
    · rw [he, hrun]
    · rw [hrun] at he
      cases he
  · split
    · rename_i q _
      refine table_good h hp hthread hl _ _ hstarted (fun r _ => kill_state s.proc q r) (.inl ⟨?_, rfl⟩) (by simp)
      rcases kill_state s.proc q p with he | ⟨he, -⟩
      · rw [he, hrun]
      · rw [hrun] at he
        cases he
    · exact table_good h hp hthread hl s.proc .done hstarted (fun _ _ => .inl rfl) (.inl ⟨hrun, rfl⟩) (by simp)
  · exact allocproc_good h hp hthread hl hrun
  · exact run_good h hp hthread hl hrun (htrun np rfl)
  · have hne : s.initproc ≠ p := by
      rintro rfl
      exact hp.init how (htexit how rfl)
    refine table_good h hp hthread hl _ _ hstarted (Ptable.exit_state s.initproc p hne how.status s.proc)
      (.inr ⟨?_, _, rfl⟩) (by simp)
    unfold Ptable.exit
    rw [Ptable.set_self]
    rfl
  · exact wait_good h hp hthread hl hrun two

theorem locked_good (hs : locked s c p = some s') :
    Good s s' := by
  obtain ⟨⟨i, hc⟩, ⟨-, -, hst⟩ | ⟨hl, hrun, hst⟩ | ⟨hl, hleft, k, hst⟩⟩ := (h.at_ c).thread hthread
  · rw [locked, hst] at hs
    cases hs
  · have hstarted : Started s p := by rw [Started, hrun]; rfl
    unfold locked at hs
    split at hs
    case h_1 | h_2 => cases hs
    case h_3 t ht =>
      simp only [hc] at hs
      cases hs
      exact perform_good h hp hthread hl hrun t ht
    case h_4 k ht =>
      rw [ht] at hst
      cases hst
    case h_5 k ht =>
      split at hs
      · cases hs
        exact table_good h hp hthread hl s.proc .done hstarted (fun _ _ => .inl rfl) (.inl ⟨hrun, rfl⟩) (by simp)
      · cases hs
        exact table_good h hp hthread hl s.proc .done hstarted (fun _ _ => .inl rfl) (.inl ⟨hrun, rfl⟩) (by simp)
      · cases hs
        refine table_good h hp hthread hl _ _ hstarted (set_state_ne s.proc _) (.inl ⟨?_, rfl⟩) (by simp)
        rw [Ptable.set_self]
        exact hrun
      · rename_i two
        cases hs
        refine table_good h hp hthread hl _ _ hstarted (set_state_ne s.proc _) (.inl ⟨?_, rfl⟩) fun t he => ⟨two, ?_⟩
        · rw [Ptable.set_self]
          exact hrun
        · exact (Stage.locked.inj he).symm
      · cases hs
    case h_6 ht =>
      cases hs
      have hstage : ∀ q, q ≠ p → update s.stage p .free q = s.stage q := fun q hq => update_of_ne hq ..
      have hself : update s.stage p Stage.free p = .free := update_self ..
      refine good_of_kind ?_ hp rfl rfl rfl rfl rfl (fun _ => rfl) (fun q hq => hstage q ?_) fun q t ht => .inl ?_
      · refine h.move rfl hthread (.free p i hc (by simp [State.setStage]) hrun hself) (fun c' hne => ?_)
          (fun q hq _ _ => ⟨rfl, hstage q hq⟩) (fun _ _ hq => hq) fun q hq hleft => ?_
        · rw [hl]
          simpa [State.setStage] using hne.symm
        · exact (h.parked q hleft).imp_left (.imp fun k hk => (hstage q hq).trans hk)
      · rintro rfl
        rw [hrun] at hq
        cases hq
      · exact task_of_update (fun _ => by simp) ht
  · -- `swtch` back to the scheduler.
    simp only [locked, hst, hc] at hs
    cases hs
    have hstage : ∀ q, q ≠ p → update s.stage p (.parked k) q = s.stage q := fun q hq => update_of_ne hq ..
    have hself : update s.stage p (.parked k) p = .parked k := update_self ..
    have hproc : ∀ q c', c' ≠ c → (s.cpu c').proc = some q → q ≠ p := by
      rintro q c' hne hq rfl
      exact hne (h.inj c' c q hq (by rw [hc]))
    refine good_of_kind ?_ hp rfl rfl rfl rfl rfl (fun _ => rfl) (fun q hq => hstage q ?_) fun q t ht => .inl ?_
    · refine h.schedule _ rfl (.back p i k (by simp [State.setStage, State.setCpu]) hl hleft hself) (fun _ _ => Iff.rfl)
        (fun q c' hne hq => ⟨rfl, hstage q (hproc q c' hne hq)⟩) (fun q c' hne hq he => ?_) (fun q hq => .inr ⟨hq, ?_⟩)
        (fun q hq => ?_)
      · exact hproc q c' hne hq (Option.some.inj he).symm
      · rw [hc]
        intro he
        cases he
        dsimp only [State.setStage, State.setCpu] at hq
        rw [hq] at hleft
        cases hleft
      · rcases eq_or_ne q p with rfl | hqp
        · exact .inl ⟨k, hself⟩
        · exact .inr (.inr ⟨hq, hstage q hqp, by rw [hc]; simpa using hqp.symm⟩)
    · rintro rfl
      rw [hq] at hleft
      cases hleft
    · exact task_of_update (fun _ => by simp) ht

end

theorem Cpus.running_of_free (h : Cpus s) (hthread : (s.cpu c).thread = some p) (hst : s.stage p = .free) :
    (s.proc p).state = .running := by
  obtain ⟨-, ⟨-, hrun, -⟩ | ⟨-, hrun, -⟩ | ⟨-, -, k, hk⟩⟩ := (h.at_ c).thread hthread
  · exact hrun
  · exact hrun
  · rw [hst] at hk
    cases hk

section

include h hp hthread

theorem acquire_good (t : Task nproc) (hst : s.stage p = .free) (ht : t.allowed (s.pc p) = true) (hl : s.lock = none) :
    Good s ({ s with lock := some c }.setStage p (.locked t)) := by
  obtain ⟨⟨i, hc⟩, -⟩ := (h.at_ c).thread hthread
  have hrun := h.running_of_free hthread hst
  have hstage : ∀ q, q ≠ p → update s.stage p (.locked t) q = s.stage q := fun q hq => update_of_ne hq ..
  have hself : update s.stage p (.locked t) p = .locked t := update_self ..
  refine good_of_kind ?_ hp rfl rfl rfl rfl rfl (fun _ => rfl) (fun q hq => hstage q ?_) fun q t' ht' => ?_
  · refine h.move rfl hthread (.busy p i hc rfl hrun ?_) (fun c' hne => ?_) (fun q hq _ _ => ⟨rfl, hstage q hq⟩)
      (fun _ _ hq => hq) fun q hq hleft => ?_
    · dsimp only [State.setStage]
      rw [hself]
      rfl
    · rw [hl]
      simpa [State.setStage] using hne.symm
    · exact (h.parked q hleft).imp_left (.imp fun k hk => (hstage q hq).trans hk)
  · rintro rfl
    rw [hrun] at hq
    cases hq
  · dsimp only [State.setStage] at ht'
    rcases eq_or_ne q p with rfl | hqp
    · rw [hself] at ht'
      obtain rfl := Stage.locked.inj ht'
      refine .inr ⟨?_, ?_⟩
      · rintro np rfl
        rcases hpc : s.pc q with _ | _ | _ | np' | _ <;> simp_all [Task.allowed]
      · rintro how rfl
        rcases hpc : s.pc q with _ | _ | _ | np' | how' <;> simp_all [Task.allowed]
    · rw [hstage q hqp] at ht'
      exact .inl ht'

theorem forking (hst : s.stage p = .free)
    (hchild : (s.pc p).child = some np) : (s.proc p).state = .running ∧ (s.proc np).state = .embryo ∧ p ≠ np := by
  have hnp := hp.child p np hchild
  have hrun := h.running_of_free hthread hst
  refine ⟨hrun, hnp, ?_⟩
  rintro rfl
  rw [hrun] at hnp
  cases hnp

theorem kalloc_good (hst : s.stage p = .free) (hpc : s.pc p = .allocated np) (pg : Page) (hpg : s.used pg = false) :
    Good s (((((s.kalloc pg).setKstack np (some pg)).setStage np (.parked .forkret)).setPc np .idle).setPc p
      (.stacked np)) := by
  have hchild : (s.pc p).child = some np := by rw [hpc]; rfl
  obtain ⟨hrun, hnp, hpn⟩ := forking h hp hthread hst hchild
  generalize he :
    ((((s.kalloc pg).setKstack np (some pg)).setStage np (.parked .forkret)).setPc np .idle).setPc p (.stacked np) = s'
  have hproc : s'.proc = s.proc := by rw [← he]; rfl
  have hstage : ∀ q, q ≠ np → s'.stage q = s.stage q := fun q hq => by rw [← he]; exact update_of_ne hq ..
  have hpcp : s'.pc p = .stacked np := by rw [← he]; exact update_self ..
  have hkstack : s'.kstack np = some pg := by rw [← he]; exact update_self ..
  have hused : s'.used = update s.used pg true := by rw [← he]; rfl
  have hnp' : ¬ Started s' np := by rw [Started, hproc, hnp]; simp [kind]
  have hstnp : s'.stage np = .parked .forkret := by rw [← he]; exact update_self ..
  have hone : OneSlot p np s s' := by
    refine oneSlot_of hpn (by rw [Started, hrun]; rfl) (fun q _ => by rw [hproc])
      (fun q hq => by rw [← he]; exact update_of_ne hq ..) (fun q _ => by rw [← he]; rfl) (by rw [← he]; rfl)
      (fun q _ hq => hstage q hq) (fun t => by rw [hstage p hpn, hst]; simp) (fun t ht => by rw [hstnp] at ht; cases ht)
      (fun q hq => ?_) (fun q hq => hp.only hchild hq) (.inr (.inr (by rw [hpcp]; rfl)))
    rcases eq_or_ne q np with rfl | hqn
    · refine .inr ⟨rfl, ?_⟩
      rw [← he]
      dsimp only [State.setPc]
      rw [update_of_ne hq, update_self]
    · refine .inl ?_
      rw [← he]
      dsimp only [State.setPc]
      rw [update_of_ne hq, update_of_ne hqn]
      rfl
  have hdir : ¬ HasDir s' np := hone.not_hasDir hnp' (by rw [hpcp]; simp [Pc.hasDir])
  refine ⟨?_, ?_, hone.keeps (not_started hnp (by simp [kind]))⟩
  · exact h.outside (by rw [← he]; rfl) (by rw [← he]; rfl) hthread np hnp (.inl (by rw [hproc, hnp]))
      fun q hq => ⟨by rw [hproc], hstage q hq⟩
  · refine hp.slot hone (fun _ => by rw [hproc, hnp]) (fun _ => ⟨_, hstnp⟩) (fun _ => ⟨pg, hkstack⟩)
      (fun hq => absurd hq hdir) (fun hu => ?_) (fun q _ pg' w ho => ?_) (fun pg' w hw => ?_) fun _ _ hw => hdir hw.1
    · rw [hproc, hnp] at hu
      cases hu
    · rw [hused, update_apply]
      split_ifs
      · rfl
      · exact hp.used q pg' w ho
    · rcases w with _ | _
      · obtain rfl := Option.some.inj (hkstack.symm.trans hw)
        exact ⟨by rw [hused, update_self], fun q _ w' => hp.fresh hpg q w'⟩
      · exact absurd hw.1 hdir

theorem forkFail_good (hst : s.stage p = .free)
    (hchild : (s.pc p).child = some np) (hcpu : s'.cpu = s.cpu) (hlock : s'.lock = s.lock)
    (hproc : s'.proc = s.proc.set np fun v => { v with state := .unused }) (hstage : s'.stage = s.stage)
    (hpc : s'.pc = update s.pc p .idle) (hinit : s'.initproc = s.initproc)
    (hkstack : s'.kstack = update s.kstack np none) (hpgdir : ∀ q, q ≠ np → s'.pgdir q = s.pgdir q)
    (hused : ∀ pg, s.kstack np ≠ some pg → s'.used pg = s.used pg) : Good s s' := by
  obtain ⟨hrun, hnp, hpn⟩ := forking h hp hthread hst hchild
  have hstate : ∀ q, q ≠ np → (s'.proc q).state = (s.proc q).state := fun q hq => by rw [hproc, Ptable.set_ne _ _ _ hq]
  have hnp' : (s'.proc np).state = .unused := by rw [hproc, Ptable.set_self]
  have hpcp : s'.pc p = .idle := by rw [hpc, update_self]
  have hone : OneSlot p np s s' :=
    oneSlot_of hpn (by rw [Started, hrun]; rfl) hstate (fun q hq => by rw [hkstack, update_of_ne hq]) hpgdir hinit
      (fun q _ _ => by rw [hstage]) (fun t => by rw [hstage, hst]; simp) (fun _ _ => not_started hnp' (by simp [kind]))
      (fun q hq => .inl (by rw [hpc, update_of_ne hq])) (fun q hq => hp.only hchild hq) (.inr (.inl hpcp))
  refine ⟨?_, ?_, hone.keeps (not_started hnp (by simp [kind]))⟩
  · exact h.outside hcpu hlock hthread np hnp (.inr hnp') fun q hq => ⟨hstate q hq, by rw [hstage]⟩
  · refine hp.empty hone (not_started hnp' (by simp [kind])) (by rw [hkstack, update_self]) (fun hq => ?_)
      (by rw [hpcp]; simp [Pc.hasStack]) fun q hq pg w ho => ?_
    · rw [hpcp] at hq
      cases hq
    · rw [hused pg fun hk => hp.not_owns (w := .stack) hk q hq w ho]
      exact hp.used q pg w ho

theorem copyuvm_good (hst : s.stage p = .free) (hpc : s.pc p = .stacked np) (pg : Page) (hpg : s.used pg = false) :
    Good s ((((s.kalloc pg).setPgdir np (some pg)).setProc np fun v => { v with parent := some p }).setPc p
      (.copied np)) := by
  have hchild : (s.pc p).child = some np := by rw [hpc]; rfl
  obtain ⟨hrun, hnp, hpn⟩ := forking h hp hthread hst hchild
  obtain ⟨k, hk⟩ := hp.stack np (.inr ⟨p, by rw [hpc]; rfl⟩)
  generalize he :
    (((s.kalloc pg).setPgdir np (some pg)).setProc np fun v => { v with parent := some p }).setPc p (.copied np) = s'
  have hstate : ∀ q, (s'.proc q).state = (s.proc q).state := by
    intro q
    rw [← he]
    dsimp only [State.setPc, State.setProc, State.setPgdir, State.kalloc]
    rw [Ptable.set_apply]
    split_ifs with hq
    · rw [hq]
    · rfl
  have hstage : s'.stage = s.stage := by rw [← he]; rfl
  have hpcp : s'.pc p = .copied np := by rw [← he]; exact update_self ..
  have hkstack : s'.kstack = s.kstack := by rw [← he]; rfl
  have hpgdir : s'.pgdir np = some pg := by rw [← he]; exact update_self ..
  have hused : s'.used = update s.used pg true := by rw [← he]; rfl
  have hnp' : (s'.proc np).state = .embryo := by rw [hstate, hnp]
  have hone : OneSlot p np s s' :=
    oneSlot_of hpn (by rw [Started, hrun]; rfl) (fun q _ => hstate q) (fun q _ => by rw [hkstack])
      (fun q hq => by rw [← he]; exact update_of_ne hq ..) (by rw [← he]; rfl) (fun q _ _ => by rw [hstage])
      (fun t => by rw [hstage, hst]; simp) (fun _ _ => not_started hnp' (by simp [kind]))
      (fun q hq => .inl (by rw [← he]; exact update_of_ne hq ..)) (fun q hq => hp.only hchild hq)
      (.inr (.inr (by rw [hpcp]; rfl)))
  have hold : ∀ q pg' w, Owns s q pg' w → s'.used pg' = true := by
    intro q pg' w ho
    rw [hused, update_apply]
    split_ifs
    · rfl
    · exact hp.used q pg' w ho
  refine ⟨?_, ?_, hone.keeps (not_started hnp (by simp [kind]))⟩
  · exact h.outside (by rw [← he]; rfl) (by rw [← he]; rfl) hthread np hnp (.inl hnp')
      fun q _ => ⟨hstate q, by rw [hstage]⟩
  · refine hp.slot hone (fun _ => hnp') (fun _ => ?_) (fun _ => ⟨k, by rw [hkstack, hk]⟩) (fun _ => ⟨pg, hpgdir⟩)
      (fun hu => ?_) (fun q _ pg' w ho => hold q pg' w ho) (fun pg' w hw => ?_) fun pg' hw hw' => ?_
    · rw [hstage]
      exact hp.parked p np (by rw [hpc]; rfl)
    · rw [hnp'] at hu
      cases hu
    · rcases w with _ | _
      · rw [Owns, hkstack] at hw
        exact ⟨hold np pg' .stack hw, hp.not_owns (w := .stack) hw⟩
      · obtain rfl := Option.some.inj (hpgdir.symm.trans hw.2)
        exact ⟨by rw [hused, update_self], fun q _ w' => hp.fresh hpg q w'⟩
    · obtain rfl := Option.some.inj (hpgdir.symm.trans hw'.2)
      rw [Owns, hkstack] at hw
      exact hp.fresh hpg np .stack hw

theorem exit_good (hst : s.stage p = .free) (hne : p ≠ s.initproc) (how : Exit) : Good s (s.setPc p (.exit how)) := by
  have hrun := h.running_of_free hthread hst
  have hstarted : Started s p := by rw [Started, hrun]; rfl
  have hpc : ∀ q, q ≠ p → (s.setPc p (.exit how)).pc q = s.pc q := fun q hq => update_of_ne hq ..
  have hpcp : (s.setPc p (.exit how)).pc p = .exit how := update_self ..
  have hone : OneSlot p p s (s.setPc p (.exit how)) := by
    refine ⟨fun _ _ => rfl, fun _ _ => rfl, fun _ _ => rfl, fun _ _ _ => rfl, fun q x _ hq => ?_, fun q hq => ?_, rfl,
      fun how' hq => by rwa [hpc _ hne.symm] at hq, fun q t ht hq => ⟨ht, hq, hpc q ?_⟩⟩
    · rcases eq_or_ne q p with rfl | hqp
      · rw [hpcp] at hq
        cases hq
      · exact hpc q hqp
    · refine of_not_not fun hqp => ?_
      rw [hpc q hqp] at hq
      rw [hp.child q p hq] at hrun
      cases hrun
    · rintro rfl
      exact absurd (hst.symm.trans ht) (by simp)
  have howns : ∀ pg w, Owns (s.setPc p (.exit how)) p pg w → Owns s p pg w := by
    rintro pg (_ | _) hw
    · exact hw
    · exact ⟨.inl hstarted, hw.2⟩
  refine ⟨?_, ?_, fun q hq => .inl ⟨hq, rfl, rfl⟩⟩
  · exact h.move rfl hthread ((h.at_ c).frame rfl Iff.rfl fun _ _ => ⟨rfl, rfl⟩) (fun _ _ => Iff.rfl)
      (fun _ _ _ _ => ⟨rfl, rfl⟩) (fun _ _ hq => hq) fun q _ hq => h.parked q hq
  · refine hp.slot hone (fun hq => ?_) (fun hq => ?_) (fun _ => hp.stack p (.inl hstarted))
      (fun _ => hp.dir p (.inl hstarted))
      (hp.unused p) (fun q _ => hp.used q)
        (fun pg w hw => ⟨hp.used p pg w (howns pg w hw), hp.not_owns (howns pg w hw)⟩)
      fun pg hw hw' => ?_
    · rw [hpcp] at hq
      cases hq
    · rw [hpcp] at hq
      cases hq
    · cases (hp.inj p p pg _ _ (howns pg _ hw) (howns pg _ hw')).2

theorem process_good (m : Move nproc) (hs : process s c p m = some s') : Good s s' := by
  unfold process at hs
  rcases m with t | pg | pg | how | _ | addr <;> dsimp only at hs
  · split_ifs at hs with hc
    cases hs
    exact acquire_good h hp hthread t hc.1 hc.2.1 hc.2.2
  · split at hs <;> [split_ifs at hs with hc; cases hs]
    rename_i np hpc
    rcases pg with _ | pg <;> dsimp only at hs <;> cases hs
    · exact forkFail_good h hp hthread hc.1 (by rw [hpc]; rfl) rfl rfl rfl rfl rfl rfl rfl (fun _ _ => rfl)
        fun _ _ => rfl
    · exact kalloc_good h hp hthread hc.1 hpc pg (by simpa [State.mayAlloc] using hc.2)
  · split at hs <;> [split_ifs at hs with hc; cases hs]
    rename_i np hpc
    rcases pg with _ | pg <;> dsimp only at hs <;> cases hs
    · obtain ⟨k, hk⟩ := hp.stack np (.inr ⟨p, by rw [hpc]; rfl⟩)
      rw [hk]
      refine forkFail_good h hp hthread hc.1 (by rw [hpc]; rfl) rfl rfl rfl rfl rfl rfl rfl (fun q hq => ?_)
        fun pg hpg => ?_
      · exact update_of_ne hq ..
      · refine update_of_ne ?_ ..
        rintro rfl
        exact hpg hk
    · exact copyuvm_good h hp hthread hc.1 hpc pg (by simpa [State.mayAlloc] using hc.2)
  · split_ifs at hs with hc
    cases hs
    exact exit_good h hp hthread hc.1 hc.2.2 how
  · exact locked_good h hp hthread hs
  · cases hs

end

theorem step_good {a : Fin ncpu × Move nproc} (h : Cpus s) (hp : Pages s) (hs : step s a = some s') : Good s s' := by
  unfold step at hs
  split at hs
  · exact handler_good h hp hs
  · rename_i hthread _
    exact scheduler_good h hp hthread hs
  · rename_i p _ hthread
    exact process_good h hp hthread _ hs

def HasMemory (s : State ncpu nproc) (p : Fin nproc) : Prop :=
  ∃ k d, s.kstack p = some k ∧ s.pgdir p = some d ∧ s.used k = true ∧ s.used d = true

theorem Pages.memory (h : Pages s) (hp : Started s p) : HasMemory s p := by
  obtain ⟨k, hk⟩ := h.stack p (.inl hp)
  obtain ⟨d, hd⟩ := h.dir p (.inl hp)
  exact ⟨k, d, hk, hd, h.used p k .stack hk, h.used p d .dir ⟨.inl hp, hd⟩⟩

/-- **A process is `RUNNING` exactly when it is on one CPU**, and from when a scheduler may choose it its memory stays
until it is `ZOMBIE` and off every CPU. -/
theorem scheduler_exclusive (s : State ncpu nproc) (h : (system ncpu nproc).Reach s) :
    (s.lock = none → ∀ p, (s.proc p).state = .running ↔ ∃! c, (s.cpu c).proc = some p) ∧
    (∀ c c' p, (s.cpu c).proc = some p → (s.cpu c').proc = some p → c = c') ∧
    (∀ c p, (s.cpu c).proc = some p → Started s p) ∧
    (∀ p, Started s p → HasMemory s p) ∧
    ∀ a s' p, step s a = some s' → Started s p →
      Started s' p ∧ s'.kstack p = s.kstack p ∧ s'.pgdir p = s.pgdir p ∧ HasMemory s' p ∨
      (s.proc p).state = .zombie ∧ ∀ c, (s.cpu c).proc ≠ some p ∧ (s.cpu c).thread ≠ some p := by
  have hi : Cpus s ∧ Pages s :=
    (system ncpu nproc).reach_inv (fun s => Cpus s ∧ Pages s) (fun s h => ⟨init_cpus h, init_pages h⟩)
      (fun s a s' hi hs => ⟨(step_good hi.1 hi.2 hs).cpus, (step_good hi.1 hi.2 hs).pages⟩) s h
  refine ⟨fun hl p => ⟨fun hp => ?_, ?_⟩, hi.1.inj, fun c p hc => ?_, fun p hp => hi.2.memory hp,
    fun a s' p hs hp => ?_⟩
  · obtain ⟨c, hc⟩ := hi.1.running p hp
    exact ⟨c, hc, fun c' hc' => hi.1.inj c' c p hc' hc⟩
  · rintro ⟨c, hc, -⟩
    exact ((hi.1.at_ c).unlocked (by rw [hl]; simp) hc).1
  · rcases (hi.1.at_ c).proc hc with hr | ⟨hr, -⟩
    · rw [Started, hr]
      rfl
    · exact kind_left hr
  · have hg := step_good hi.1 hi.2 hs
    rcases hg.keeps p hp with ⟨hst, hk, hd⟩ | hz
    · exact .inl ⟨hst, hk, hd, hg.pages.memory hst⟩
    · exact .inr hz

def boot : State 2 2 where
  lock := none
  cpu _ := { proc := none, thread := none, pc := .idle }
  proc p :=
    { state := if p = 0 then .runnable else .unused, pid := 1, parent := none, killed := false, chan := none,
      exit_status := 0 }
  kstack p := if p = 0 then some 0 else none
  pgdir p := if p = 0 then some 1 else none
  used pg := pg < 2
  stage _ := .parked .forkret
  pc _ := .idle
  nextpid := 2
  initproc := 0

theorem boot_init : Init boot where
  lock := rfl
  cpu _ := rfl
  init := ⟨rfl, rfl⟩
  pages := ⟨0, 1, rfl, rfl, by decide, rfl, rfl⟩
  rest p hp := by
    have hp : p ≠ 0 := hp
    simp [boot, hp]
  pc _ := rfl

def forked : List (Fin 2 × Move 2) :=
  List.replicate 5 (0, .locked) ++ [(0, .acquire .allocproc), (0, .locked), (0, .locked), (0, .kalloc (some 2)),
    (0, .copyuvm (some 3)), (0, .acquire (.run 1)), (0, .locked), (0, .locked)] ++ List.replicate 6 (1, .locked)

theorem scheduler_exclusive_forked : ∃ s, (system 2 2).Reach s ∧ s.lock = none ∧ (∃! c, (s.cpu c).proc = some 0) ∧
    (∃! c, (s.cpu c).proc = some 1) ∧ HasMemory s 1 := by
  have hrun : ((system 2 2).run boot forked).map (fun s => (s.lock, (s.proc 0).state, (s.proc 1).state)) =
      some (none, .running, .running) := by
    decide +kernel
  obtain ⟨s, hreach, hv⟩ := (system 2 2).reach_of_map boot_init hrun
  simp only [Prod.mk.injEq] at hv
  obtain ⟨hl, h0, h1⟩ := hv
  obtain ⟨hone, -, -, hmem, -⟩ := scheduler_exclusive s hreach
  exact ⟨s, hreach, hl, (hone hl 0).mp h0, (hone hl 1).mp h1, hmem 1 (by rw [Started, h1]; rfl)⟩

end Xv6.Sched
