import Xv6.Proc.Table
import Xv6.Sched.Code

/-!
# Who is on which CPU

What a CPU is doing fixes what its process is doing. While a CPU holds `ptable.lock`, every other CPU
is in its scheduler without a process or runs a process that does not use the lock.
-/

open Lib

namespace Xv6.Sched

open Procs (ProcState Ptable Exit)

variable {ncpu nproc : Nat} {s s' : State ncpu nproc} {c : Fin ncpu} {p : Fin nproc}

def left : ProcState → Bool
  | .sleeping | .runnable | .zombie => true
  | _ => false

/-- On the CPU with `ptable.lock`, still `RUNNING`. -/
def Stage.busy : Stage nproc → Bool
  | .locked _ | .resumed _ | .done => true
  | _ => false

inductive At (s : State ncpu nproc) (c : Fin ncpu) : Prop where
  | idle (hc : s.cpu c = ⟨none, none, .idle⟩) (hl : s.lock ≠ some c)
  | scan (i : Nat) (hc : s.cpu c = ⟨none, none, .scan i⟩) (hl : s.lock = some c)
  | chosen (p : Fin nproc) (k : Cont) (hc : s.cpu c = ⟨some p, none, .chosen p.val⟩) (hl : s.lock = some c)
    (hp : (s.proc p).state = .running) (hst : s.stage p = .parked k)
  | free (p : Fin nproc) (i : Nat) (hc : s.cpu c = ⟨some p, some p, .away i⟩) (hl : s.lock ≠ some c)
    (hp : (s.proc p).state = .running) (hst : s.stage p = .free)
  | busy (p : Fin nproc) (i : Nat) (hc : s.cpu c = ⟨some p, some p, .away i⟩) (hl : s.lock = some c)
    (hp : (s.proc p).state = .running) (hst : (s.stage p).busy = true)
  | leaving (p : Fin nproc) (i : Nat) (k : Cont) (hc : s.cpu c = ⟨some p, some p, .away i⟩) (hl : s.lock = some c)
    (hp : left (s.proc p).state = true) (hst : s.stage p = .sched k)
  | back (p : Fin nproc) (i : Nat) (k : Cont) (hc : s.cpu c = ⟨some p, none, .back i⟩) (hl : s.lock = some c)
    (hp : left (s.proc p).state = true) (hst : s.stage p = .parked k)

theorem At.frame (h : At s c) (hcpu : s'.cpu c = s.cpu c) (hlock : s'.lock = some c ↔ s.lock = some c)
    (hproc : ∀ p, (s.cpu c).proc = some p → (s'.proc p).state = (s.proc p).state ∧ s'.stage p = s.stage p) :
    At s' c := by
  rcases h with ⟨hc, hl⟩ | ⟨i, hc, hl⟩ | ⟨p, k, hc, hl, hp, hst⟩ | ⟨p, i, hc, hl, hp, hst⟩ | ⟨p, i, hc, hl, hp, hst⟩ |
    ⟨p, i, k, hc, hl, hp, hst⟩ | ⟨p, i, k, hc, hl, hp, hst⟩
  · exact .idle (hcpu.trans hc) (mt hlock.mp hl)
  · exact .scan i (hcpu.trans hc) (hlock.mpr hl)
  all_goals obtain ⟨h1, h2⟩ := hproc p (by rw [hc])
  · exact .chosen p k (hcpu.trans hc) (hlock.mpr hl) (h1.trans hp) (h2.trans hst)
  · exact .free p i (hcpu.trans hc) (mt hlock.mp hl) (h1.trans hp) (h2.trans hst)
  · exact .busy p i (hcpu.trans hc) (hlock.mpr hl) (h1.trans hp) (by rw [h2, hst])
  · exact .leaving p i k (hcpu.trans hc) (hlock.mpr hl) (by rw [h1, hp]) (h2.trans hst)
  · exact .back p i k (hcpu.trans hc) (hlock.mpr hl) (by rw [h1, hp]) (h2.trans hst)

theorem At.proc (h : At s c) (hp : (s.cpu c).proc = some p) :
    (s.proc p).state = .running ∨ left (s.proc p).state = true ∧ s.lock = some c := by
  rcases h with ⟨hc, hl⟩ | ⟨i, hc, hl⟩ | ⟨q, k, hc, hl, hq, hst⟩ | ⟨q, i, hc, hl, hq, hst⟩ | ⟨q, i, hc, hl, hq, hst⟩ |
    ⟨q, i, k, hc, hl, hq, hst⟩ | ⟨q, i, k, hc, hl, hq, hst⟩
  all_goals
    rw [hc] at hp
    cases hp
  · exact .inl hq
  · exact .inl hq
  · exact .inl hq
  · exact .inr ⟨hq, hl⟩
  · exact .inr ⟨hq, hl⟩

theorem At.unlocked (h : At s c) (hl : s.lock ≠ some c) (hp : (s.cpu c).proc = some p) :
    (s.proc p).state = .running ∧ s.stage p = .free ∧ ∃ i, s.cpu c = ⟨some p, some p, .away i⟩ := by
  rcases h with ⟨hc, -⟩ | ⟨i, hc, hl'⟩ | ⟨q, k, hc, hl', hq, hst⟩ | ⟨q, i, hc, -, hq, hst⟩ | ⟨q, i, hc, hl', hq, hst⟩ |
    ⟨q, i, k, hc, hl', hq, hst⟩ | ⟨q, i, k, hc, hl', hq, hst⟩
  case free =>
    rw [hc] at hp
    cases hp
    exact ⟨hq, hst, i, hc⟩
  case idle =>
    rw [hc] at hp
    cases hp
  all_goals exact absurd hl' hl

theorem At.thread (h : At s c) (hp : (s.cpu c).thread = some p) :
    (∃ i, s.cpu c = ⟨some p, some p, .away i⟩) ∧
    (s.lock ≠ some c ∧ (s.proc p).state = .running ∧ s.stage p = .free ∨
      s.lock = some c ∧ (s.proc p).state = .running ∧ (s.stage p).busy = true ∨
      s.lock = some c ∧ left (s.proc p).state = true ∧ ∃ k, s.stage p = .sched k) := by
  rcases h with ⟨hc, hl⟩ | ⟨i, hc, hl⟩ | ⟨q, k, hc, hl, hq, hst⟩ | ⟨q, i, hc, hl, hq, hst⟩ | ⟨q, i, hc, hl, hq, hst⟩ |
    ⟨q, i, k, hc, hl, hq, hst⟩ | ⟨q, i, k, hc, hl, hq, hst⟩
  all_goals
    rw [hc] at hp
    cases hp
  · exact ⟨⟨i, hc⟩, .inl ⟨hl, hq, hst⟩⟩
  · exact ⟨⟨i, hc⟩, .inr (.inl ⟨hl, hq, hst⟩)⟩
  · exact ⟨⟨i, hc⟩, .inr (.inr ⟨hl, hq, k, hst⟩)⟩

structure Cpus (s : State ncpu nproc) : Prop where
  at_ : ∀ c, At s c
  inj : ∀ c c' p, (s.cpu c).proc = some p → (s.cpu c').proc = some p → c = c'
  running : ∀ p, (s.proc p).state = .running → ∃ c, (s.cpu c).proc = some p
  parked : ∀ p, left (s.proc p).state = true → (∃ k, s.stage p = .parked k) ∨ ∃ c, (s.cpu c).thread = some p

theorem init_cpus (h : Init s) : Cpus s := by
  have hstate : ∀ p, p = s.initproc ∨ (s.proc p).state = .unused := by
    intro p
    rcases eq_or_ne p s.initproc with rfl | hp
    · exact .inl rfl
    · exact .inr (h.rest p hp).1
  refine ⟨fun c => .idle (h.cpu c) (by simp [h.lock]), fun c c' p hc => ?_, fun p hp => ?_, fun p hp => ?_⟩
  · rw [h.cpu] at hc
    cases hc
  · rcases hstate p with rfl | hu
    · rw [h.init.1] at hp
      cases hp
    · rw [hu] at hp
      cases hp
  · rcases hstate p with rfl | hu
    · exact .inl ⟨_, h.init.2⟩
    · rw [hu] at hp
      cases hp

theorem Cpus.off (h : Cpus s) (hp : (s.proc p).state ≠ .running) (hl : left (s.proc p).state = false) (c : Fin ncpu) :
    (s.cpu c).proc ≠ some p ∧ (s.cpu c).thread ≠ some p := by
  have hproc : (s.cpu c).proc ≠ some p := by
    intro hc
    rcases (h.at_ c).proc hc with hr | ⟨hr, -⟩
    · exact hp hr
    · rw [hl] at hr
      cases hr
  refine ⟨hproc, fun hc => hproc ?_⟩
  obtain ⟨⟨i, he⟩, -⟩ := (h.at_ c).thread hc
  rw [he]

theorem Cpus.off_of_locked (h : Cpus s) (hlock : s.lock = some c) {q : Fin nproc} (hq : left (s.proc q).state = true)
    (hc : (s.cpu c).proc ≠ some q) (c' : Fin ncpu) : (s.cpu c').proc ≠ some q ∧ (s.cpu c').thread ≠ some q := by
  have hproc : (s.cpu c').proc ≠ some q := by
    intro hc'
    rcases (h.at_ c').proc hc' with hr | ⟨-, hl⟩
    · rw [hr] at hq
      cases hq
    · rw [hlock] at hl
      obtain rfl := Option.some.inj hl
      exact hc hc'
  refine ⟨hproc, fun ht => hproc ?_⟩
  obtain ⟨⟨i, he⟩, -⟩ := (h.at_ c').thread ht
  rw [he]

theorem Cpus.move (h : Cpus s) (hcpu : s'.cpu = s.cpu) (hthread : (s.cpu c).thread = some p) (hat : At s' c)
    (hlock : ∀ c', c' ≠ c → (s'.lock = some c' ↔ s.lock = some c'))
    (hother : ∀ q, q ≠ p → ∀ c', (s.cpu c').proc = some q → (s'.proc q).state = (s.proc q).state ∧
      s'.stage q = s.stage q)
    (hrunning : ∀ q, q ≠ p → (s'.proc q).state = .running → (s.proc q).state = .running)
    (hparked : ∀ q, q ≠ p → left (s'.proc q).state = true →
      (∃ k, s'.stage q = .parked k) ∨ ∃ c, (s.cpu c).thread = some q) : Cpus s' := by
  have hproc : (s.cpu c).proc = some p := by
    obtain ⟨⟨i, hc⟩, -⟩ := (h.at_ c).thread hthread
    rw [hc]
  refine ⟨fun c' => ?_, fun c₁ c₂ q => ?_, fun q hq => ?_, fun q hq => ?_⟩
  · rcases eq_or_ne c' c with rfl | hc
    · exact hat
    · refine (h.at_ c').frame (by rw [hcpu]) (hlock c' hc) fun q hq => hother q ?_ c' hq
      rintro rfl
      exact hc (h.inj _ _ _ hq hproc)
  · rw [hcpu]
    exact h.inj c₁ c₂ q
  · rw [hcpu]
    rcases eq_or_ne q p with rfl | hqp
    · exact ⟨c, hproc⟩
    · exact h.running q (hrunning q hqp hq)
  · rw [hcpu]
    rcases eq_or_ne q p with rfl | hqp
    · exact .inr ⟨c, hthread⟩
    · exact hparked q hqp hq

structure Calm (p : Fin nproc) (s s' : State ncpu nproc) : Prop where
  running : ∀ q, q ≠ p → ((s'.proc q).state = .running ↔ (s.proc q).state = .running)
  left : ∀ q, q ≠ p → left (s'.proc q).state = true → left (s.proc q).state = true ∨ ∃ k, s.stage q = .parked k
  stage : ∀ q, q ≠ p → s'.stage q = s.stage q

theorem Cpus.locked (h : Cpus s) (hcpu : s'.cpu = s.cpu) (hthread : (s.cpu c).thread = some p) (hl : s.lock = some c)
    (hl' : s'.lock = some c) (hcalm : Calm p s s')
    (hp : (s'.proc p).state = .running ∧ (s'.stage p).busy = true ∨
      Sched.left (s'.proc p).state = true ∧ ∃ k, s'.stage p = .sched k) : Cpus s' := by
  obtain ⟨⟨i, hc⟩, -⟩ := (h.at_ c).thread hthread
  refine h.move hcpu hthread ?_ (fun c' _ => by rw [hl, hl']) (fun q hq c' hc' => ?_)
    (fun q hq => (hcalm.running q hq).mp)
    fun q hq hleft => ?_
  · rcases hp with ⟨hr, hb⟩ | ⟨hr, k, hk⟩
    · exact .busy p i (by rw [hcpu, hc]) hl' hr hb
    · exact .leaving p i k (by rw [hcpu, hc]) hl' hr hk
  · have hne : c' ≠ c := by
      rintro rfl
      rw [hc] at hc'
      exact hq (Option.some.inj hc').symm
    have hun : s.lock ≠ some c' := by
      rw [hl]
      exact fun he => hne (Option.some.inj he).symm
    obtain ⟨hr, -⟩ := (h.at_ c').unlocked hun hc'
    exact ⟨((hcalm.running q hq).mpr hr).trans hr.symm, hcalm.stage q hq⟩
  · rcases hcalm.left q hq hleft with hold | ⟨k, hk⟩
    · exact (h.parked q hold).imp_left fun ⟨k, hk⟩ => ⟨k, (hcalm.stage q hq).trans hk⟩
    · exact .inl ⟨k, (hcalm.stage q hq).trans hk⟩

theorem Cpus.outside (h : Cpus s) (hcpu : s'.cpu = s.cpu) (hlock : s'.lock = s.lock)
    (hthread : (s.cpu c).thread = some p)
    (np : Fin nproc) (hnp : (s.proc np).state = .embryo) (hnp' : (s'.proc np).state = .embryo ∨
      (s'.proc np).state = .unused)
    (hother : ∀ q, q ≠ np → (s'.proc q).state = (s.proc q).state ∧ s'.stage q = s.stage q) : Cpus s' := by
  have hoff : ∀ c q, (s.cpu c).proc = some q → q ≠ np := by
    rintro c q hc rfl
    exact (h.off (by simp [hnp]) (by simp [hnp, left]) c).1 hc
  have hdead : (s'.proc np).state ≠ .running ∧ left (s'.proc np).state = false := by
    rcases hnp' with he | he <;> rw [he] <;> exact ⟨by simp, rfl⟩
  refine h.move hcpu hthread ?_ (fun c' _ => by rw [hlock]) (fun q _ c' hq => hother q (hoff c' q hq))
    (fun q _ hq => ?_)
    fun q _ hq => ?_
  · exact (h.at_ c).frame (by rw [hcpu]) (by rw [hlock]) fun q hq => hother q (hoff c q hq)
  · have hne : q ≠ np := by
      rintro rfl
      exact hdead.1 hq
    rw [← (hother q hne).1, hq]
  · have hne : q ≠ np := by
      rintro rfl
      rw [hdead.2] at hq
      cases hq
    rw [(hother q hne).1] at hq
    rw [(hother q hne).2]
    exact h.parked q hq

end Xv6.Sched
