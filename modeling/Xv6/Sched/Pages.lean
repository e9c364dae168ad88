import Xv6.Sched.Cpus

/-!
# Kernel stacks and page directories

A process owns its kernel stack from `allocproc` on and its page directory from `copyuvm` on, until it
is reaped. `wait` does not clear `p->pgdir`, so a free slot may hold the number of a page that is used
elsewhere.
-/

open Lib

namespace Xv6.Sched

open Procs (ProcState Ptable Exit)

variable {ncpu nproc : Nat} {s s' : State ncpu nproc} {c : Fin ncpu} {p np : Fin nproc}

inductive Kind where
  | unused | embryo | started
  deriving DecidableEq

/-- A process that is `started` has been made `RUNNABLE` and is not reaped. -/
def kind : ProcState → Kind
  | .unused => .unused
  | .embryo => .embryo
  | _ => .started

def Started (s : State ncpu nproc) (p : Fin nproc) : Prop := kind (s.proc p).state = .started

theorem kind_unused {st : ProcState} : kind st = .unused ↔ st = .unused := by
  rcases st <;> simp [kind]

theorem kind_embryo {st : ProcState} : kind st = .embryo ↔ st = .embryo := by
  rcases st <;> simp [kind]

theorem kind_left {st : ProcState} (h : left st = true) : kind st = .started := by
  rcases st <;> simp_all [left, kind]

namespace Pc

def child : Pc nproc → Option (Fin nproc)
  | allocated np | stacked np | copied np => some np
  | _ => none

def hasStack : Pc nproc → Option (Fin nproc)
  | stacked np | copied np => some np
  | _ => none

def hasDir : Pc nproc → Option (Fin nproc)
  | copied np => some np
  | _ => none

theorem hasStack_of_hasDir {pc : Pc nproc} (h : pc.hasDir = some np) : pc.hasStack = some np := by
  rcases pc with _ | _ | _ | np' | _ <;> simp_all [hasDir, hasStack]

theorem child_of_hasStack {pc : Pc nproc} (h : pc.hasStack = some np) : pc.child = some np := by
  rcases pc with _ | _ | np' | np' | _ <;> simp_all [hasStack, child]

end Pc

inductive Which where
  | stack | dir
  deriving DecidableEq

def HasStack (s : State ncpu nproc) (p : Fin nproc) : Prop := Started s p ∨ ∃ q, (s.pc q).hasStack = some p

def HasDir (s : State ncpu nproc) (p : Fin nproc) : Prop := Started s p ∨ ∃ q, (s.pc q).hasDir = some p

def Owns (s : State ncpu nproc) (p : Fin nproc) (pg : Page) : Which → Prop
  | .stack => s.kstack p = some pg
  | .dir => HasDir s p ∧ s.pgdir p = some pg

structure Pages (s : State ncpu nproc) : Prop where
  child : ∀ q np, (s.pc q).child = some np → (s.proc np).state = .embryo
  unique : ∀ q q' np, (s.pc q).child = some np → (s.pc q').child = some np → q = q'
  parked : ∀ q np, (s.pc q).hasStack = some np → ∃ k, s.stage np = .parked k
  stack : ∀ p, HasStack s p → ∃ k, s.kstack p = some k
  dir : ∀ p, HasDir s p → ∃ d, s.pgdir p = some d
  unused : ∀ p, (s.proc p).state = .unused → s.kstack p = none
  used : ∀ p pg w, Owns s p pg w → s.used pg = true
  inj : ∀ p p' pg w w', Owns s p pg w → Owns s p' pg w' → p = p' ∧ w = w'
  init : ∀ how, s.pc s.initproc ≠ .exit how
  task : ∀ p t, s.stage p = .locked t → Started s p →
    (∀ np, t = .run np → s.pc p = .copied np) ∧ ∀ how, t = .exit how → s.pc p = .exit how

theorem init_pages (h : Init s) : Pages s := by
  have hstarted : ∀ p, Started s p → p = s.initproc := by
    intro p hp
    refine of_not_not fun hne => ?_
    rw [Started, (h.rest p hne).1] at hp
    cases hp
  obtain ⟨k, d, hk, hd, hne, huk, hud⟩ := h.pages
  have hdir : ∀ p, HasDir s p → p = s.initproc := by
    rintro p (hp | ⟨q, hq⟩)
    · exact hstarted p hp
    · rw [h.pc] at hq
      cases hq
  have howns : ∀ p pg w, Owns s p pg w → p = s.initproc ∧ (w = .stack ∧ pg = k ∨ w = .dir ∧ pg = d) := by
    rintro p pg (_ | _) ho
    · rcases eq_or_ne p s.initproc with rfl | hp
      · exact ⟨rfl, .inl ⟨rfl, Option.some.inj (ho.symm.trans hk)⟩⟩
      · rw [Owns, (h.rest p hp).2] at ho
        cases ho
    · obtain rfl := hdir p ho.1
      exact ⟨rfl, .inr ⟨rfl, Option.some.inj (ho.2.symm.trans hd)⟩⟩
  refine ⟨fun q np hq => ?_, fun q q' np hq => ?_, fun q np hq => ?_, fun p hp => ?_, fun p hp => ?_, fun p hp => ?_,
    fun p pg w ho => ?_, fun p p' pg w w' ho ho' => ?_, fun how => ?_, fun p t ht hp => ?_⟩
  · rw [h.pc] at hq
    cases hq
  · rw [h.pc] at hq
    cases hq
  · rw [h.pc] at hq
    cases hq
  · rcases hp with hp | ⟨q, hq⟩
    · rw [hstarted p hp]
      exact ⟨k, hk⟩
    · rw [h.pc] at hq
      cases hq
  · rw [hdir p hp]
    exact ⟨d, hd⟩
  · refine (h.rest p ?_).2
    rintro rfl
    rw [h.init.1] at hp
    cases hp
  · rcases howns p pg w ho with ⟨-, ⟨-, rfl⟩ | ⟨-, rfl⟩⟩
    · exact huk
    · exact hud
  · obtain ⟨rfl, hw⟩ := howns p pg w ho
    obtain ⟨rfl, hw'⟩ := howns p' pg w' ho'
    rcases hw with ⟨rfl, rfl⟩ | ⟨rfl, rfl⟩ <;> rcases hw' with ⟨rfl, he⟩ | ⟨rfl, he⟩
    · exact ⟨rfl, rfl⟩
    · exact absurd he hne
    · exact absurd he.symm hne
    · exact ⟨rfl, rfl⟩
  · rw [h.pc]
    simp
  · rw [hstarted p hp, h.init.2] at ht
    cases ht

theorem Pages.only (h : Pages s) (hp : (s.pc p).child = some np) {q : Fin nproc} (hq : q ≠ p) :
    (s.pc q).child ≠ some np :=
  fun hc => hq (h.unique q p np hc hp)

theorem Pages.keep (h : Pages s) (hkstack : s'.kstack = s.kstack) (hpgdir : s'.pgdir = s.pgdir)
    (hused : s'.used = s.used)
    (hpc : s'.pc = s.pc) (hinit : s'.initproc = s.initproc)
    (hkind : ∀ q, kind (s'.proc q).state = kind (s.proc q).state)
    (hstage : ∀ q, (s.proc q).state = .embryo → s'.stage q = s.stage q)
    (htask : ∀ p t, s'.stage p = .locked t → s.stage p = .locked t ∨
      (∀ np, t = .run np → s.pc p = .copied np) ∧ ∀ how, t = .exit how → s.pc p = .exit how) : Pages s' := by
  have hstarted : ∀ p, Started s' p ↔ Started s p := fun p => by rw [Started, hkind, Started]
  have hdir : ∀ p, HasDir s' p ↔ HasDir s p := fun p => by rw [HasDir, hstarted, hpc, HasDir]
  have howns : ∀ p pg w, Owns s' p pg w ↔ Owns s p pg w := by
    rintro p pg (_ | _)
    · rw [Owns, hkstack, Owns]
    · rw [Owns, hdir, hpgdir, Owns]
  have hembryo : ∀ q, (s'.proc q).state = .embryo ↔ (s.proc q).state = .embryo := fun q => by
    rw [← kind_embryo, hkind, kind_embryo]
  refine ⟨fun q np hq => ?_, fun q q' np => ?_, fun q np hq => ?_, fun p hp => ?_, fun p hp => ?_, fun p hp => ?_,
    fun p pg w ho => ?_, fun p p' pg w w' ho ho' => ?_, fun how => ?_, fun p t ht hp => ?_⟩
  · rw [hembryo]
    exact h.child q np (hpc ▸ hq)
  · rw [hpc]
    exact h.unique q q' np
  · rw [hpc] at hq
    rw [hstage np (h.child q np (Pc.child_of_hasStack hq))]
    exact h.parked q np hq
  · rw [hkstack]
    exact h.stack p (by rwa [HasStack, hstarted, hpc] at hp)
  · rw [hpgdir]
    exact h.dir p ((hdir p).mp hp)
  · rw [hkstack]
    refine h.unused p ?_
    rwa [← kind_unused, hkind, kind_unused] at hp
  · rw [hused]
    exact h.used p pg w ((howns p pg w).mp ho)
  · exact h.inj p p' pg w w' ((howns p pg w).mp ho) ((howns p' pg w').mp ho')
  · rw [hpc, hinit]
    exact h.init how
  · rw [hpc]
    rcases htask p t ht with ht | ht
    · exact h.task p t ht ((hstarted p).mp hp)
    · exact ht

structure OneSlot (p np : Fin nproc) (s s' : State ncpu nproc) : Prop where
  state : ∀ q, q ≠ np → (s'.proc q).state = (s.proc q).state
  kstack : ∀ q, q ≠ np → s'.kstack q = s.kstack q
  pgdir : ∀ q, q ≠ np → s'.pgdir q = s.pgdir q
  stage : ∀ q, q ≠ np → (s.proc q).state = .embryo → s'.stage q = s.stage q
  pc : ∀ q x, x ≠ np → (s'.pc q).child = some x → s'.pc q = s.pc q
  only : ∀ q, (s'.pc q).child = some np → q = p
  init : s'.initproc = s.initproc
  exit : ∀ how, s'.pc s.initproc = .exit how → s.pc s.initproc = .exit how
  task : ∀ q t, s'.stage q = .locked t → Started s' q → s.stage q = .locked t ∧ Started s q ∧ s'.pc q = s.pc q

namespace OneSlot

variable {q : Fin nproc}

theorem started (h : OneSlot p np s s') (hq : q ≠ np) : Started s' q ↔ Started s q := by
  rw [Started, h.state q hq, Started]

theorem hasStack (h : OneSlot p np s s') (hq : q ≠ np) (hs : HasStack s' q) : HasStack s q := by
  rcases hs with hs | ⟨r, hr⟩
  · exact .inl ((h.started hq).mp hs)
  · exact .inr ⟨r, by rwa [← h.pc r q hq (Pc.child_of_hasStack hr)]⟩

theorem hasDir (h : OneSlot p np s s') (hq : q ≠ np) (hs : HasDir s' q) : HasDir s q := by
  rcases hs with hs | ⟨r, hr⟩
  · exact .inl ((h.started hq).mp hs)
  · exact .inr ⟨r, by rwa [← h.pc r q hq (Pc.child_of_hasStack (Pc.hasStack_of_hasDir hr))]⟩

theorem owns (h : OneSlot p np s s') (hq : q ≠ np) {pg : Page} {w : Which} (ho : Owns s' q pg w) : Owns s q pg w := by
  rcases w with _ | _
  · rwa [Owns, h.kstack q hq] at ho
  · rw [Owns, h.pgdir q hq] at ho
    exact ⟨h.hasDir hq ho.1, ho.2⟩

end OneSlot

theorem oneSlot_of (hpn : p ≠ np) (hstarted : Started s p) (hstate : ∀ q, q ≠ np → (s'.proc q).state = (s.proc q).state)
    (hkstack : ∀ q, q ≠ np → s'.kstack q = s.kstack q) (hpgdir : ∀ q, q ≠ np → s'.pgdir q = s.pgdir q)
    (hinit : s'.initproc = s.initproc) (hstage : ∀ q, q ≠ p → q ≠ np → s'.stage q = s.stage q)
    (hstagep : ∀ t, s'.stage p ≠ .locked t) (hstagen : ∀ t, s'.stage np = .locked t → ¬ Started s' np)
    (hpc : ∀ q, q ≠ p → s'.pc q = s.pc q ∨ q = np ∧ s'.pc q = .idle) (hfree : ∀ q, q ≠ p → (s.pc q).child ≠ some np)
    (hpcp : s'.pc p = s.pc p ∧ (s.pc p).child ≠ some np ∨ s'.pc p = .idle ∨ (s'.pc p).child = some np) :
    OneSlot p np s s' := by
  refine ⟨hstate, hkstack, hpgdir, fun q hqn hq => hstage q ?_ hqn, fun q x hx hq => ?_, fun q hq => ?_, hinit,
    fun how hq => ?_, fun q t ht hq => ?_⟩
  · rintro rfl
    rw [Started, hq] at hstarted
    cases hstarted
  · rcases eq_or_ne q p with rfl | hqp
    · rcases hpcp with ⟨he, -⟩ | he | he
      · exact he
      · rw [he] at hq
        cases hq
      · exact absurd (Option.some.inj (hq.symm.trans he)) hx
    · rcases hpc q hqp with he | ⟨-, he⟩
      · exact he
      · rw [he] at hq
        cases hq
  · refine of_not_not fun hqp => ?_
    rcases hpc q hqp with he | ⟨-, he⟩ <;> rw [he] at hq
    · exact hfree q hqp hq
    · cases hq
  · rcases eq_or_ne s.initproc p with hip | hip
    · rw [hip] at hq ⊢
      rcases hpcp with ⟨he, -⟩ | he | he
      · rwa [he] at hq
      · rw [he] at hq
        cases hq
      · rw [hq] at he
        cases he
    · rcases hpc _ hip with he | ⟨-, he⟩ <;> rw [he] at hq
      · exact hq
      · cases hq
  · have hqp : q ≠ p := by
      rintro rfl
      exact hstagep t ht
    have hqn : q ≠ np := by
      rintro rfl
      exact hstagen t ht hq
    rw [hstage q hqp hqn] at ht
    rw [Started, hstate q hqn] at hq
    refine ⟨ht, hq, (hpc q hqp).resolve_right fun he => hqn he.1⟩

theorem Pages.slot (h : Pages s) (ho : OneSlot p np s s')
    (hembryo : (s'.pc p).child = some np → (s'.proc np).state = .embryo)
    (hparked : (s'.pc p).hasStack = some np → ∃ k, s'.stage np = .parked k)
    (hstack : HasStack s' np → ∃ k, s'.kstack np = some k) (hdir : HasDir s' np → ∃ d, s'.pgdir np = some d)
    (hunused : (s'.proc np).state = .unused → s'.kstack np = none)
    (hold : ∀ q, q ≠ np → ∀ pg w, Owns s q pg w → s'.used pg = true)
    (hnew : ∀ pg w, Owns s' np pg w → s'.used pg = true ∧ ∀ q, q ≠ np → ∀ w', ¬ Owns s q pg w')
    (hboth : ∀ pg, Owns s' np pg .stack → ¬ Owns s' np pg .dir) : Pages s' := by
  refine ⟨fun q x hq => ?_, fun q q' x hq hq' => ?_, fun q x hq => ?_, fun q hq => ?_, fun q hq => ?_, fun q hq => ?_,
    fun q pg w hw => ?_, fun q q' pg w w' hw hw' => ?_, fun how hq => ?_, fun q t ht hq => ?_⟩
  · rcases eq_or_ne x np with rfl | hx
    · exact hembryo (ho.only q hq ▸ hq)
    · rw [ho.state x hx]
      exact h.child q x (ho.pc q x hx hq ▸ hq)
  · rcases eq_or_ne x np with rfl | hx
    · rw [ho.only q hq, ho.only q' hq']
    · exact h.unique q q' x (ho.pc q x hx hq ▸ hq) (ho.pc q' x hx hq' ▸ hq')
  · have hc := Pc.child_of_hasStack hq
    rcases eq_or_ne x np with rfl | hx
    · exact hparked (ho.only q hc ▸ hq)
    · rw [ho.pc q x hx hc] at hq hc
      rw [ho.stage x hx (h.child q x hc)]
      exact h.parked q x hq
  · rcases eq_or_ne q np with rfl | hqn
    · exact hstack hq
    · rw [ho.kstack q hqn]
      exact h.stack q (ho.hasStack hqn hq)
  · rcases eq_or_ne q np with rfl | hqn
    · exact hdir hq
    · rw [ho.pgdir q hqn]
      exact h.dir q (ho.hasDir hqn hq)
  · rcases eq_or_ne q np with rfl | hqn
    · exact hunused hq
    · rw [ho.kstack q hqn]
      exact h.unused q (ho.state q hqn ▸ hq)
  · rcases eq_or_ne q np with rfl | hqn
    · exact (hnew pg w hw).1
    · exact hold q hqn pg w (ho.owns hqn hw)
  · rcases eq_or_ne q np with hqn | hqn <;> rcases eq_or_ne q' np with hqn' | hqn'
    · subst hqn hqn'
      refine ⟨rfl, ?_⟩
      rcases w with _ | _ <;> rcases w' with _ | _
      · rfl
      · exact absurd hw' (hboth pg hw)
      · exact absurd hw (hboth pg hw')
      · rfl
    · subst hqn
      exact absurd (ho.owns hqn' hw') ((hnew pg w hw).2 q' hqn' w')
    · subst hqn'
      exact absurd (ho.owns hqn hw) ((hnew pg w' hw').2 q hqn w)
    · exact h.inj q q' pg w w' (ho.owns hqn hw) (ho.owns hqn' hw')
  · rw [ho.init] at hq
    exact h.init how (ho.exit how hq)
  · obtain ⟨ht, hq, hpc⟩ := ho.task q t ht hq
    rw [hpc]
    exact h.task q t ht hq

theorem Pages.not_owns (h : Pages s) {pg : Page} {w : Which} (hw : Owns s np pg w) (q : Fin nproc) (hq : q ≠ np)
    (w' : Which) :
    ¬ Owns s q pg w' := fun hw' => hq (h.inj q np pg w' w hw' hw).1

theorem Pages.fresh (h : Pages s) {pg : Page} (hpg : s.used pg = false) (q : Fin nproc) (w : Which) :
    ¬ Owns s q pg w := by
  intro hw
  rw [h.used q pg w hw] at hpg
  cases hpg

end Xv6.Sched
