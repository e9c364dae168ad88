import Mathlib
import Xv6.Proc.Code

/-!
# The tree of processes

Each process other than init has a parent that is alive, a process inside `fork` has its new slot to
itself, and a process sleeping in `wait` has no child to reap.
-/

open Lib Function

namespace Xv6.Procs

variable {nproc : Nat} {t : Ptable nproc} {s s' : State nproc} {p : Fin nproc}

def ProcState.live : ProcState → Bool
  | .sleeping | .runnable | .running => true
  | _ => false

namespace Ptable

theorem set_apply (t : Ptable nproc) (p : Fin nproc) (f : Proc nproc → Proc nproc) (q : Fin nproc) :
    t.set p f q = if q = p then f (t p) else t q := by
  unfold set
  rw [update_apply]

@[simp]
theorem set_self (t : Ptable nproc) (p : Fin nproc) (f : Proc nproc → Proc nproc) : t.set p f p = f (t p) := by
  rw [set_apply, if_pos rfl]

theorem set_ne (t : Ptable nproc) (p : Fin nproc) (f : Proc nproc → Proc nproc) {q : Fin nproc} (h : q ≠ p) :
    t.set p f q = t q := by
  rw [set_apply, if_neg h]

@[simp]
theorem set_id (t : Ptable nproc) (p : Fin nproc) : t.set p (fun v => v) = t := update_eq_self p t

/-- Sleepers may have been woken, and children of `curproc` among `l` belong to init. -/
structure Adopted (initproc curproc : Fin nproc) (l : List (Fin nproc)) (t t' : Ptable nproc) : Prop where
  same : ∀ q, (t' q).pid = (t q).pid ∧ (t' q).chan = (t q).chan ∧ (t' q).killed = (t q).killed ∧
    (t' q).exit_status = (t q).exit_status
  parent : ∀ q, (t' q).parent = if q ∈ l ∧ (t q).parent = some curproc then some initproc else (t q).parent
  state : ∀ q, (t' q).state = (t q).state ∨ (t q).state = .sleeping ∧ (t' q).state = .runnable
  wakes : (∃ c ∈ l, (t c).parent = some curproc ∧ (t c).state = .zombie) →
    ∀ q, (t' q).state = .sleeping → (t' q).chan ≠ some (.proc initproc)

theorem wakeup1_state (chan : Chan nproc) (t : Ptable nproc) (q : Fin nproc) :
    (t.wakeup1 chan q).state = (t q).state ∨ (t q).state = .sleeping ∧ (t.wakeup1 chan q).state = .runnable := by
  unfold wakeup1
  split_ifs with h
  · exact .inr ⟨h.1, rfl⟩
  · exact .inl rfl

theorem wakeup1_same (chan : Chan nproc) (t : Ptable nproc) (q : Fin nproc) :
    (t.wakeup1 chan q).pid = (t q).pid ∧ (t.wakeup1 chan q).chan = (t q).chan ∧
      (t.wakeup1 chan q).killed = (t q).killed ∧ (t.wakeup1 chan q).exit_status = (t q).exit_status ∧
      (t.wakeup1 chan q).parent = (t q).parent := by
  unfold wakeup1
  split_ifs <;> exact ⟨rfl, rfl, rfl, rfl, rfl⟩

theorem wakeup1_wakes (chan : Chan nproc) (t : Ptable nproc) (q : Fin nproc)
    (h : (t.wakeup1 chan q).state = .sleeping) : (t.wakeup1 chan q).chan ≠ some chan := by
  unfold wakeup1 at h ⊢
  split_ifs at h ⊢ with hs
  intro hc
  exact hs ⟨h, hc⟩

theorem adopt_adopted (initproc curproc p : Fin nproc) (t : Ptable nproc) :
    Adopted initproc curproc [p] t (adopt initproc curproc t p) := by
  unfold adopt
  split_ifs with hchild
  · dsimp only
    have hset := set_apply t p fun v => { v with parent := some initproc }
    generalize ht : t.set p (fun v => { v with parent := some initproc }) = t₁ at hset
    have hsame : ∀ q, (t₁ q).pid = (t q).pid ∧ (t₁ q).chan = (t q).chan ∧ (t₁ q).killed = (t q).killed ∧
        (t₁ q).exit_status = (t q).exit_status ∧ (t₁ q).state = (t q).state := by
      intro q
      rw [hset]
      split_ifs with hq
      · rw [hq]
        exact ⟨rfl, rfl, rfl, rfl, rfl⟩
      · exact ⟨rfl, rfl, rfl, rfl, rfl⟩
    have hparent : ∀ q, (t₁ q).parent = if q ∈ [p] ∧ (t q).parent = some curproc then some initproc
      else (t q).parent := by
      intro q
      rw [hset]
      split_ifs with h1 h2 h2
      · rfl
      · simp_all
      · simp_all
      · rfl
    split_ifs with hz
    · refine ⟨fun q => ?_, fun q => ?_, fun q => ?_, fun _ q hq => wakeup1_wakes _ t₁ q hq⟩
      · obtain ⟨h1, h2, h3, h4, -⟩ := wakeup1_same (.proc initproc) t₁ q
        obtain ⟨g1, g2, g3, g4, -⟩ := hsame q
        exact ⟨h1.trans g1, h2.trans g2, h3.trans g3, h4.trans g4⟩
      · rw [(wakeup1_same (.proc initproc) t₁ q).2.2.2.2, hparent]
      · rw [← (hsame q).2.2.2.2]
        exact wakeup1_state _ t₁ q
    · refine ⟨fun q => ⟨(hsame q).1, (hsame q).2.1, (hsame q).2.2.1, (hsame q).2.2.2.1⟩, hparent,
        fun q => .inl (hsame q).2.2.2.2, ?_⟩
      rintro ⟨c, hc, -, hz'⟩
      rw [List.mem_singleton.mp hc, ← (hsame p).2.2.2.2] at hz'
      exact absurd hz' hz
  · refine ⟨fun _ => ⟨rfl, rfl, rfl, rfl⟩, fun q => ?_, fun _ => .inl rfl, ?_⟩
    · rw [if_neg]
      rintro ⟨hq, hp⟩
      rw [List.mem_singleton.mp hq] at hp
      exact hchild hp
    · rintro ⟨c, hc, hp, -⟩
      rw [List.mem_singleton.mp hc] at hp
      exact absurd hp hchild

theorem Adopted.state_ne {initproc curproc : Fin nproc} {l : List (Fin nproc)} {t t' : Ptable nproc}
    (h : Adopted initproc curproc l t t') (q : Fin nproc) (st : ProcState) (h1 : st ≠ .sleeping) (h2 : st ≠ .runnable) :
    (t' q).state = st ↔ (t q).state = st := by
  rcases h.state q with hq | ⟨hq, hq'⟩
  · rw [hq]
  · rw [hq, hq']
    exact ⟨fun he => absurd he.symm h2, fun he => absurd he.symm h1⟩

theorem foldl_adopted (initproc curproc : Fin nproc) (hne : initproc ≠ curproc) (l : List (Fin nproc))
    (t : Ptable nproc) :
    Adopted initproc curproc l t (l.foldl (adopt initproc curproc) t) := by
  induction l generalizing t with
  | nil => exact ⟨fun _ => ⟨rfl, rfl, rfl, rfl⟩, fun q => by simp, fun _ => .inl rfl, by simp⟩
  | cons p l ih =>
    rw [List.foldl_cons]
    have h1 := adopt_adopted initproc curproc p t
    generalize adopt initproc curproc t p = t₁ at h1
    have h2 := ih t₁
    refine ⟨fun q => ?_, fun q => ?_, fun q => ?_, ?_⟩
    · obtain ⟨a1, a2, a3, a4⟩ := h1.same q
      obtain ⟨b1, b2, b3, b4⟩ := h2.same q
      exact ⟨b1.trans a1, b2.trans a2, b3.trans a3, b4.trans a4⟩
    · rw [h2.parent, h1.parent]
      rcases eq_or_ne q p with rfl | hq
      · rcases eq_or_ne (t q).parent (some curproc) with hc | hc <;> simp [hc, hne]
      · simp [hq]
    · rcases h2.state q with hq | ⟨hq, hq'⟩
      · rw [hq]
        exact h1.state q
      · rcases h1.state q with hq1 | ⟨-, hq1⟩
        · exact .inr ⟨hq1 ▸ hq, hq'⟩
        · rw [hq] at hq1
          simp at hq1
    · rintro ⟨c, hc, hparent, hz⟩ q hq
      rcases eq_or_ne c p with rfl | hcp
      · -- Init has been woken in this turn, and no later turn puts a process to sleep.
        have hstill : (t₁ q).state = .sleeping := by
          rcases h2.state q with h | ⟨h, h'⟩
          · rw [← h]
            exact hq
          · exact h
        rw [(h2.same q).2.1]
        exact h1.wakes ⟨c, List.mem_singleton_self c, hparent, hz⟩ q hstill
      · refine h2.wakes ⟨c, List.mem_of_ne_of_mem hcp hc, ?_, ?_⟩ q hq
        · rw [h1.parent, if_neg (by simp [hcp]), hparent]
        · exact (h1.state_ne c .zombie (by simp) (by simp)).mpr hz

theorem exit_state (initproc curproc : Fin nproc) (hne : initproc ≠ curproc) (status : Int) (t : Ptable nproc)
    (q : Fin nproc) (hq : q ≠ curproc) : (t.exit initproc curproc status q).state = (t q).state ∨
      (t q).state = .sleeping ∧ (t.exit initproc curproc status q).state = .runnable := by
  unfold exit
  rw [set_ne _ _ _ hq]
  have hwake : ∀ o : Option (Fin nproc), (t.wakeupParent o q).state = (t q).state ∨
      (t q).state = .sleeping ∧ (t.wakeupParent o q).state = .runnable := by
    rintro (_ | r)
    · exact .inl rfl
    · exact wakeup1_state _ t q
  have hloop := (foldl_adopted initproc curproc hne (List.finRange nproc) (t.wakeupParent (t curproc).parent)).state q
  rcases hloop with he | ⟨hs, hr⟩ <;> rcases hwake (t curproc).parent with he' | ⟨hs', hr'⟩
  · exact .inl (he.trans he')
  · exact .inr ⟨hs', he.trans hr'⟩
  · exact .inr ⟨he' ▸ hs, hr⟩
  · exact .inr ⟨hs', hr⟩

/-- What `exit` does to the table, when `curproc` is neither init nor its own child. -/
structure Exited (initproc curproc : Fin nproc) (status : Int) (t t' : Ptable nproc) : Prop where
  self : t' curproc = { t curproc with state := .zombie, exit_status := status }
  same : ∀ q, q ≠ curproc → (t' q).pid = (t q).pid ∧ (t' q).chan = (t q).chan ∧ (t' q).killed = (t q).killed ∧
    (t' q).exit_status = (t q).exit_status
  parent : ∀ q, q ≠ curproc → (t' q).parent = if (t q).parent = some curproc then some initproc else (t q).parent
  state : ∀ q, q ≠ curproc → (t' q).state = (t q).state ∨ (t q).state = .sleeping ∧ (t' q).state = .runnable
  wakesParent : ∀ q, (t' q).state = .sleeping → ∀ r, (t curproc).parent = some r → (t' q).chan ≠ some (.proc r)
  wakesInit : (∃ c, (t c).parent = some curproc ∧ (t c).state = .zombie) →
    ∀ q, (t' q).state = .sleeping → (t' q).chan ≠ some (.proc initproc)

theorem exit_exited (initproc curproc : Fin nproc) (hne : initproc ≠ curproc) (status : Int) (t : Ptable nproc)
    (hself : (t curproc).parent ≠ some curproc) :
    Exited initproc curproc status t (t.exit initproc curproc status) := by
  unfold exit
  dsimp only
  have hwake : ∃ t₁, t.wakeupParent (t curproc).parent = t₁ ∧
      (∀ q, (t₁ q).pid = (t q).pid ∧ (t₁ q).chan = (t q).chan ∧ (t₁ q).killed = (t q).killed ∧
        (t₁ q).exit_status = (t q).exit_status ∧ (t₁ q).parent = (t q).parent) ∧
      (∀ q, (t₁ q).state = (t q).state ∨ (t q).state = .sleeping ∧ (t₁ q).state = .runnable) ∧
      ∀ q r, (t₁ q).state = .sleeping → (t curproc).parent = some r → (t₁ q).chan ≠ some (.proc r) := by
    rcases hp : (t curproc).parent with _ | r
    · exact ⟨t, rfl, fun _ => ⟨rfl, rfl, rfl, rfl, rfl⟩, fun _ => .inl rfl, by simp⟩
    · refine ⟨_, rfl, wakeup1_same _ t, wakeup1_state _ t, ?_⟩
      rintro q r' hq ⟨⟩
      exact wakeup1_wakes _ t q hq
  obtain ⟨t₁, he, hsame, hstate, hwoken⟩ := hwake
  rw [he]
  have hloop := foldl_adopted initproc curproc hne (List.finRange nproc) t₁
  generalize (List.finRange nproc).foldl (adopt initproc curproc) t₁ = t₂ at hloop
  have hmove : ∀ q, (t₂ q).state = (t q).state ∨ (t q).state = .sleeping ∧ (t₂ q).state = .runnable := by
    intro q
    rcases hloop.state q with h2 | ⟨h2, h2'⟩ <;> rcases hstate q with h1 | ⟨h1, h1'⟩
    · exact .inl (h2.trans h1)
    · exact .inr ⟨h1, h2.trans h1'⟩
    · exact .inr ⟨h1 ▸ h2, h2'⟩
    · rw [h2] at h1'
      simp at h1'
  have hasleep : ∀ q, (t₂.set curproc (fun v => { v with state := .zombie, exit_status := status }) q).state =
    .sleeping →
      q ≠ curproc ∧ (t₂ q).state = .sleeping := by
    intro q hq
    rw [set_apply] at hq
    split_ifs at hq with h
    exact ⟨h, hq⟩
  refine ⟨?_, fun q hq => ?_, fun q hq => ?_, fun q hq => ?_, fun q hq r hr => ?_, ?_⟩
  · obtain ⟨h1, h2, h3, h4⟩ := hloop.same curproc
    obtain ⟨g1, g2, g3, g4, g5⟩ := hsame curproc
    have hparent := hloop.parent curproc
    rw [g5, if_neg (fun h => hself h.2)] at hparent
    rw [set_self, h1, h2, h3, hparent, g1, g2, g3]
  · obtain ⟨h1, h2, h3, h4⟩ := hloop.same q
    obtain ⟨g1, g2, g3, g4, -⟩ := hsame q
    rw [set_ne _ _ _ hq]
    exact ⟨h1.trans g1, h2.trans g2, h3.trans g3, h4.trans g4⟩
  · rw [set_ne _ _ _ hq, hloop.parent, (hsame q).2.2.2.2]
    simp
  · rw [set_ne _ _ _ hq]
    exact hmove q
  · obtain ⟨hne', hq⟩ := hasleep q hq
    rw [set_ne _ _ _ hne', (hloop.same q).2.1]
    refine hwoken q r ?_ hr
    rcases hloop.state q with h | ⟨h, -⟩
    · exact h ▸ hq
    · exact h
  · rintro ⟨c, hc, hz⟩ q hq
    obtain ⟨hne', hq⟩ := hasleep q hq
    rw [set_ne _ _ _ hne']
    refine hloop.wakes ⟨c, List.mem_finRange c, by rw [(hsame c).2.2.2.2, hc], ?_⟩ q hq
    rcases hstate c with h | ⟨h, -⟩
    · rw [h, hz]
    · rw [hz] at h
      simp at h

theorem zombieChild_some {q : Fin nproc} (h : t.zombieChild p = some q) :
    (t q).parent = some p ∧ (t q).state = .zombie := by
  have := List.find?_some h
  simpa using this

theorem zombieChild_none (h : t.zombieChild p = none) (q : Fin nproc) (hq : (t q).parent = some p) :
    (t q).state ≠ .zombie := by
  have := List.find?_eq_none.mp h q (List.mem_finRange q)
  simp only [decide_eq_true_eq, not_and] at this
  exact this hq

end Ptable

/-- Events that say nothing about births and deaths. -/
def Event.neutral : Event nproc → Bool
  | .waitFailed _ | .killed _ _ _ | .faulted _ => true
  | _ => false

/-- The event of a call that fails, a kill or a fault. -/
inductive Mild (s : State nproc) : Act nproc → Event nproc → Prop where
  | waitFailed (a : Act nproc) (w : Id nproc) : Mild s a (.waitFailed w)
  | killed (pid : Int) (q : Fin nproc) (hq : s.proc.withPid pid = some q) :
    Mild s (.kill pid) (.killed pid (s.id q) ((s.proc q).state ≠ .unused))
  | faulted (q : Fin nproc) (hq : (s.proc q).state.live = true) : Mild s (.fault q) (.faulted (s.id q))

theorem Mild.neutral {a : Act nproc} {e : Event nproc} (h : Mild s a e) : e.neutral = true := by
  rcases h with _ | _ | _ <;> rfl

/-- Live processes move between their states, and flags are set. -/
structure Stir (s : State nproc) (a : Act nproc) (s' : State nproc) : Prop where
  initproc : s'.initproc = s.initproc
  life : s'.life = s.life
  log : s'.log = s.log ∨ ∃ e, Mild s a e ∧ s'.log = e :: s.log
  same : ∀ q, (s'.proc q).pid = (s.proc q).pid ∧ (s'.proc q).parent = (s.proc q).parent ∧
    (s'.proc q).exit_status = (s.proc q).exit_status
  state : ∀ q, (s'.proc q).state = (s.proc q).state ∨ (s.proc q).state.live = true ∧ (s'.proc q).state.live = true
  asleep : ∀ q, (s'.proc q).state = .sleeping → (s'.proc q).chan = some (.proc q) →
    (s.proc q).state = .sleeping ∧ (s.proc q).chan = some (.proc q) ∨ s.proc.zombieChild q = none
  fork : ∀ q np c, s'.pc q = .fork np c → s.pc q = .fork np c
  exit : ∀ q how, s'.pc q = .exit how → s.pc q = .exit how ∨ q ≠ s.initproc
  killed : ∀ q, (s'.proc q).killed = true → (s.proc q).killed = true ∨
    (∃ pid, s.proc.withPid pid = some q ∧ s'.log = .killed pid (s.id q) ((s.proc q).state ≠ .unused) :: s.log) ∨
    s'.log = .faulted (s.id q) :: s.log

theorem Stir.refl (a : Act nproc) : Stir s a s :=
  ⟨rfl, rfl, .inl rfl, fun _ => ⟨rfl, rfl, rfl⟩, fun _ => .inl rfl, fun _ h1 h2 => .inl ⟨h1, h2⟩, fun _ _ _ h => h,
    fun _ _ h => .inl h, fun _ h => .inl h⟩

theorem Stir.one {a : Act nproc} (p : Fin nproc) (f : Proc nproc → Proc nproc) (pc : Pc nproc)
    (log : List (Event nproc)) (hlog : log = s.log ∨ ∃ e, Mild s a e ∧ log = e :: s.log)
    (hsame : (f (s.proc p)).pid = (s.proc p).pid ∧ (f (s.proc p)).parent = (s.proc p).parent ∧
      (f (s.proc p)).exit_status = (s.proc p).exit_status)
    (hstate : (f (s.proc p)).state = (s.proc p).state ∨ (s.proc p).state.live = true ∧ (f (s.proc p)).state.live = true)
    (hasleep : (f (s.proc p)).state = .sleeping → (f (s.proc p)).chan = some (.proc p) →
      (s.proc p).state = .sleeping ∧ (s.proc p).chan = some (.proc p) ∨ s.proc.zombieChild p = none)
    (hfork : ∀ np c, pc = .fork np c → s.pc p = .fork np c)
    (hexit : ∀ how, pc = .exit how → s.pc p = .exit how ∨ p ≠ s.initproc)
    (hkilled : (f (s.proc p)).killed = true → (s.proc p).killed = true ∨
      (∃ pid, s.proc.withPid pid = some p ∧ log = .killed pid (s.id p) ((s.proc p).state ≠ .unused) :: s.log) ∨
      log = .faulted (s.id p) :: s.log) :
    Stir s a { s with proc := s.proc.set p f, pc := update s.pc p pc, log := log } := by
  refine ⟨rfl, rfl, hlog, fun q => ?_, fun q => ?_, fun q => ?_, fun q np c => ?_, fun q how => ?_, fun q => ?_⟩
  all_goals dsimp only
  all_goals first | rw [Ptable.set_apply] | rw [update_apply]
  all_goals split_ifs with hq
  · exact hq ▸ hsame
  · exact ⟨rfl, rfl, rfl⟩
  · exact hq ▸ hstate
  · exact .inl rfl
  · subst hq
    exact hasleep
  · exact fun h1 h2 => .inl ⟨h1, h2⟩
  · subst hq
    exact hfork np c
  · exact fun h => h
  · subst hq
    exact hexit how
  · exact fun h => .inl h
  · subst hq
    exact hkilled
  · exact fun h => .inl h

inductive Prim (s : State nproc) : Act nproc → State nproc → Prop where
  | stir (a : Act nproc) (s' : State nproc) (h : Stir s a s') : Prim s a s'
  | alloc (p np : Fin nproc) (hp : (s.proc p).state.live = true) (hnp : (s.proc np).state = .unused) :
    Prim s (.fork p) { s with
      proc := s.proc.set np fun v => { v with state := .embryo, pid := s.nextpid }
      nextpid := Int.bmod (s.nextpid + 1) (2 ^ 32)
      life := update s.life np (s.life np + 1)
      pc := update s.pc p (.fork np false)
      log := .born (np, s.life np + 1) s.nextpid (s.id p) :: s.log }
  | forkFail (p np : Fin nproc) (hp : (s.proc p).state.live = true) (hpc : s.pc p = .fork np false) :
    Prim s (.forkFail p) { s with
      proc := s.proc.set np fun v => { v with state := .unused }
      pc := update s.pc p .idle }
  | forkCopy (p np : Fin nproc) (hp : (s.proc p).state.live = true) (hpc : s.pc p = .fork np false) :
    Prim s (.forkCopy p) { s with
      proc := s.proc.set np fun v => { v with parent := some p }
      pc := update s.pc p (.fork np true) }
  | forkRun (p np : Fin nproc) (hp : (s.proc p).state.live = true) (hpc : s.pc p = .fork np true) :
    Prim s (.forkRun p) { s with
      proc := s.proc.set np fun v => { v with state := .runnable }
      pc := update (update s.pc p .idle) np .idle }
  | exit (p : Fin nproc) (how : Exit) (hp : (s.proc p).state = .running) (hpc : s.pc p = .exit how) :
    Prim s (.exitLocked p) { s with proc := s.proc.exit s.initproc p how.status, log := .exited (s.id p) how :: s.log }
  | reap (a : Act nproc) (p q : Fin nproc) (stored : Option Int) (hq : s.proc.zombieChild p = some q)
      (hstored : stored = none ∨ stored = some (s.proc q).exit_status) :
    Prim s a { s with
      proc := s.proc.reap q
      pc := update s.pc p .idle
      log := .reaped (s.id p) (s.id q) (s.proc q).pid stored :: s.log }

theorem wait_prim (a : Act nproc) (two : Bool) (hp : (s.proc p).state.live = true) : Prim s a (wait p two s) := by
  unfold wait
  split
  · rename_i q hq
    refine .reap a p q _ hq ?_
    rcases two with _ | _
    · exact .inl rfl
    · exact .inr rfl
  · rename_i hnone
    split_ifs
    · refine .stir _ _ ?_
      have := Stir.one (s := s) (a := a) p (fun v => v) .idle (.waitFailed (s.id p) :: s.log)
        (.inr ⟨_, .waitFailed .., rfl⟩)
        ⟨rfl, rfl, rfl⟩ (.inl rfl) (fun h1 h2 => .inl ⟨h1, h2⟩) nofun nofun (fun h => .inl h)
      rwa [Ptable.set_id] at this
    · exact .stir _ _ (Stir.one p (fun v => { v with chan := some (.proc p), state := .sleeping }) (.wait two) s.log
        (.inl rfl) ⟨rfl, rfl, rfl⟩ (.inr ⟨hp, rfl⟩) (fun _ _ => .inr hnone) nofun nofun fun h => .inl h)

theorem stir_set {a : Act nproc} (p : Fin nproc) (f : Proc nproc → Proc nproc)
    (hsame : (f (s.proc p)).pid = (s.proc p).pid ∧ (f (s.proc p)).parent = (s.proc p).parent ∧
      (f (s.proc p)).exit_status = (s.proc p).exit_status)
    (hlive : (s.proc p).state.live = true ∧ (f (s.proc p)).state.live = true)
    (hasleep : (f (s.proc p)).chan ≠ some (.proc p) ∨ (f (s.proc p)).state ≠ .sleeping)
    (hkilled : (f (s.proc p)).killed = (s.proc p).killed) : Stir s a (s.onTable fun t => t.set p f) := by
  have := Stir.one (s := s) (a := a) p f (s.pc p) s.log (.inl rfl) hsame (.inr hlive)
    (fun h1 h2 => by rcases hasleep with h | h <;> contradiction) (fun _ _ h => h) (fun _ h => .inl h)
    (fun h => .inl (hkilled ▸ h))
  rwa [update_eq_self] at this

theorem sched_prim {a : Act nproc} (hp : (s.proc p).state = .runnable) :
    ∃ s₁, (s₁ = s ∨ Stir s a s₁) ∧ Prim s₁ a (sched p s) := by
  have hset : Stir s a (s.onTable fun t => t.set p fun v => { v with state := .running, chan := none }) :=
    stir_set p _ ⟨rfl, rfl, rfl⟩ ⟨by rw [hp]; rfl, rfl⟩ (.inl nofun) rfl
  unfold sched
  dsimp only
  split
  · refine ⟨_, .inr hset, wait_prim a _ ?_⟩
    unfold State.onTable
    dsimp only
    rw [Ptable.set_self]
    rfl
  · exact ⟨s, .inl rfl, .stir _ _ hset⟩

theorem kill_stir (pid : Int) : Stir s (.kill pid) (kill pid s) := by
  unfold kill
  split
  · rename_i p hp
    have := Stir.one (s := s) (a := .kill pid) p
      (fun v => { v with killed := true, state := if v.state = .sleeping then .runnable else v.state }) (s.pc p)
      (.killed pid (s.id p) ((s.proc p).state ≠ .unused) :: s.log)
        (.inr ⟨_, .killed pid p hp, rfl⟩) ⟨rfl, rfl, rfl⟩ ?_ ?_
      (fun _ _ h => h) (fun _ h => .inl h) (fun _ => .inr (.inl ⟨pid, hp, rfl⟩))
    · rwa [update_eq_self] at this
    · split_ifs with hs
      · exact .inr ⟨by rw [hs]; rfl, rfl⟩
      · exact .inl rfl
    · split_ifs with hs
      · exact fun h => absurd h (by simp)
      · exact fun h => absurd h hs
  · exact .refl _

theorem wakeup_stir (a : Act nproc) (addr : Nat) : Stir s a (s.onTable (Ptable.wakeup1 (.other addr))) := by
  refine ⟨rfl, rfl, .inl rfl, fun q => ?_, fun q => ?_, fun q h1 h2 => .inl ?_, fun _ _ _ h => h,
    fun _ _ h => .inl h, fun q h => .inl ?_⟩
  all_goals
    obtain ⟨g1, g2, g3, g4, g5⟩ := Ptable.wakeup1_same (.other addr) s.proc q
    have hstate := Ptable.wakeup1_state (.other addr) s.proc q
  · exact ⟨g1, g5, g4⟩
  · rcases hstate with h | ⟨h, h'⟩
    · exact .inl h
    · refine .inr ⟨by rw [h]; rfl, ?_⟩
      rw [State.onTable, h']
      rfl
  · rcases hstate with h | ⟨-, h⟩
    · exact ⟨h ▸ h1, g2 ▸ h2⟩
    · rw [State.onTable, h] at h1
      simp at h1
  · exact g3 ▸ h

theorem step_prim {a : Act nproc} (hs : step s a = some s') :
    ∃ s₁, (s₁ = s ∨ Stir s a s₁ ∧ ∃ p, a = .sched p) ∧ Prim s₁ a s' := by
  have hone : Prim s a s' → ∃ s₁, (s₁ = s ∨ Stir s a s₁ ∧ ∃ p, a = .sched p) ∧ Prim s₁ a s' := fun h => ⟨s, .inl rfl, h⟩
  unfold step at hs
  rcases a with p | p | ⟨p, addr⟩ | addr | p | p | p | p | ⟨p, how⟩ | p | ⟨p, two⟩ | pid | p <;> dsimp only at hs
  · split_ifs at hs with hp
    cases hs
    obtain ⟨s₁, h₁, hprim⟩ := sched_prim (a := .sched p) hp
    exact ⟨s₁, h₁.imp_right fun h => ⟨h, p, rfl⟩, hprim⟩
  · split_ifs at hs with hp
    cases hs
    exact hone (.stir _ _ (stir_set p _ ⟨rfl, rfl, rfl⟩ ⟨by rw [hp]; rfl, rfl⟩ (.inr (by simp)) rfl))
  · split_ifs at hs with hp
    cases hs
    exact hone (.stir _ _ (stir_set p _ ⟨rfl, rfl, rfl⟩ ⟨by rw [hp]; rfl, rfl⟩ (.inl (by simp)) rfl))
  · cases hs
    exact hone (.stir _ _ (wakeup_stir _ addr))
  · split_ifs at hs with hp
    cases hs
    refine hone ?_
    unfold allocproc
    split
    · exact .stir _ _ (.refl _)
    · rename_i np hnp
      exact .alloc p np (by rw [hp.1]; rfl) (by simpa using List.find?_some hnp)
  · split at hs
    · rename_i np hpc
      split_ifs at hs with hp
      cases hs
      exact hone (.forkFail p np (by rw [hp]; rfl) hpc)
    · simp at hs
  · split at hs
    · rename_i np hpc
      split_ifs at hs with hp
      cases hs
      exact hone (.forkCopy p np (by rw [hp]; rfl) hpc)
    · simp at hs
  · split at hs
    · rename_i np hpc
      split_ifs at hs with hp
      cases hs
      exact hone (.forkRun p np (by rw [hp]; rfl) hpc)
    · simp at hs
  · split_ifs at hs with hp
    cases hs
    have := Stir.one (s := s) (a := .exit p how) p (fun v => v) (.exit how) s.log (.inl rfl) ⟨rfl, rfl, rfl⟩ (.inl rfl)
      (fun h1 h2 => .inl ⟨h1, h2⟩) nofun (fun _ _ => .inr hp.2.2) (fun h => .inl h)
    rw [Ptable.set_id] at this
    exact hone (.stir _ _ this)
  · split at hs
    · rename_i how hpc
      split_ifs at hs with hp
      cases hs
      exact hone (.exit p how hp hpc)
    · simp at hs
  · split_ifs at hs with hp
    cases hs
    exact hone (wait_prim _ two (by rw [hp.1]; rfl))
  · cases hs
    exact hone (.stir _ _ (kill_stir pid))
  · split_ifs at hs with hp
    cases hs
    have hlive : (s.proc p).state.live = true := by rw [hp]; rfl
    have := Stir.one (s := s) (a := .fault p) p (fun v => { v with killed := true }) (s.pc p)
      (.faulted (s.id p) :: s.log)
      (.inr ⟨_, .faulted p hlive, rfl⟩) ⟨rfl, rfl, rfl⟩ (.inr ⟨hlive, hlive⟩) (fun h1 h2 => .inl ⟨h1, h2⟩)
        (fun _ _ h => h)
      (fun _ h => .inl h) (fun _ => .inr (.inr rfl))
    rw [update_eq_self] at this
    exact hone (.stir _ _ this)

structure Sane (s : State nproc) : Prop where
  init_live : (s.proc s.initproc).state.live = true
  init_parent : (s.proc s.initproc).parent = none
  init_exit : ∀ how, s.pc s.initproc ≠ .exit how
  unused : ∀ q, (s.proc q).state = .unused → (s.proc q).parent = none
  fork : ∀ q np c, (s.proc q).state.live = true → s.pc q = .fork np c →
    (s.proc np).state = .embryo ∧ (s.proc np).parent = if c then some q else none
  fork_unique : ∀ q q' np c c', (s.proc q).state.live = true → (s.proc q').state.live = true → s.pc q = .fork np c →
    s.pc q' = .fork np c' → q = q'
  parent : ∀ q, q ≠ s.initproc → (s.proc q).state.live = true ∨ (s.proc q).state = .zombie →
    ∃ r, r ≠ q ∧ (s.proc q).parent = some r ∧ (s.proc r).state.live = true
  asleep : ∀ q, (s.proc q).state = .sleeping → (s.proc q).chan = some (.proc q) →
    ∀ c, (s.proc c).parent = some q → (s.proc c).state ≠ .zombie

theorem init_sane (h : Init s) : Sane s := by
  have hproc : ∀ q, (s.proc q).parent = none ∧ ((s.proc q).state = .runnable ∧ q = s.initproc ∨
    (s.proc q).state = .unused) := by
    intro q
    rcases eq_or_ne q s.initproc with rfl | hq
    · rw [h.init]
      exact ⟨rfl, .inl ⟨rfl, rfl⟩⟩
    · rw [h.rest q hq]
      exact ⟨rfl, .inr rfl⟩
  refine ⟨?_, (hproc _).1, fun how => ?_, fun q _ => (hproc q).1, fun q np c _ hpc => ?_,
    fun q q' np c c' _ _ hpc => ?_, fun q hq hstate => ?_, fun q hq => ?_⟩
  · rw [h.init]
    rfl
  · simp [h.pc]
  · simp [h.pc] at hpc
  · simp [h.pc] at hpc
  · rcases (hproc q).2 with ⟨-, he⟩ | he
    · exact absurd he hq
    · rw [he] at hstate
      simp [ProcState.live] at hstate
  · rcases (hproc q).2 with ⟨he, -⟩ | he <;> rw [he] at hq <;> simp at hq

theorem Stir.live {a : Act nproc} (h : Stir s a s') (q : Fin nproc) :
    (s'.proc q).state.live = (s.proc q).state.live := by
  rcases h.state q with he | ⟨h1, h2⟩
  · rw [he]
  · rw [h1, h2]

theorem Stir.dead {a : Act nproc} (h : Stir s a s') (q : Fin nproc) (st : ProcState) (hst : st.live = false) :
    (s'.proc q).state = st ↔ (s.proc q).state = st := by
  rcases h.state q with he | ⟨h1, h2⟩
  · rw [he]
  · constructor
    · rintro rfl
      rw [hst] at h2
      simp at h2
    · rintro rfl
      rw [hst] at h1
      simp at h1

theorem Sane.stir {a : Act nproc} (hi : Sane s) (h : Stir s a s') : Sane s' := by
  have hparent := fun q => (h.same q).2.1
  refine ⟨?_, ?_, fun how hpc => ?_, fun q hq => ?_, fun q np c hq hpc => ?_, fun q q' np c c' hq hq' hpc hpc' => ?_,
    fun q hq hstate => ?_, fun q hs hc c hchild hz => ?_⟩
  · rw [h.initproc, h.live]
    exact hi.init_live
  · rw [h.initproc, hparent]
    exact hi.init_parent
  · rw [h.initproc] at hpc
    rcases h.exit _ how hpc with hpc | hne
    · exact hi.init_exit how hpc
    · exact hne rfl
  · rw [hparent]
    exact hi.unused q ((h.dead q .unused rfl).mp hq)
  · rw [h.live] at hq
    rw [h.dead np .embryo rfl, hparent]
    exact hi.fork q np c hq (h.fork q np c hpc)
  · rw [h.live] at hq hq'
    exact hi.fork_unique q q' np c c' hq hq' (h.fork q np c hpc) (h.fork q' np c' hpc')
  · rw [h.initproc] at hq
    rw [h.live, h.dead q .zombie rfl] at hstate
    obtain ⟨r, hr, hp, hlive⟩ := hi.parent q hq hstate
    exact ⟨r, hr, by rw [hparent, hp], by rw [h.live, hlive]⟩
  · rw [hparent] at hchild
    rw [h.dead c .zombie rfl] at hz
    rcases h.asleep q hs hc with ⟨hs, hc⟩ | hnone
    · exact hi.asleep q hs hc c hchild hz
    · exact Ptable.zombieChild_none hnone c hchild hz

theorem live_ne {q q' : Fin nproc} (h : (s.proc q).state.live = true) (h' : (s.proc q').state.live = false) :
    q ≠ q' := by
  rintro rfl
  rw [h] at h'
  simp at h'

theorem Sane.slot (hi : Sane s) (np : Fin nproc) (f : Proc nproc → Proc nproc) (pc : Pc nproc)
    (hinit : s'.initproc = s.initproc) (hproc : s'.proc = s.proc.set np f) (hpc : s'.pc = update s.pc p pc)
    (hdead : (s.proc np).state.live = false) (hdead' : (f (s.proc np)).state.live = false)
    (hzombie : (f (s.proc np)).state ≠ .zombie)
    (hunused : (f (s.proc np)).state = .unused → (f (s.proc np)).parent = none) (hexit : ∀ how, pc ≠ .exit how)
    (hfork : ∀ np' c, pc = .fork np' c → np' = np ∧ (f (s.proc np)).state = .embryo ∧
      (f (s.proc np)).parent = if c then some p else none)
    (hown : ∀ q c, q ≠ p → (s.proc q).state.live = true → s.pc q ≠ .fork np c) : Sane s' := by
  have hself : s'.proc np = f (s.proc np) := by rw [hproc, Ptable.set_self]
  have hother : ∀ q, q ≠ np → s'.proc q = s.proc q := fun q hq => by rw [hproc, Ptable.set_ne _ _ _ hq]
  have hlive : ∀ q, (s'.proc q).state.live = true → q ≠ np ∧ (s.proc q).state.live = true := by
    intro q hq
    rcases eq_or_ne q np with rfl | hqn
    · rw [hself, hdead'] at hq
      simp at hq
    · rw [hother q hqn] at hq
      exact ⟨hqn, hq⟩
  have hinit_ne := live_ne hi.init_live hdead
  refine ⟨?_, ?_, fun how hexit' => ?_, fun q hq => ?_, fun q np' c hq hq' => ?_, fun q q' np' c c' hq hq' hf hf' => ?_,
    fun q hq hstate => ?_, fun q hs hc c hchild hz => ?_⟩
  · rw [hinit, hother _ hinit_ne]
    exact hi.init_live
  · rw [hinit, hother _ hinit_ne]
    exact hi.init_parent
  · rw [hinit, hpc, update_apply] at hexit'
    split_ifs at hexit'
    · exact hexit how hexit'
    · exact hi.init_exit how hexit'
  · rcases eq_or_ne q np with rfl | hqn
    · rw [hself] at hq ⊢
      exact hunused hq
    · rw [hother q hqn] at hq ⊢
      exact hi.unused q hq
  · obtain ⟨-, hq⟩ := hlive q hq
    rw [hpc, update_apply] at hq'
    split_ifs at hq' with hqp
    · obtain ⟨rfl, he⟩ := hfork np' c hq'
      rw [hself, hqp]
      exact he
    · have hne : np' ≠ np := by
        rintro rfl
        exact hown q c hqp hq hq'
      rw [hother np' hne]
      exact hi.fork q np' c hq hq'
  · obtain ⟨-, hq⟩ := hlive q hq
    obtain ⟨-, hq'⟩ := hlive q' hq'
    rw [hpc, update_apply] at hf hf'
    split_ifs at hf hf' with h1 h2 h2
    · rw [h1, h2]
    · obtain ⟨rfl, -⟩ := hfork np' c hf
      exact absurd hf' (hown q' c' h2 hq')
    · obtain ⟨rfl, -⟩ := hfork np' c' hf'
      exact absurd hf (hown q c h1 hq)
    · exact hi.fork_unique q q' np' c c' hq hq' hf hf'
  · rw [hinit] at hq
    have hqn : q ≠ np := by
      rintro rfl
      rw [hself, hdead'] at hstate
      exact hstate.elim (by simp) hzombie
    rw [hother q hqn] at hstate ⊢
    obtain ⟨r, hr, hpar, hl⟩ := hi.parent q hq hstate
    refine ⟨r, hr, hpar, ?_⟩
    rwa [hother r (live_ne hl hdead)]
  · have hqn := (hlive q (by rw [hs]; rfl)).1
    have hcn : c ≠ np := by
      rintro rfl
      rw [hself] at hz
      exact hzombie hz
    rw [hother q hqn] at hs hc
    rw [hother c hcn] at hchild hz
    exact hi.asleep q hs hc c hchild hz

theorem Sane.not_forked (hi : Sane s) (np : Fin nproc) (hne : (s.proc np).state ≠ .embryo) (q : Fin nproc) (c : Bool)
    (hq : (s.proc q).state.live = true) : s.pc q ≠ .fork np c := fun hpc => hne (hi.fork q np c hq hpc).1

theorem Sane.forked (hi : Sane s) (np : Fin nproc) (c : Bool) (hp : (s.proc p).state.live = true)
    (hpc : s.pc p = .fork np c)
    (q : Fin nproc) (c' : Bool) (hqp : q ≠ p) (hq : (s.proc q).state.live = true) : s.pc q ≠ .fork np c' :=
  fun hpc' => hqp (hi.fork_unique q p np c' c hq hp hpc' hpc)

theorem Sane.forkRun (hi : Sane s) (np : Fin nproc) (hp : (s.proc p).state.live = true) (hpc : s.pc p = .fork np true)
    (hinit : s'.initproc = s.initproc) (hproc : s'.proc = s.proc.set np fun v => { v with state := .runnable })
    (hpc' : s'.pc = update (update s.pc p .idle) np .idle) : Sane s' := by
  obtain ⟨hembryo, hparent⟩ := hi.fork p np true hp hpc
  rw [if_pos rfl] at hparent
  have hself : s'.proc np = { s.proc np with state := .runnable } := by rw [hproc, Ptable.set_self]
  have hother : ∀ q, q ≠ np → s'.proc q = s.proc q := fun q hq => by rw [hproc, Ptable.set_ne _ _ _ hq]
  have hdead : (s.proc np).state.live = false := by rw [hembryo]; rfl
  have hpne := live_ne hp hdead
  have hinit_ne := live_ne hi.init_live hdead
  have hlive : ∀ q, q ≠ np → (s'.proc q).state.live = (s.proc q).state.live := fun q hq => by rw [hother q hq]
  -- Nobody but `p` has the slot in its `fork`.
  have hfork : ∀ q np' c, s'.pc q = .fork np' c → q ≠ np ∧ q ≠ p ∧ s.pc q = .fork np' c := by
    intro q np' c hq
    rw [hpc', update_apply, update_apply] at hq
    split_ifs at hq with h1 h2
    exact ⟨h1, h2, hq⟩
  refine ⟨?_, ?_, fun how hexit => ?_, fun q hq => ?_, fun q np' c hq hf => ?_, fun q q' np' c c' hq hq' hf hf' => ?_,
    fun q hq hstate => ?_, fun q hs hc c hchild hz => ?_⟩
  · rw [hinit, hother _ hinit_ne]
    exact hi.init_live
  · rw [hinit, hother _ hinit_ne]
    exact hi.init_parent
  · rw [hinit, hpc', update_apply, update_apply] at hexit
    split_ifs at hexit
    exact hi.init_exit how hexit
  · have hqn : q ≠ np := by
      rintro rfl
      rw [hself] at hq
      simp at hq
    rw [hother q hqn] at hq ⊢
    exact hi.unused q hq
  · obtain ⟨hqn, hqp, hf⟩ := hfork q np' c hf
    rw [hlive q hqn] at hq
    have hne : np' ≠ np := by
      rintro rfl
      exact hi.forked np' true hp hpc q c hqp hq hf
    rw [hother np' hne]
    exact hi.fork q np' c hq hf
  · obtain ⟨hqn, -, hf⟩ := hfork q np' c hf
    obtain ⟨hqn', -, hf'⟩ := hfork q' np' c' hf'
    rw [hlive q hqn] at hq
    rw [hlive q' hqn'] at hq'
    exact hi.fork_unique q q' np' c c' hq hq' hf hf'
  · rw [hinit] at hq
    rcases eq_or_ne q np with rfl | hqn
    · refine ⟨p, hpne, by rw [hself]; exact hparent, ?_⟩
      rwa [hlive p hpne]
    · rw [hother q hqn] at hstate ⊢
      obtain ⟨r, hr, hpar, hl⟩ := hi.parent q hq hstate
      refine ⟨r, hr, hpar, ?_⟩
      rwa [hlive r (live_ne hl hdead)]
  · have hqn : q ≠ np := by
      rintro rfl
      rw [hself] at hs
      simp at hs
    have hcn : c ≠ np := by
      rintro rfl
      rw [hself] at hz
      simp at hz
    rw [hother q hqn] at hs hc
    rw [hother c hcn] at hchild hz
    exact hi.asleep q hs hc c hchild hz

theorem Sane.exited (hi : Sane s) (how : Exit) (hp : (s.proc p).state = .running) (hpc : s.pc p = .exit how) :
    Ptable.Exited s.initproc p how.status s.proc (s.proc.exit s.initproc p how.status) ∧ s.initproc ≠ p := by
  have hne : s.initproc ≠ p := by
    rintro rfl
    exact hi.init_exit how hpc
  obtain ⟨r, hr, hparent, -⟩ := hi.parent p hne.symm (.inl (by rw [hp]; rfl))
  refine ⟨Ptable.exit_exited _ _ hne _ _ ?_, hne⟩
  rw [hparent]
  exact fun he => hr (Option.some.inj he)

theorem Ptable.Exited.live {initproc : Fin nproc} {status : Int} {t t' : Ptable nproc}
    (h : Exited initproc p status t t') (q : Fin nproc) (hq : q ≠ p) : (t' q).state.live = (t q).state.live := by
  rcases h.state q hq with he | ⟨h1, h2⟩
  · rw [he]
  · rw [h1, h2]
    rfl

theorem Ptable.Exited.dead {initproc : Fin nproc} {status : Int} {t t' : Ptable nproc}
    (h : Exited initproc p status t t')
    (q : Fin nproc) (hq : q ≠ p) (st : ProcState) (hst : st.live = false) : (t' q).state = st ↔ (t q).state = st := by
  rcases h.state q hq with he | ⟨h1, h2⟩
  · rw [he]
  · rw [h1, h2]
    constructor
    all_goals rintro rfl; exact absurd hst (by simp [ProcState.live])

theorem Sane.exit (hi : Sane s) (how : Exit) (hp : (s.proc p).state = .running) (hpc : s.pc p = .exit how)
    (hinit : s'.initproc = s.initproc) (hproc : s'.proc = s.proc.exit s.initproc p how.status) (hpc' : s'.pc = s.pc) :
    Sane s' := by
  obtain ⟨h, hne⟩ := hi.exited how hp hpc
  rw [← hproc] at h
  have hrun : (s.proc p).state.live = true := by rw [hp]; rfl
  have hzombie : (s'.proc p).state = .zombie := by rw [h.self]
  have hlive : ∀ q, (s'.proc q).state.live = true → q ≠ p ∧ (s.proc q).state.live = true := by
    intro q hq
    rcases eq_or_ne q p with rfl | hqp
    · rw [hzombie] at hq
      exact absurd hq (by simp [ProcState.live])
    · rw [h.live q hqp] at hq
      exact ⟨hqp, hq⟩
  obtain ⟨r, hr, hparent, hrlive⟩ := hi.parent p hne.symm (.inl hrun)
  refine ⟨?_, ?_, fun how' => ?_, fun q hq => ?_, fun q np c hq hf => ?_, fun q q' np c c' hq hq' hf hf' => ?_,
    fun q hq hstate => ?_, fun q hs hc c hchild hz => ?_⟩
  · rw [hinit, h.live _ hne]
    exact hi.init_live
  · rw [hinit, h.parent _ hne, hi.init_parent, if_neg (by simp)]
  · rw [hinit, hpc']
    exact hi.init_exit how'
  · have hqp : q ≠ p := by
      rintro rfl
      rw [hzombie] at hq
      simp at hq
    have := hi.unused q ((h.dead q hqp .unused rfl).mp hq)
    rw [h.parent q hqp, this, if_neg (by simp)]
  · obtain ⟨hqp, hq⟩ := hlive q hq
    rw [hpc'] at hf
    obtain ⟨he, hpar⟩ := hi.fork q np c hq hf
    have hnp : np ≠ p := by
      rintro rfl
      rw [hp] at he
      simp at he
    refine ⟨(h.dead np hnp .embryo rfl).mpr he, ?_⟩
    rw [h.parent np hnp, hpar, if_neg]
    split_ifs
    · exact fun he => hqp (Option.some.inj he)
    · simp
  · rw [hpc'] at hf hf'
    exact hi.fork_unique q q' np c c' (hlive q hq).2 (hlive q' hq').2 hf hf'
  · rw [hinit] at hq
    rcases eq_or_ne q p with rfl | hqp
    · refine ⟨r, hr, by rw [h.self]; exact hparent, ?_⟩
      rwa [h.live r hr]
    · rw [h.live q hqp, h.dead q hqp .zombie rfl] at hstate
      obtain ⟨r', hr', hpar', hl'⟩ := hi.parent q hq hstate
      rw [h.parent q hqp, hpar']
      split_ifs with hchild
      · refine ⟨s.initproc, hq.symm, rfl, ?_⟩
        rw [h.live _ hne]
        exact hi.init_live
      · have hrp : r' ≠ p := fun he => hchild (by rw [he])
        refine ⟨r', hr', rfl, ?_⟩
        rwa [h.live r' hrp]
  · obtain ⟨hqp, -⟩ := hlive q (by rw [hs]; rfl)
    rcases eq_or_ne c p with rfl | hcp
    · rw [h.self] at hchild
      exact h.wakesParent q hs q hchild hc
    rw [h.dead c hcp .zombie rfl] at hz
    rw [h.parent c hcp] at hchild
    split_ifs at hchild with hpc
    · cases hchild
      exact h.wakesInit ⟨c, hpc, hz⟩ _ hs hc
    · have hs' : (s.proc q).state = .sleeping := by
        rcases h.state q hqp with he | ⟨-, he⟩
        · rw [← he]
          exact hs
        · rw [he] at hs
          simp at hs
      rw [(h.same q hqp).2.1] at hc
      exact hi.asleep q hs' hc c hchild hz

theorem Sane.prim {a : Act nproc} (hi : Sane s) (h : Prim s a s') : Sane s' := by
  rcases h with ⟨a, s', h⟩ | ⟨p, np, hp, hnp⟩ | ⟨p, np, hp, hpc⟩ | ⟨p, np, hp, hpc⟩ | ⟨p, np, hp, hpc⟩ |
    ⟨p, how, hp, hpc⟩ |
    ⟨a, p, q, stored, hq, hstored⟩
  · exact hi.stir h
  · refine hi.slot np (fun v => { v with state := .embryo, pid := s.nextpid }) (.fork np false) rfl rfl rfl
      (by rw [hnp]; rfl) rfl (by simp) (by simp) nofun ?_ fun q c _ hq => hi.not_forked np (by rw [hnp]; simp) q c hq
    intro np' c he
    obtain ⟨rfl, rfl⟩ := Pc.fork.inj he
    exact ⟨rfl, rfl, hi.unused np hnp⟩
  · obtain ⟨he, hparent⟩ := hi.fork p np false hp hpc
    exact hi.slot np (fun v => { v with state := .unused }) .idle rfl rfl rfl (by rw [he]; rfl) rfl (by simp)
      (fun _ => hparent) nofun nofun fun q c hqp hq => hi.forked np false hp hpc q c hqp hq
  · obtain ⟨he, -⟩ := hi.fork p np false hp hpc
    refine hi.slot np (fun v => { v with parent := some p }) (.fork np true) rfl rfl rfl (by rw [he]; rfl)
      (by simp [he, ProcState.live]) (by simp [he]) (by simp [he]) nofun ?_ fun q c hqp hq =>
      hi.forked np false hp hpc q c hqp hq
    intro np' c hf
    obtain ⟨rfl, rfl⟩ := Pc.fork.inj hf
    exact ⟨rfl, he, rfl⟩
  · exact hi.forkRun np hp hpc rfl rfl rfl
  · exact hi.exit how hp hpc rfl rfl rfl
  · obtain ⟨-, hz⟩ := Ptable.zombieChild_some hq
    exact hi.slot q (fun v => { v with pid := 0, parent := none, killed := false, state := .unused }) .idle rfl rfl rfl
      (by rw [hz]; rfl) rfl (by simp) (fun _ => rfl) nofun nofun fun q' c _ hq' =>
      hi.not_forked q (by rw [hz]; simp) q' c hq'

theorem step_sane {a : Act nproc} (hi : Sane s) (hs : step s a = some s') : Sane s' := by
  obtain ⟨s₁, rfl | ⟨hstir, -⟩, hprim⟩ := step_prim hs
  · exact hi.prim hprim
  · exact (hi.stir hstir).prim hprim

theorem sane_of_reach (s : State nproc) (h : (procs nproc).Reach s) : Sane s :=
  (procs nproc).reach_inv Sane (fun _ => init_sane) (fun _ _ _ => step_sane) s h

/-- **No wakeup is lost**: a process that sleeps in `wait` or `wait2` has no child to reap. -/
theorem no_lost_wakeup (s : State nproc) (h : (procs nproc).Reach s) (p : Fin nproc) (hs : (s.proc p).state = .sleeping)
    (hc : (s.proc p).chan = some (.proc p)) (c : Fin nproc) (hchild : (s.proc c).parent = some p) :
    (s.proc c).state ≠ .zombie :=
  (sane_of_reach s h).asleep p hs hc c hchild

def boot : State 2 where
  proc p :=
    if p = 0 then { state := .runnable, pid := 1, parent := none, chan := none, killed := false, exit_status := 0 }
    else { state := .unused, pid := 0, parent := none, chan := none, killed := false, exit_status := 0 }
  pc _ := .idle
  nextpid := 2
  initproc := 0
  life _ := 0
  log := []

theorem boot_init : Init boot :=
  ⟨rfl, fun _ hp => if_neg hp, fun _ => rfl, rfl, fun _ => rfl, rfl⟩

def forked : List (Act 2) := [.sched 0, .fork 0, .forkCopy 0, .forkRun 0]

theorem no_lost_wakeup_liveChild : ∃ s, (procs 2).Reach s ∧ (s.proc 0).state = .sleeping ∧ (s.proc 1).parent = some 0 ∧
    (s.proc 1).state ≠ .zombie := by
  have hrun : ((procs 2).run boot (forked ++ [.wait 0 false])).map
      (fun s => ((s.proc 0).state, (s.proc 0).chan, (s.proc 1).parent)) = some (.sleeping, some (.proc 0), some 0) := by
    decide +kernel
  obtain ⟨s, hreach, hv⟩ := (procs 2).reach_of_map boot_init hrun
  simp only [Prod.mk.injEq] at hv
  exact ⟨s, hreach, hv.1, hv.2.2, no_lost_wakeup s hreach 0 hv.1 hv.2.1 1 hv.2.2⟩

end Xv6.Procs
