import Mathlib
import Xv6.Sleep.Code

/-!
# Mutual exclusion and no lost wakeup

A process that is about to sleep holds one of the two spinlocks from its test of `lk->locked` on, so
whoever clears `lk->locked` after the test has yet to call `wakeup1` when the process is asleep.
-/

open Lib Function

namespace Xv6.Sleep

variable {nproc : Nat} {s s' : State nproc} {p q : Fin nproc}

namespace Pc

def holdsLk : Pc → Bool
  | test | sleep | both | took | clear | wakeup | wake | woke | unlock => true
  | _ => false

def holdsPtable : Pc → Bool
  | both | doze | wake | woke => true
  | _ => false

def owns : Pc → Bool
  | took | held | release | clear => true
  | _ => false

def tested : Pc → Bool
  | sleep | both => true
  | _ => false

/-- `lk->locked` is clear, and the sleepers are not woken yet. -/
def wakes : Pc → Bool
  | wakeup | wake => true
  | _ => false

end Pc

/-- Asleep on the lock, or nothing but `ptable.lock` in the way of it. -/
def Proc.sleeps (v : Proc) : Prop := v.pc = .doze ∨ v.state = .sleeping ∧ v.chan = some .lk

def Proc.inSched (v : Proc) : Prop := v.pc = .asleep ∨ v.parked ≠ .no

/-- What a process relies on, in terms of the locks. -/
structure Ok (lock : Sleeplock nproc) (ptable : Option (Holder nproc)) (p : Fin nproc) (v : Proc) : Prop where
  lk : v.pc.holdsLk = true → lock.lk = some p
  ptable : v.pc.holdsPtable = true ∨ v.state = .running ∧ v.inSched → ptable = some (.proc p)
  spin : v.pc.preemptible = false → v.pc ≠ .asleep → v.state = .running ∧ v.parked = .no
  asleep : v.pc = .asleep → v.parked = .no
  onLk : v.chan = some .lk → v.pc = .asleep
  owns : v.pc.owns = true → lock.locked = true ∧ lock.pid = v.pid
  tested : v.pc.tested = true → lock.locked = true

structure Inv (s : State nproc) : Prop where
  ok : ∀ p, Ok s.lock s.ptable p (s.proc p)
  unique : ∀ p q, (s.proc p).pc.owns = true → (s.proc q).pc.owns = true → p = q
  owner : s.lock.locked = true → ∃ p, (s.proc p).pc.owns = true
  free : s.lock.locked = false → s.lock.pid = 0
  wakes : ∀ p, (s.proc p).sleeps → s.lock.locked = true ∨ ∃ q, (s.proc q).pc.wakes = true

theorem Ok.mono {lock lock' : Sleeplock nproc} {ptable ptable' : Option (Holder nproc)} {v : Proc}
    (h : Ok lock ptable p v)
    (hlk : lock.lk = some p → lock'.lk = some p) (hpt : ptable = some (.proc p) → ptable' = some (.proc p))
    (hlocked : v.pc.owns = true ∨ v.pc.tested = true → lock'.locked = lock.locked ∧ lock'.pid = lock.pid) :
    Ok lock' ptable' p v := by
  refine ⟨fun hv => hlk (h.lk hv), fun hv => hpt (h.ptable hv), h.spin, h.asleep, h.onLk, fun hv => ?_, fun hv => ?_⟩
  · obtain ⟨hl, hp⟩ := hlocked (.inl hv)
    rw [hl, hp]
    exact h.owns hv
  · rw [(hlocked (.inr hv)).1]
    exact h.tested hv

theorem Ok.woken {lock : Sleeplock nproc} {ptable : Option (Holder nproc)} {v w : Proc} (h : Ok lock ptable p v)
    (hs : v.state = .sleeping) (hw : w.state = .runnable) (hpc : w.pc = v.pc) (hparked : w.parked = v.parked)
    (hchan : w.chan = v.chan) (hpid : w.pid = v.pid) : Ok lock ptable p w := by
  refine ⟨fun hv => h.lk (hpc ▸ hv), fun hv => ?_, fun hv hne => ?_, fun hv => ?_, fun hv => ?_, fun hv => ?_,
    fun hv => h.tested (hpc ▸ hv)⟩
  · rcases hv with hv | ⟨hr, -⟩
    · exact h.ptable (.inl (hpc ▸ hv))
    · rw [hw] at hr
      simp at hr
  · rw [hpc] at hv hne
    obtain ⟨hr, -⟩ := h.spin hv hne
    rw [hs] at hr
    simp at hr
  · rw [hparked]
    exact h.asleep (hpc ▸ hv)
  · rw [hpc]
    exact h.onLk (hchan ▸ hv)
  · rw [hpid]
    exact h.owns (hpc ▸ hv)

theorem wakeup1_same (chan : Chan) (v : Proc) : (wakeup1 chan v).pc = v.pc ∧ (wakeup1 chan v).parked = v.parked ∧
    (wakeup1 chan v).chan = v.chan ∧ (wakeup1 chan v).pid = v.pid := by
  unfold wakeup1
  split_ifs <;> exact ⟨rfl, rfl, rfl, rfl⟩

theorem Ok.wakeup1 {lock : Sleeplock nproc} {ptable : Option (Holder nproc)} {v : Proc} (h : Ok lock ptable p v)
    (chan : Chan) :
    Ok lock ptable p (wakeup1 chan v) := by
  unfold Sleep.wakeup1
  split_ifs with hs
  · exact h.woken hs.1 rfl rfl rfl rfl rfl
  · exact h

theorem sleeps_of_wakeup1 {chan : Chan} {v : Proc} (h : (wakeup1 chan v).sleeps) : v.sleeps := by
  unfold wakeup1 at h
  split_ifs at h with hs
  · exact h.imp_right fun h => absurd h.1 (by simp)
  · exact h

theorem not_sleeps_wakeup1 {v : Proc} (h : (wakeup1 .lk v).sleeps) : v.pc = .doze := by
  rcases h with h | ⟨h, hc⟩
  · rw [← (wakeup1_same .lk v).1, h]
  · unfold wakeup1 at h hc
    split_ifs at h hc with hs
    exact absurd ⟨h, hc⟩ hs

theorem Inv.quiet (h : Inv s) (p : Fin nproc) (v : Proc) (hproc : s'.proc = update s.proc p v)
    (hv : Ok s'.lock s'.ptable p v) (hlk : s'.lock.lk = s.lock.lk ∨ s.lock.lk = none ∨ s.lock.lk = some p)
    (hpt : s'.ptable = s.ptable ∨ ∀ q, q ≠ p → s.ptable ≠ some (.proc q))
    (hlocked : s'.lock.locked = s.lock.locked ∧ s'.lock.pid = s.lock.pid) (howns : v.pc.owns = (s.proc p).pc.owns)
    (hsleeps : v.sleeps → (s.proc p).sleeps ∨ s.lock.locked = true) (hwakes : (s.proc p).pc.wakes = true →
      v.pc.wakes = true) :
    Inv s' := by
  have hself : s'.proc p = v := by rw [hproc, update_self]
  have hother : ∀ q, q ≠ p → s'.proc q = s.proc q := fun q hq => by rw [hproc, update_of_ne hq]
  have hown : ∀ q, (s'.proc q).pc.owns = (s.proc q).pc.owns := by
    intro q
    rcases eq_or_ne q p with rfl | hq
    · rw [hself, howns]
    · rw [hother q hq]
  refine ⟨fun q => ?_, fun q r hq hr => ?_, fun hl => ?_, fun hl => ?_, fun q hq => ?_⟩
  · rcases eq_or_ne q p with rfl | hq
    · rw [hself]
      exact hv
    · rw [hother q hq]
      refine (h.ok q).mono (fun he => ?_) (fun he => ?_) fun _ => hlocked
      · rcases hlk with hlk | hlk | hlk
        · rw [hlk, he]
        · rw [hlk] at he
          simp at he
        · rw [hlk] at he
          exact absurd (Option.some.inj he).symm hq
      · rcases hpt with hpt | hpt
        · rw [hpt, he]
        · exact absurd he (hpt q hq)
  · exact h.unique q r (hown q ▸ hq) (hown r ▸ hr)
  · rw [hlocked.1] at hl
    obtain ⟨q, hq⟩ := h.owner hl
    exact ⟨q, (hown q).trans hq⟩
  · rw [hlocked.1] at hl
    rw [hlocked.2]
    exact h.free hl
  · have hold : (s.proc q).sleeps ∨ s.lock.locked = true := by
      rcases eq_or_ne q p with rfl | hqp
      · exact hsleeps (hself ▸ hq)
      · exact .inl (hother q hqp ▸ hq)
    rw [hlocked.1]
    rcases hold with hq | hl
    · refine (h.wakes q hq).imp_right fun ⟨r, hr⟩ => ⟨r, ?_⟩
      rcases eq_or_ne r p with rfl | hrp
      · rw [hself]
        exact hwakes hr
      · rw [hother r hrp]
        exact hr
    · exact .inl hl

theorem ok_running {lock : Sleeplock nproc} {ptable : Option (Holder nproc)} {v : Proc} (hrun : v.state = .running)
    (hparked : v.parked = .no) (hchan : v.chan ≠ some .lk) (hpc : v.pc ≠ .asleep)
    (hlk : v.pc.holdsLk = true → lock.lk = some p) (hpt : v.pc.holdsPtable = true → ptable = some (.proc p))
    (howns : v.pc.owns = true → lock.locked = true ∧ lock.pid = v.pid)
    (htested : v.pc.tested = true → lock.locked = true) :
    Ok lock ptable p v := by
  refine ⟨hlk, fun hv => ?_, fun _ _ => ⟨hrun, hparked⟩, fun hv => absurd hv hpc, fun hv => absurd hv hchan,
    howns, htested⟩
  rcases hv with hv | ⟨-, hv | hv⟩
  · exact hpt hv
  · exact absurd hv hpc
  · exact absurd hparked hv

theorem Inv.chan (h : Inv s) (hpc : (s.proc p).pc ≠ .asleep) : (s.proc p).chan ≠ some .lk :=
  fun hc => hpc ((h.ok p).onLk hc)

/-- What happens to a spinlock when a process moves on. -/
def Handles {α : Type} (me : α) (before after : Option α) (had has : Bool) : Prop :=
  after = before ∧ (has = true → had = true) ∨ before = none ∧ after = some me ∨ had = true ∧ has = false

theorem Inv.move (h : Inv s) (hrun : (s.proc p).state = .running) (hparked : (s.proc p).parked = .no)
    (hpc : (s.proc p).pc ≠ .asleep) (pc : Pc) (hpc' : pc ≠ .asleep)
    (hproc : s'.proc = update s.proc p { s.proc p with pc := pc })
    (hlk : Handles p s.lock.lk s'.lock.lk (s.proc p).pc.holdsLk pc.holdsLk)
    (hpt : Handles (.proc p) s.ptable s'.ptable (s.proc p).pc.holdsPtable pc.holdsPtable)
    (hlocked : s'.lock.locked = s.lock.locked ∧ s'.lock.pid = s.lock.pid) (howns : pc.owns = (s.proc p).pc.owns)
    (htested : pc.tested = true ∨ pc = .doze → s.lock.locked = true) (hwakes : (s.proc p).pc.wakes = true →
      pc.wakes = true) :
    Inv s' := by
  have hp := h.ok p
  refine h.quiet p _ hproc ?_ ?_ ?_ hlocked howns ?_ hwakes
  · refine ok_running hrun hparked (h.chan hpc) hpc' (fun hv => ?_) (fun hv => ?_) (fun hv => ?_) fun hv => ?_
    · rcases hlk with ⟨he, hold⟩ | ⟨-, he⟩ | ⟨-, he⟩
      · rw [he]
        exact hp.lk (hold hv)
      · exact he
      · rw [he] at hv
        simp at hv
    · rcases hpt with ⟨he, hold⟩ | ⟨-, he⟩ | ⟨-, he⟩
      · rw [he]
        exact hp.ptable (.inl (hold hv))
      · exact he
      · rw [he] at hv
        simp at hv
    · rw [hlocked.1, hlocked.2]
      exact hp.owns (howns ▸ hv)
    · rw [hlocked.1]
      exact htested (.inl hv)
  · rcases hlk with ⟨he, -⟩ | ⟨he, -⟩ | ⟨he, -⟩
    · exact .inl he
    · exact .inr (.inl he)
    · exact .inr (.inr (hp.lk he))
  · rcases hpt with ⟨he, -⟩ | ⟨he, -⟩ | ⟨he, -⟩
    · exact .inl he
    · exact .inr fun q _ => by simp [he]
    · refine .inr fun q hq => ?_
      rw [hp.ptable (.inl he)]
      simpa using hq.symm
  · rintro (hd | ⟨hs, -⟩)
    · exact .inr (htested (.inr hd))
    · rw [hrun] at hs
      simp at hs

theorem Handles.same {α : Type} {me : α} {o : Option α} {had has : Bool} (h : has = true → had = true) :
    Handles me o o had has := .inl ⟨rfl, h⟩

theorem Handles.drop {α : Type} {me : α} {o o' : Option α} : Handles me o o' true false := .inr (.inr ⟨rfl, rfl⟩)

theorem acquireLk_some {pc : Pc} (hs : acquireLk s p pc = some s') :
    s.lock.lk = none ∧ s' = ({ s with lock := { s.lock with lk := some p } } : State nproc).goto p pc := by
  unfold acquireLk at hs
  split_ifs at hs with hlk
  exact ⟨hlk, (Option.some.inj hs).symm⟩

theorem acquirePtable_some {pc : Pc} (hs : acquirePtable s p pc = some s') :
    s.ptable = none ∧ s' = ({ s with ptable := some (.proc p) } : State nproc).goto p pc := by
  unfold acquirePtable at hs
  split_ifs at hs with hpt
  exact ⟨hpt, (Option.some.inj hs).symm⟩

variable (h : Inv s)

section

include h

theorem Inv.take (hrun : (s.proc p).state = .running) (hparked : (s.proc p).parked = .no)
    (hpc : (s.proc p).pc = .test) (hlocked : s.lock.locked = false) :
    Inv ({ s with lock := { s.lock with locked := true, pid := (s.proc p).pid } }.goto p .took) := by
  have hnone : ∀ q, (s.proc q).pc.owns = false := by
    intro q
    refine Bool.eq_false_iff.mpr fun hq => ?_
    rw [((h.ok q).owns hq).1] at hlocked
    simp at hlocked
  have hself : ∀ f : Fin nproc → Proc, ∀ v, update f p v p = v := fun f v => update_self ..
  have hother : ∀ q, q ≠ p → update s.proc p { s.proc p with pc := .took } q = s.proc q :=
    fun q hq => update_of_ne hq ..
  refine ⟨fun q => ?_, fun q r hq hr => ?_, fun _ => ⟨p, ?_⟩, nofun, fun _ _ => .inl rfl⟩
  all_goals dsimp only [State.goto, State.set] at *
  · rcases eq_or_ne q p with rfl | hq
    · rw [hself]
      exact ok_running hrun hparked (h.chan (by simp [hpc])) (by simp) (fun _ => (h.ok q).lk (by rw [hpc]; rfl)) nofun
        (fun _ => ⟨rfl, rfl⟩) nofun
    · rw [hother q hq]
      refine (h.ok q).mono id id ?_
      rintro (hv | hv)
      · rw [hnone q] at hv
        simp at hv
      · rw [(h.ok q).tested hv] at hlocked
        simp at hlocked
  · have howner : ∀ q, (update s.proc p { s.proc p with pc := .took } q).pc.owns = true → q = p := by
      intro q hq
      refine of_not_not fun hne => ?_
      rw [hother q hne, hnone q] at hq
      simp at hq
    rw [howner q hq, howner r hr]
  · rw [hself]
    rfl

theorem Inv.clear (hrun : (s.proc p).state = .running) (hparked : (s.proc p).parked = .no)
    (hpc : (s.proc p).pc = .clear) :
    Inv ({ s with lock := { s.lock with locked := false, pid := 0 } }.goto p .wakeup) := by
  have howner : (s.proc p).pc.owns = true := by rw [hpc]; rfl
  have hlk : s.lock.lk = some p := (h.ok p).lk (by rw [hpc]; rfl)
  have hself : ∀ f : Fin nproc → Proc, ∀ v, update f p v p = v := fun f v => update_self ..
  have hother : ∀ q, q ≠ p → update s.proc p { s.proc p with pc := .wakeup } q = s.proc q :=
    fun q hq => update_of_ne hq ..
  have hnone : ∀ q, (update s.proc p { s.proc p with pc := .wakeup } q).pc.owns ≠ true := by
    intro q hq
    rcases eq_or_ne q p with rfl | hne
    · rw [hself] at hq
      exact absurd hq (by simp [Pc.owns])
    · rw [hother q hne] at hq
      exact hne (h.unique q p hq howner)
  refine ⟨fun q => ?_, fun q r hq _ => absurd hq (hnone q), nofun, fun _ => rfl, fun q _ => .inr ⟨p, ?_⟩⟩
  all_goals dsimp only [State.goto, State.set] at *
  · rcases eq_or_ne q p with rfl | hq
    · rw [hself]
      exact ok_running hrun hparked (h.chan (by simp [hpc])) (by simp) (fun _ => hlk) nofun nofun nofun
    · rw [hother q hq]
      refine (h.ok q).mono id id ?_
      rintro (hv | hv)
      · exact absurd (h.unique q p hv howner) hq
      · -- A process that has tested `lk->locked` would hold `lk->lk`.
        have := (h.ok q).lk (by rcases hc : (s.proc q).pc <;> simp_all [Pc.tested, Pc.holdsLk])
        rw [hlk] at this
        exact absurd (Option.some.inj this).symm hq
  · rw [hself]
    rfl

theorem Inv.wake (hrun : (s.proc p).state = .running) (hparked : (s.proc p).parked = .no)
    (hpc : (s.proc p).pc = .wake) : Inv ({ s with proc := fun q => wakeup1 .lk (s.proc q) }.goto p .woke) := by
  have hpt : s.ptable = some (.proc p) := (h.ok p).ptable (.inl (by rw [hpc]; rfl))
  have hsame : wakeup1 .lk (s.proc p) = s.proc p := by
    unfold wakeup1
    rw [if_neg (by simp [hrun])]
  have hself : ∀ f : Fin nproc → Proc, ∀ v, update f p v p = v := fun f v => update_self ..
  have hother : ∀ q, q ≠ p → ∀ v, update (fun q => wakeup1 .lk (s.proc q)) p v q = wakeup1 .lk (s.proc q) :=
    fun q hq v => update_of_ne hq ..
  have howns : ∀ q, (update (fun q => wakeup1 .lk (s.proc q)) p { s.proc p with pc := .woke } q).pc.owns =
      (s.proc q).pc.owns := by
    intro q
    rcases eq_or_ne q p with rfl | hq
    · rw [hself, hpc]
      rfl
    · rw [hother q hq, (wakeup1_same .lk _).1]
  refine ⟨fun q => ?_, fun q r hq hr => ?_, fun hl => ?_, h.free, fun q hq => ?_⟩
  all_goals dsimp only [State.goto, State.set] at *
  all_goals try rw [hsame] at *
  · rcases eq_or_ne q p with rfl | hq
    · rw [hself]
      exact ok_running hrun hparked (h.chan (by simp [hpc])) (by simp) (fun _ => (h.ok q).lk (by rw [hpc]; rfl))
        (fun _ => hpt)
        nofun nofun
    · rw [hother q hq]
      exact (h.ok q).wakeup1 .lk
  · exact h.unique q r (howns q ▸ hq) (howns r ▸ hr)
  · obtain ⟨q, hq⟩ := h.owner hl
    exact ⟨q, (howns q).trans hq⟩
  · exfalso
    rcases eq_or_ne q p with rfl | hne
    · rw [hself] at hq
      rcases hq with hq | ⟨hq, -⟩
      · simp at hq
      · rw [hrun] at hq
        simp at hq
    · rw [hother q hne] at hq
      have := (h.ok q).ptable (.inl (by rw [not_sleeps_wakeup1 hq]; rfl))
      rw [hpt] at this
      simp only [Option.some.injEq, Holder.proc.injEq] at this
      exact hne this.symm

theorem run_inv (hrun : (s.proc p).state = .running) (hparked : (s.proc p).parked = .no)
    (hs : run s p = some s') : Inv s' := by
  have hp := h.ok p
  have hmove := @Inv.move nproc s s' p h hrun hparked
  unfold run at hs
  split at hs <;> rename_i hpc <;> rw [hpc] at hmove
  case h_1 =>
    cases hs
    exact hmove (by simp) .acquire (by simp) rfl (.same nofun) (.same nofun) ⟨rfl, rfl⟩ rfl (by simp [Pc.tested]) nofun
  case h_2 =>
    obtain ⟨hlk, rfl⟩ := acquireLk_some hs
    exact hmove (by simp) .test (by simp) rfl (.inr (.inl ⟨hlk, rfl⟩))
      (.same nofun) ⟨rfl, rfl⟩ rfl (by simp [Pc.tested]) nofun
  case h_3 =>
    split_ifs at hs with hl
    · cases hs
      exact hmove (by simp) .sleep (by simp) rfl (.same fun _ => rfl) (.same nofun) ⟨rfl, rfl⟩ rfl (fun _ => hl) nofun
    · cases hs
      exact h.take hrun hparked hpc (by simpa using hl)
  case h_4 =>
    obtain ⟨hpt, rfl⟩ := acquirePtable_some hs
    exact hmove (by simp) .both (by simp) rfl (.same fun _ => rfl) (.inr (.inl ⟨hpt, rfl⟩)) ⟨rfl, rfl⟩ rfl
      (fun _ => hp.tested (by rw [hpc]; rfl)) nofun
  case h_5 =>
    cases hs
    exact hmove (by simp) .doze (by simp) rfl .drop (.same fun _ => rfl) ⟨rfl, rfl⟩ rfl
      (fun _ => hp.tested (by rw [hpc]; rfl)) nofun
  case h_6 =>
    cases hs
    have hpt : s.ptable = some (.proc p) := hp.ptable (.inl (by rw [hpc]; rfl))
    refine h.quiet p _ rfl ?_ (.inl rfl) (.inr fun q hq => ?_) ⟨rfl, rfl⟩ (by rw [hpc]; rfl) (fun _ => .inl (.inl hpc))
      (by rw [hpc]; nofun)
    · refine ⟨nofun, ?_, fun _ hne => absurd rfl hne, fun _ => hparked, fun _ => rfl, nofun, nofun⟩
      rintro (hv | ⟨hv, -⟩)
      · exact absurd hv (by simp [Pc.holdsPtable])
      · simp at hv
    · rw [hpt]
      simpa using hq.symm
  case h_7 =>
    cases hs
    have hpt : s.ptable = some (.proc p) := hp.ptable (.inr ⟨hrun, .inl hpc⟩)
    refine h.quiet p _ rfl (ok_running hrun hparked (by simp) (by simp) nofun nofun nofun nofun) (.inl rfl)
      (.inr fun q hq => ?_) ⟨rfl, rfl⟩ (by rw [hpc]; rfl) ?_ (by rw [hpc]; nofun)
    · rw [hpt]
      simpa using hq.symm
    · rintro (hv | ⟨-, hv⟩)
      · simp at hv
      · simp at hv
  case h_8 =>
    cases hs
    exact hmove (by simp) .held (by simp) rfl .drop (.same nofun) ⟨rfl, rfl⟩ rfl (by simp [Pc.tested]) nofun
  case h_9 =>
    cases hs
    exact hmove (by simp) .release (by simp) rfl (.same nofun) (.same nofun) ⟨rfl, rfl⟩ rfl (by simp [Pc.tested]) nofun
  case h_10 =>
    obtain ⟨hlk, rfl⟩ := acquireLk_some hs
    exact hmove (by simp) .clear (by simp) rfl (.inr (.inl ⟨hlk, rfl⟩))
      (.same nofun) ⟨rfl, rfl⟩ rfl (by simp [Pc.tested]) nofun
  case h_11 =>
    cases hs
    exact h.clear hrun hparked hpc
  case h_12 =>
    obtain ⟨hpt, rfl⟩ := acquirePtable_some hs
    exact hmove (by simp) .wake (by simp) rfl (.same fun _ => rfl) (.inr (.inl ⟨hpt, rfl⟩)) ⟨rfl, rfl⟩ rfl
      (by simp [Pc.tested]) fun _ => rfl
  case h_13 =>
    cases hs
    exact h.wake hrun hparked hpc
  case h_14 =>
    cases hs
    exact hmove (by simp) .unlock (by simp) rfl (.same fun _ => rfl) .drop ⟨rfl, rfl⟩ rfl (by simp [Pc.tested]) nofun
  case h_15 =>
    cases hs
    exact hmove (by simp) .out (by simp) rfl .drop (.same nofun) ⟨rfl, rfl⟩ rfl (by simp [Pc.tested]) nofun

theorem Inv.back (hrun : (s.proc p).state = .running) (hparked : (s.proc p).parked ≠ .no)
    (chan : Option Chan) (hchan : chan ≠ some .lk) :
    Inv ({ s with ptable := none }.set p fun v => { v with chan := chan, parked := .no }) := by
  have hp := h.ok p
  have hpt : s.ptable = some (.proc p) := hp.ptable (.inr ⟨hrun, .inr hparked⟩)
  have hpc : (s.proc p).pc.preemptible = true ∧ (s.proc p).pc ≠ .asleep := by
    have hne : (s.proc p).pc ≠ .asleep := fun he => hparked (hp.asleep he)
    exact ⟨of_not_not fun hpre => hparked (hp.spin (by simpa using hpre) hne).2, hne⟩
  refine h.quiet p _ rfl ?_ (.inl rfl) (.inr fun q hq => ?_) ⟨rfl, rfl⟩ rfl ?_ id
  · refine ok_running hrun rfl hchan hpc.2 hp.lk (fun hv => ?_) hp.owns hp.tested
    have := hpc.1
    rcases hc : (s.proc p).pc <;> simp_all [Pc.preemptible, Pc.holdsPtable]
  · rw [hpt]
    simpa using hq.symm
  · rintro (hv | ⟨-, hv⟩)
    · exact .inl (.inl hv)
    · exact absurd hv hchan

theorem resume_inv (hrun : (s.proc p).state = .running) (hs : resume s p = some s') : Inv s' := by
  unfold resume at hs
  split at hs <;> rename_i hparked
  · exact run_inv h hrun hparked hs
  · cases hs
    have hne : (s.proc p).pc ≠ .asleep := fun he => by
      rw [(h.ok p).asleep he] at hparked
      simp at hparked
    exact h.back hrun (by simp [hparked]) (s.proc p).chan (h.chan hne)
  · cases hs
    exact h.back hrun (by simp [hparked]) none (by simp)

theorem Inv.park (hc : CanPark s p) (f : Proc → Proc) (hpc : (f (s.proc p)).pc = (s.proc p).pc)
    (hpid : (f (s.proc p)).pid = (s.proc p).pid) (hstate : (f (s.proc p)).state ≠ .running)
    (hchan : (f (s.proc p)).chan ≠ some .lk) : Inv (sched s p f) := by
  obtain ⟨hrun, hparked, hpre, hpt⟩ := hc
  have hp := h.ok p
  have hne : (s.proc p).pc ≠ .asleep ∧ (s.proc p).pc ≠ .doze ∧ (s.proc p).pc.holdsPtable = false := by
    rcases hcase : (s.proc p).pc <;> simp_all [Pc.preemptible, Pc.holdsPtable]
  refine h.quiet p _ rfl ?_ (.inl rfl)
    (.inr fun q _ => by simp [hpt]) ⟨rfl, rfl⟩ (by rw [hpc]) ?_ (by rw [hpc]; exact id)
  · refine ⟨fun hv => hp.lk (hpc ▸ hv), fun hv => ?_, fun hv => ?_, fun hv => ?_, fun hv => absurd hv hchan,
      fun hv => ?_, fun hv => hp.tested (hpc ▸ hv)⟩
    · rcases hv with hv | ⟨hv, -⟩
      · rw [hpc, hne.2.2] at hv
        simp at hv
      · exact absurd hv hstate
    · rw [hpc, hpre] at hv
      simp at hv
    · rw [hpc] at hv
      exact absurd hv hne.1
    · rw [hpid]
      exact hp.owns (hpc ▸ hv)
  · rintro (hv | ⟨-, hv⟩)
    · exact absurd (hpc ▸ hv) hne.2.1
    · exact absurd hv hchan

theorem kill_inv (pid : Int) : Inv (kill s pid) := by
  unfold kill
  split
  · rename_i p _
    have hp := h.ok p
    refine h.quiet p _ rfl ?_ (.inl rfl) (.inl rfl) ⟨rfl, rfl⟩ rfl ?_ id
    · dsimp only [State.set]
      split_ifs with hs
      · exact hp.woken hs rfl rfl rfl rfl rfl
      · exact ⟨hp.lk, hp.ptable, hp.spin, hp.asleep, hp.onLk, hp.owns, hp.tested⟩
    · dsimp only
      rintro (hv | ⟨hv, hc⟩)
      · exact .inl (.inl hv)
      · split_ifs at hv with hs
        exact absurd hv hs
  · exact h

theorem wakeup_inv (addr : Nat) : Inv { s with proc := fun q => wakeup1 (.other addr) (s.proc q) } := by
  have hpc : ∀ q, (wakeup1 (.other addr) (s.proc q)).pc = (s.proc q).pc := fun q => (wakeup1_same _ _).1
  refine ⟨fun q => (h.ok q).wakeup1 _, fun q r hq hr => h.unique q r (hpc q ▸ hq) (hpc r ▸ hr), fun hl => ?_, h.free,
    fun q hq => ?_⟩
  · obtain ⟨q, hq⟩ := h.owner hl
    refine ⟨q, ?_⟩
    rw [hpc, hq]
  · refine (h.wakes q (sleeps_of_wakeup1 hq)).imp_right fun ⟨r, hr⟩ => ⟨r, ?_⟩
    rw [hpc, hr]

theorem Inv.pick (hp : (s.proc p).state = .runnable) (hpt : s.ptable = none ∨ s.ptable = some .scheduler) :
    Inv ({ s with ptable := some (.proc p) }.set p fun v => { v with state := .running }) := by
  have hv := h.ok p
  refine h.quiet p _ rfl ?_ (.inl rfl) (.inr fun q _ => ?_) ⟨rfl, rfl⟩ rfl ?_ id
  · refine ⟨hv.lk, fun _ => rfl, fun hpre hne => ?_, hv.asleep, hv.onLk, hv.owns, hv.tested⟩
    have := (hv.spin hpre hne).1
    rw [hp] at this
    simp at this
  · rcases hpt with hpt | hpt <;> simp [hpt]
  · rintro (hd | ⟨hd, -⟩)
    · exact .inl (.inl hd)
    · simp at hd

theorem Inv.idle (hpt : s.ptable = some .scheduler) : Inv { s with ptable := none } := by
  refine ⟨fun q => (h.ok q).mono id (fun he => ?_) fun _ => ⟨rfl, rfl⟩, h.unique, h.owner, h.free, h.wakes⟩
  rw [hpt] at he
  simp at he

theorem step_inv {a : Act nproc} (hs : step s a = some s') : Inv s' := by
  unfold step at hs
  rcases a with p | p | ⟨p, addr⟩ | addr | pid | p | _ <;> dsimp only at hs <;> split_ifs at hs with hc
  · exact resume_inv h hc hs
  · cases hs
    refine h.park hc _ rfl rfl (by simp) (h.chan fun he => ?_)
    have := hc.2.2.1
    rw [he] at this
    exact absurd this (by simp [Pc.preemptible])
  · cases hs
    exact h.park hc _ rfl rfl (by simp) (by simp)
  · cases hs
    exact wakeup_inv h addr
  · cases hs
    exact kill_inv h pid
  · cases hs
    exact h.pick hc.1 hc.2
  · cases hs
    exact h.idle hc

end

theorem init_inv (h : Init s) : Inv s := by
  refine ⟨fun p => ?_, fun p q hp => ?_, fun hl => ?_, fun _ => by rw [h.lock], fun p hp => ?_⟩
  · have hpc := h.pc p
    refine ⟨?_, ?_, ?_, ?_, fun hv => ?_, ?_, ?_⟩
    all_goals try (simp [hpc, Pc.holdsLk, Pc.preemptible, Pc.owns, Pc.tested]; done)
    · rintro (hv | ⟨hv, hv' | hv'⟩)
      · rw [hpc] at hv
        exact absurd hv (by simp [Pc.holdsPtable])
      · rw [hpc] at hv'
        simp at hv'
      · rcases h.state p with hs | hs | hs <;> simp_all
    · rcases h.state p with hs | hs | ⟨-, -, addr, hs⟩ <;> simp_all
  · rw [h.pc] at hp
    exact absurd hp (by simp [Pc.owns])
  · rw [h.lock] at hl
    simp at hl
  · rcases hp with hp | ⟨-, hp⟩
    · rw [h.pc] at hp
      simp at hp
    · rcases h.state p with hs | hs | ⟨-, -, addr, hs⟩ <;> simp_all

/-- From the write to `lk->locked` in `acquiresleep` to the one in `releasesleep`. -/
def Holds (s : State nproc) (p : Fin nproc) : Prop := (s.proc p).pc.owns = true

/-- **A sleep-lock has at most one holder, its fields describe the holder, and no wakeup is lost.** -/
theorem sleeplock_exclusive (s : State nproc) (h : (system nproc).Reach s) :
    (∀ p q, Holds s p → Holds s q → p = q) ∧
    (∀ p, Holds s p → s.lock.locked = true ∧ s.lock.pid = (s.proc p).pid) ∧
    (s.lock.locked = true → ∃ p, Holds s p) ∧
    (s.lock.locked = false → s.lock.pid = 0) ∧
    (s.lock.lk = none → s.ptable = none → s.lock.locked = false →
      ∀ p, ¬ ((s.proc p).state = .sleeping ∧ (s.proc p).chan = some .lk)) := by
  have hi : Inv s := (system nproc).reach_inv Inv (fun _ => init_inv) (fun _ _ _ h => step_inv h) s h
  refine ⟨hi.unique, fun p => (hi.ok p).owns, hi.owner, hi.free, fun hlk _ hfree p hp => ?_⟩
  rcases hi.wakes p (.inr hp) with hl | ⟨q, hq⟩
  · rw [hl] at hfree
    simp at hfree
  · have := (hi.ok q).lk (by rcases hc : (s.proc q).pc <;> simp_all [Pc.wakes, Pc.holdsLk])
    rw [hlk] at this
    simp at this

def boot : State 2 where
  lock := { locked := false, lk := none, pid := 0 }
  ptable := none
  proc p := { state := .running, pid := p.val + 1, chan := none, killed := false, pc := .out, parked := .no }

theorem boot_init : Init boot := ⟨rfl, rfl, fun _ => rfl, fun _ => .inl ⟨rfl, rfl, rfl⟩⟩

def handOver : List (Act 2) :=
  List.replicate 4 (.run 0) ++ List.replicate 6 (.run 1) ++ [.idle] ++ List.replicate 7 (.run 0)

theorem sleeplock_exclusive_handOver : ∃ s, (system 2).Reach s ∧ s.lock.locked = false ∧ (s.proc 1).pc = .asleep ∧
    (s.proc 1).state ≠ .sleeping := by
  have hrun : ((system 2).run boot handOver).map
      (fun s => (s.lock.locked, s.lock.lk, s.ptable, (s.proc 1).pc, (s.proc 1).chan)) =
      some (false, none, none, .asleep, some .lk) := by
    decide +kernel
  obtain ⟨s, hreach, hv⟩ := (system 2).reach_of_map boot_init hrun
  simp only [Prod.mk.injEq] at hv
  obtain ⟨hl, hlk, hpt, hpc, hchan⟩ := hv
  exact ⟨s, hreach, hl, hpc, fun hsl => (sleeplock_exclusive s hreach).2.2.2.2 hlk hpt hl 1 ⟨hsl, hchan⟩⟩

end Xv6.Sleep
