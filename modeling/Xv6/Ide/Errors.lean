import Xv6.Ide.Queue

/-!
# Disk errors

A command may end with an error. `ideintr` looks at the status for reads only, and an error only makes it leave out the
transfer: the buffer is valid and clean all the same. Without errors a valid and clean buffer holds what is on the disk.
-/

open Lib Function

namespace Xv6.Ide

variable {Block : Type} {nproc nbuf : Nat}

/-- The end of a command with an error. Whatever is in the data port or in the sector then is `junk`. -/
def Controller.fail (c : Controller Block) (junk : Block) : Option (Controller Block) :=
  match c.cmd with
  | none => none
  | some cmd =>
    if cmd = IDE_CMD_READ ∨ cmd = IDE_CMD_RDMUL then some { c with cmd := none, irq := true, inp := junk }
    else
      some { c with
        cmd := none, irq := true
        disk := update c.disk c.drive (update (c.disk c.drive) c.sector junk) }

def Used (s : State Block nproc nbuf) (b : Fin nbuf) : Prop :=
  (s.buf b).valid = true ∨ (s.buf b).dirty = true ∨ ∃ p, s.call p = some b

def Alone (s : State Block nproc nbuf) (b : Fin nbuf) (addr : Nat × Nat) : Prop :=
  ∀ c, c ≠ b → Used s c → (s.buf c).addr ≠ addr

/-- What `bio.c` and its users do to a buffer: a change of its block makes it invalid, and a change of its data makes it
dirty. A caller changes the data first and marks it later, under the buffer's lock: the two are one step here. -/
structure Fair (s : State Block nproc nbuf) (b : Fin nbuf) (x : Buf Block nproc) : Prop where
  clean : x.valid = true → x.dirty = false →
    (s.buf b).valid = true ∧ (s.buf b).dirty = false ∧ (s.buf b).addr = x.addr ∧ (s.buf b).data = x.data
  alone : x.valid = true ∨ x.dirty = true → Alone s b x.addr

instance (s : State Block nproc nbuf) (b : Fin nbuf) : Decidable (Used s b) := inferInstanceAs (Decidable (_ ∨ _ ∨ _))

instance (s : State Block nproc nbuf) (b : Fin nbuf) (addr : Nat × Nat) : Decidable (Alone s b addr) :=
  inferInstanceAs (Decidable (∀ _, _))

instance [DecidableEq Block] (s : State Block nproc nbuf) (b : Fin nbuf) (x : Buf Block nproc) :
    Decidable (Fair s b x) :=
  decidable_of_iff ((x.valid = true → x.dirty = false → (s.buf b).valid = true ∧ (s.buf b).dirty = false ∧
    (s.buf b).addr = x.addr ∧
    (s.buf b).data = x.data) ∧ (x.valid = true ∨ x.dirty = true → Alone s b x.addr)) ⟨fun h => ⟨h.1, h.2⟩,
      fun h => ⟨h.clean, h.alone⟩⟩

structure Faulty (Block : Type) (nproc nbuf : Nat) where
  drv : State Block nproc nbuf
  err : Bool

inductive FaultyAct (Block : Type) (nproc nbuf : Nat) where
  | edit (p : Fin nproc) (b : Fin nbuf) (x : Buf Block nproc)
  | iderw (p : Fin nproc) (b : Fin nbuf)
  | resume (p : Fin nproc)
  | wake (p : Fin nproc)
  | finish
  | fail (junk : Block)
  | intr

def Faulty.step [DecidableEq Block] (s : Faulty Block nproc nbuf) :
    FaultyAct Block nproc nbuf → Option (Faulty Block nproc nbuf)
  | .edit p b x => if Fair s.drv b x then (Ide.step s.drv (.edit p b x)).map (⟨·, s.err⟩) else none
  | .iderw p b => if Alone s.drv b (s.drv.buf b).addr then (Ide.step s.drv (.iderw p b)).map (⟨·, s.err⟩) else none
  | .resume p => (Ide.step s.drv (.resume p)).map (⟨·, s.err⟩)
  | .wake p => (Ide.step s.drv (.wake p)).map (⟨·, s.err⟩)
  | .finish => (Ide.step s.drv .finish).map (⟨·, false⟩)
  | .fail junk => (s.drv.ide.fail junk).map fun c => ⟨{ s.drv with ide := c }, true⟩
  | .intr => if s.drv.ide.irq then (s.drv.ideintrErr s.err).map (⟨·, s.err⟩) else none

/-- After `ideinit` and `binit`. -/
structure Faulty.Init (s : Faulty Block nproc nbuf) : Prop where
  drv : Ide.Init s.drv
  buf : ∀ b, (s.drv.buf b).valid = false ∧ (s.drv.buf b).dirty = false

def faulty [DecidableEq Block] (s₀ : Faulty Block nproc nbuf) :
    System (Faulty Block nproc nbuf) (FaultyAct Block nproc nbuf) :=
  ⟨(· = s₀), Faulty.step⟩

def NoError (_ : Faulty Block nproc nbuf) : FaultyAct Block nproc nbuf → Prop
  | .fail _ => False
  | _ => True

structure Faulty.Loud (s : Faulty Block nproc nbuf) : Prop where
  /-- A valid and clean buffer has the bytes of its block. -/
  same : ∀ b, (s.drv.buf b).valid = true → (s.drv.buf b).dirty = false →
    (s.drv.buf b).data = s.drv.ide.disk (s.drv.buf b).addr.1 (s.drv.buf b).addr.2
  /-- A failed read does not make its buffer valid, and a failed write does not make it clean. -/
  failed : s.drv.ide.irq = true → s.err = true → ∀ b drv', s.drv.link none = some b →
    s.drv.ideintrErr s.err = some drv' →
    if (s.drv.buf b).dirty then (drv'.buf b).dirty = true else (drv'.buf b).valid = (s.drv.buf b).valid

variable {s s' : State Block nproc nbuf} {b : Fin nbuf} {p : Fin nproc} {q : List (Fin nbuf)}

structure Served (q : List (Fin nbuf)) (s : State Block nproc nbuf) : Prop extends Queue q s where
  alone : ∀ b, Used s b → Alone s b (s.buf b).addr
  same : ∀ b, (s.buf b).valid = true → (s.buf b).dirty = false →
    (s.buf b).data = s.ide.disk (s.buf b).addr.1 (s.buf b).addr.2

theorem alone_of (h : ∀ b, Used s b → Alone s b (s.buf b).addr) (b : Fin nbuf)
    (hothers : ∀ c, c ≠ b → Used s' c → Used s c ∧ (s'.buf c).addr = (s.buf c).addr)
    (hb : Used s' b → Alone s b (s'.buf b).addr) (c : Fin nbuf) (hc : Used s' c) : Alone s' c (s'.buf c).addr := by
  intro d hd hused
  by_cases hcb : c = b
  · subst hcb
    obtain ⟨hused', haddr⟩ := hothers d hd hused
    rw [haddr]
    exact hb hc d hd hused'
  · obtain ⟨hc', haddr⟩ := hothers c hcb hc
    rw [haddr]
    by_cases hdb : d = b
    · subst hdb
      exact (hb hused c hcb hc').symm
    · obtain ⟨hd', haddr'⟩ := hothers d hdb hused
      rw [haddr']
      exact h c hc' d hd hd'

theorem edit_served (h : Served q s) (hcall : s.call p = none)
    (hlock : (s.buf b).lock = none ∨ (s.buf b).lock = some p) {x : Buf Block nproc} (hx : Fair s b x)
    (log : List (Event Block nproc nbuf)) : Served q { s with buf := update s.buf b x, log := log } := by
  have hfree := h.not_called hcall hlock
  have hother : ∀ c, c ≠ b → update s.buf b x c = s.buf c := fun c hc => update_of_ne hc ..
  have hself : update s.buf b x b = x := update_self ..
  refine ⟨h.edit hfree x log, ?_, fun c => ?_⟩
  · refine alone_of h.alone b (fun c hc hused => ?_) fun hused => ?_
    · unfold Used at hused ⊢
      dsimp only at hused ⊢
      rw [hother c hc] at hused ⊢
      exact ⟨hused, rfl⟩
    · unfold Used at hused
      dsimp only at hused ⊢
      rw [hself] at hused ⊢
      refine hx.alone (hused.imp_right fun h => h.resolve_right ?_)
      rintro ⟨p', hp'⟩
      exact hfree p' hp'
  · dsimp only
    by_cases hc : c = b
    · subst hc
      rw [hself]
      intro hv hd
      obtain ⟨hv', hd', haddr, hdata⟩ := hx.clean hv hd
      rw [← haddr, ← hdata]
      exact h.same c hv' hd'
    · rw [hother c hc]
      exact h.same c

theorem iderw_served (h : Served q s) (hcall : s.call p = none) (halone : Alone s b (s.buf b).addr)
    (hs : s.iderw p b = some s') : Served (q ++ [b]) s' ∧ (s'.ide.irq = true → s.ide.irq = true) := by
  obtain ⟨hqueue, link, c, log, rfl, hdisk, hide⟩ := h.iderw hcall hs
  refine ⟨⟨hqueue, ?_, fun x hv hd => (h.same x hv hd).trans ?_⟩, fun hirq => ?_⟩
  · refine alone_of h.alone b (fun x hx hused => ⟨hused.imp_right fun h => h.imp_right ?_, rfl⟩) fun _ => halone
    rintro ⟨p', hp'⟩
    rcases joined_call hp' with ⟨-, rfl⟩ | ⟨-, hp'⟩
    · exact absurd rfl hx
    · exact ⟨p', hp'⟩
  · rw [← hdisk]
    rfl
  · rcases hide with ⟨-, rfl, -⟩ | ⟨-, hoff, -⟩
    · exact hirq
    · exact absurd (hoff.symm.trans hirq) Bool.false_ne_true

theorem await_served (h : Served q s) (hcall : s.call p = some b) : Served q (s.await p b) := by
  refine ⟨h.toQueue.await hcall, ?_, by simpa using h.same⟩
  have hused : ∀ c, Used (s.await p b) c → Used s c := by
    intro c hc
    unfold Used at hc
    rw [await_buf] at hc
    exact hc.imp_right fun h => h.imp_right fun ⟨p', hp'⟩ => ⟨p', await_call hcall hp'⟩
  refine alone_of h.alone b (fun c _ hc => ⟨hused c hc, by rw [await_buf]⟩) fun hc => ?_
  rw [await_buf]
  exact h.alone b (hused b hc)

theorem wake_served (h : Served q s) (p : Fin nproc) : Served q { s with asleep := update s.asleep p false } :=
  ⟨h.wake _, h.alone, h.same⟩

theorem finish_served {c : Controller Block} (h : Served q s) (hc : s.ide.finish = some c) :
    Served q { s with ide := c } := by
  obtain ⟨hqueue, b, rest, rfl, -, hdisk⟩ := h.finish hc
  refine ⟨hqueue, h.alone, fun x hv hd => (h.same x hv hd).trans ?_⟩
  rw [hdisk]
  split_ifs with hdirty
  · -- The command writes, and no other buffer is for its block.
    have hxb : x ≠ b := by
      rintro rfl
      rw [hd] at hdirty
      cases hdirty
    have haddr := h.alone b (.inr (.inl hdirty)) x hxb (.inl hv)
    rw [update_apply]
    split_ifs with hdrive
    · rw [update_of_ne fun hsector => haddr (Prod.ext hdrive hsector), hdrive]
    · rfl
  · rfl

theorem ideintr_served (h : Served q s) (hirq : s.ide.irq = true) (hs : s.ideintr = some s') : ∃ q', Served q' s' := by
  obtain ⟨b, rest, rfl, hfin, hqueue, link, c, log, rfl, hdisk, -, -⟩ := h.ideintr hirq hs
  obtain ⟨p, hp⟩ := h.owner b List.mem_cons_self
  have hself : (s.left b link c log).buf b = (s.buf b).filled s.ide.inp := update_self ..
  have hother : ∀ y, y ≠ b → (s.left b link c log).buf y = s.buf y := fun y hy => update_of_ne hy ..
  have haddr : ((s.buf b).filled s.ide.inp).addr = (s.buf b).addr := rfl
  refine ⟨rest, hqueue, ?_, fun y => ?_⟩
  · refine alone_of h.alone b (fun y hy hused => ?_) fun _ => ?_
    · unfold Used at hused ⊢
      rw [hother y hy] at hused ⊢
      exact ⟨hused, rfl⟩
    · rw [hself, haddr]
      exact h.alone b (.inr (.inr ⟨p, hp⟩))
  · change _ → _ → _ = c.disk _ _
    rw [hdisk]
    by_cases hyb : y = b
    · subst hyb
      rw [hself, haddr]
      intro _ _
      unfold Buf.filled
      split_ifs with hd
      · exact hfin.inp hd
      · exact (hfin.disk (Bool.eq_true_of_not_eq_false hd)).symm
    · rw [hother y hyb]
      exact h.same y

theorem init_served (h : Faulty.Init ⟨s, err⟩) : Served [] s := by
  have hused : ∀ b, ¬ Used s b := by
    rintro b (hv | hd | ⟨p, hp⟩)
    · rw [(h.buf b).1] at hv
      cases hv
    · rw [(h.buf b).2] at hd
      cases hd
    · rw [h.drv.call] at hp
      cases hp
  exact ⟨.init h.drv, fun b hb => absurd hb (hused b), fun b hv => absurd (.inl hv) (hused b)⟩

structure Faulty.Good (s : Faulty Block nproc nbuf) : Prop where
  served : ∃ q, Served q s.drv
  noErr : s.drv.ide.irq = true → s.err = false

variable [DecidableEq Block]

theorem step_good {t t' : Faulty Block nproc nbuf} {a : FaultyAct Block nproc nbuf} (h : t.Good) (ha : NoError t a)
    (hs : t.step a = some t') : t'.Good := by
  obtain ⟨⟨q, hq⟩, hnoErr⟩ := h
  cases a with
  | edit p b x =>
    unfold Faulty.step at hs
    dsimp only at hs
    split_ifs at hs with hfair
    obtain ⟨s', hstep, rfl⟩ := Option.map_eq_some_iff.mp hs
    unfold step at hstep
    dsimp only at hstep
    split_ifs at hstep with hcond
    cases hstep
    exact ⟨⟨q, edit_served hq hcond.1 hcond.2.1 hfair _⟩, hnoErr⟩
  | iderw p b =>
    unfold Faulty.step at hs
    dsimp only at hs
    split_ifs at hs with halone
    obtain ⟨s', hstep, rfl⟩ := Option.map_eq_some_iff.mp hs
    unfold step at hstep
    dsimp only at hstep
    split_ifs at hstep with hcall
    obtain ⟨hserved, hirq⟩ := iderw_served hq hcall halone hstep
    exact ⟨⟨_, hserved⟩, fun h => hnoErr (hirq h)⟩
  | resume p =>
    obtain ⟨s', hstep, rfl⟩ := Option.map_eq_some_iff.mp hs
    unfold step at hstep
    dsimp only at hstep
    split at hstep
    · rename_i b hcall
      split_ifs at hstep
      cases hstep
      exact ⟨⟨q, await_served hq hcall⟩, by rwa [await_ide]⟩
    · cases hstep
  | wake p =>
    cases hs
    exact ⟨⟨q, wake_served hq p⟩, hnoErr⟩
  | finish =>
    obtain ⟨s', hstep, rfl⟩ := Option.map_eq_some_iff.mp hs
    obtain ⟨c, hc, rfl⟩ := Option.map_eq_some_iff.mp hstep
    exact ⟨⟨q, finish_served hq hc⟩, fun _ => rfl⟩
  | fail junk => cases ha
  | intr =>
    unfold Faulty.step at hs
    split_ifs at hs with hirq
    rw [hnoErr hirq] at hs
    obtain ⟨s', hstep, rfl⟩ := Option.map_eq_some_iff.mp hs
    exact ⟨ideintr_served hq hirq hstep, fun _ => rfl⟩

/-- **No error is silent** in a run without errors. -/
theorem no_silent_error {s₀ s : Faulty Block nproc nbuf} (h₀ : s₀.Init) (h : (faulty s₀).ReachIf NoError s) :
    s.Loud := by
  have hgood : s.Good := by
    refine (faulty s₀).reachIf_inv NoError Faulty.Good ?_ (fun _ _ _ => step_good) s h
    rintro _ rfl
    refine ⟨⟨[], init_served h₀⟩, fun hirq => ?_⟩
    rw [h₀.drv.irq] at hirq
    cases hirq
  obtain ⟨⟨q, hq⟩, hnoErr⟩ := hgood
  refine ⟨hq.same, fun hirq herr => ?_⟩
  rw [hnoErr hirq] at herr
  cases herr

def twoBlank : Faulty Nat 1 2 where
  drv := {
    havedisk1 := true
    buf := fun b => ⟨some 0, false, false, 1, b.val, 0⟩
    link := fun _ => none
    ide := ⟨0, 0, 0, 0, 0, none, false, 0, 0, fun _ _ => 7⟩
    call := fun _ => none
    asleep := fun _ => false
    log := [] }
  err := false

theorem twoBlank_init : twoBlank.Init := ⟨⟨rfl, rfl, rfl, fun _ => rfl, rfl, rfl⟩, fun _ => ⟨rfl, rfl⟩⟩

instance (s : Faulty Block nproc nbuf) (a : FaultyAct Block nproc nbuf) : Decidable (NoError s a) :=
  match a with
  | .fail _ => .isFalse id
  | .edit .. | .iderw .. | .resume _ | .wake _ | .finish | .intr => .isTrue trivial

theorem no_silent_error_read : ∃ s, (faulty twoBlank).ReachIf NoError s ∧ s.Loud ∧ (s.drv.buf 0).valid = true ∧
    (s.drv.buf 0).data = 7 := by
  have hrun : ((faulty twoBlank).runIf NoError twoBlank [.iderw 0 0, .finish, .intr, .resume 0]).map
      (fun s => ((s.drv.buf 0).valid, (s.drv.buf 0).data)) = some (true, 7) := by decide +kernel
  obtain ⟨s, hreach, hval⟩ := (faulty twoBlank).reachIf_of_map rfl hrun
  simp only [Prod.mk.injEq] at hval
  exact ⟨s, hreach, no_silent_error twoBlank_init hreach, hval⟩

/-- A read fails and a write fails. Both buffers are valid and clean, and neither has the bytes of its block. -/
theorem errors_are_silent : twoBlank.Init ∧ ∃ s, (faulty twoBlank).Reach s ∧
    ∀ b, (s.drv.buf b).valid = true ∧ (s.drv.buf b).dirty = false ∧
      (s.drv.buf b).data ≠ s.drv.ide.disk (s.drv.buf b).addr.1 (s.drv.buf b).addr.2 := by
  have hrun : ((faulty twoBlank).run twoBlank [.iderw 0 0, .fail 0, .intr, .resume 0,
      .edit 0 1 ⟨some 0, true, true, 1, 1, 9⟩, .iderw 0 1, .fail 7, .intr, .resume 0]).map
      (fun s => decide (∀ b, (s.drv.buf b).valid = true ∧ (s.drv.buf b).dirty = false ∧
        (s.drv.buf b).data ≠ s.drv.ide.disk (s.drv.buf b).addr.1 (s.drv.buf b).addr.2)) = some true := by decide +kernel
  obtain ⟨s, hreach, hval⟩ := (faulty twoBlank).reach_of_map rfl hrun
  exact ⟨twoBlank_init, s, hreach, of_decide_eq_true hval⟩

end Xv6.Ide
