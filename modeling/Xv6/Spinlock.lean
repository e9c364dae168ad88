import Mathlib.Data.List.Nodup
import Xv6.Lib.System

/-!
# Spin-locks (`spinlock.c`)

Any number of CPUs and locks. A step goes from one access to a lock to the next: in between a CPU uses only
its own `struct cpu`, with interrupts off. A lock that is held across `swtch` stays with the CPU. The call
stack in `pcs` is left out.
-/

open Lib Function

namespace Xv6.Spin

variable {ncpu : Nat} {ι : Type}

structure Spinlock (ncpu : Nat) where
  locked : Bool
  cpu : Option (Fin ncpu)

inductive Panic (ι : Type) where
  | acquire (lk : ι) | release (lk : ι) | interruptible | popcli | mycpu
  deriving DecidableEq

inductive Call where
  | acquire | release
  deriving DecidableEq

inductive Pc (ι : Type) where
  | out
  /-- `holding` reads `lk->locked`. -/
  | locked (call : Call) (lk : ι)
  /-- `holding` reads `lk->cpu`. -/
  | cpu (call : Call) (lk : ι)
  | xchg (lk : ι)
  /-- `acquire` sets `lk->cpu`. -/
  | own (lk : ι)
  /-- `release` clears `lk->cpu`. -/
  | disown (lk : ι)
  /-- `release` clears `lk->locked`. -/
  | unlock (lk : ι)
  | panicked (p : Panic ι)
  deriving DecidableEq

/-- `IF` is the flag in `eflags`. `held` and `want` are history: the locks that `xchg` took and `release` did not
clear, and whether interrupts were on since the last `sti`, interrupt or `sched`, but for `pushcli`. -/
structure Cpu (ι : Type) where
  IF : Bool
  ncli : Int
  intena : Bool
  pc : Pc ι
  held : List ι
  want : Bool

namespace Cpu

/-- `panic` turns interrupts off. -/
def goto (k : Cpu ι) (pc : Pc ι) : Cpu ι :=
  match pc with
  | .panicked _ => { k with IF := false, pc := pc }
  | _ => { k with pc := pc }

def mycpu (k next : Cpu ι) : Cpu ι := if k.IF then k.goto (.panicked .mycpu) else next

def pushcli (k : Cpu ι) : Cpu ι :=
  { k with IF := false, intena := if k.ncli = 0 then k.IF else k.intena, ncli := k.ncli + 1 }

def popcli (k : Cpu ι) (next : Pc ι) : Cpu ι :=
  if k.IF then k.goto (.panicked .interruptible)
  else if k.ncli - 1 < 0 then { k with ncli := k.ncli - 1 }.goto (.panicked .popcli)
  else { k with ncli := k.ncli - 1, IF := decide (k.ncli - 1 = 0) && k.intena }.goto next

end Cpu

structure State (ncpu : Nat) (ι : Type) where
  lock : ι → Spinlock ncpu
  cpu : Fin ncpu → Cpu ι

namespace State

def setLock [DecidableEq ι] (s : State ncpu ι) (lk : ι) (v : Spinlock ncpu) : State ncpu ι :=
  { s with lock := update s.lock lk v }

def setCpu (s : State ncpu ι) (c : Fin ncpu) (k : Cpu ι) : State ncpu ι := { s with cpu := update s.cpu c k }

end State

/-- Where the caller of `holding` goes on. -/
def Call.next (lk : ι) : Call → Bool → Pc ι
  | .acquire, true => .panicked (.acquire lk)
  | .acquire, false => .xchg lk
  | .release, true => .disown lk
  | .release, false => .panicked (.release lk)

/-- One access of `acquire` or `release` to the lock. -/
def access [DecidableEq ι] (s : State ncpu ι) (c : Fin ncpu) : State ncpu ι :=
  let k := s.cpu c
  match k.pc with
  | .out | .panicked _ => s
  | .locked call lk => s.setCpu c (if (s.lock lk).locked then k.goto (.cpu call lk) else k.popcli (call.next lk false))
  | .cpu call lk => s.setCpu c (k.mycpu (k.popcli (call.next lk (decide ((s.lock lk).cpu = some c)))))
  | .xchg lk =>
    if (s.lock lk).locked then s
    else (s.setLock lk { s.lock lk with locked := true }).setCpu c { k with pc := .own lk, held := lk :: k.held }
  | .own lk =>
    if k.IF then s.setCpu c (k.goto (.panicked .mycpu))
    else (s.setLock lk { s.lock lk with cpu := some c }).setCpu c (k.goto .out)
  | .disown lk => (s.setLock lk { s.lock lk with cpu := none }).setCpu c (k.goto (.unlock lk))
  | .unlock lk =>
    (s.setLock lk { s.lock lk with locked := false }).setCpu c ({ k with held := k.held.erase lk }.popcli .out)

inductive Act (ncpu : Nat) (ι : Type) where
  | acquire (c : Fin ncpu) (lk : ι)
  | release (c : Fin ncpu) (lk : ι)
  | access (c : Fin ncpu)
  /-- `sti` in `scheduler`, or `iret` to code with interrupts on. -/
  | sti (c : Fin ncpu)
  /-- An interrupt, whose handler starts with interrupts off. -/
  | intr (c : Fin ncpu)
  /-- `sched` puts back the `intena` of its process. -/
  | sched (c : Fin ncpu) (intena : Bool)

/-- Kernel code calls `acquire` and `release` in any order, but turns interrupts on only without `pushcli`. -/
def step [DecidableEq ι] (s : State ncpu ι) : Act ncpu ι → Option (State ncpu ι)
  | .acquire c lk =>
    if (s.cpu c).pc = .out then some (s.setCpu c ((s.cpu c).pushcli.pushcli.goto (.locked .acquire lk))) else none
  | .release c lk =>
    if (s.cpu c).pc = .out then some (s.setCpu c ((s.cpu c).pushcli.goto (.locked .release lk))) else none
  | .access c => some (access s c)
  | .sti c =>
    if (s.cpu c).pc = .out ∧ (s.cpu c).ncli = 0 then
      some (s.setCpu c { s.cpu c with IF := true, want := true })
    else none
  | .intr c => if (s.cpu c).IF then some (s.setCpu c { s.cpu c with IF := false, pc := .out, want := false }) else none
  | .sched c intena =>
    if (s.cpu c).pc = .out ∧ (s.cpu c).ncli = 1 ∧ (s.cpu c).IF = false then
      some (s.setCpu c { s.cpu c with intena := intena, want := intena })
    else none

def system (ncpu : Nat) (ι : Type) [DecidableEq ι] : System (State ncpu ι) (Act ncpu ι) where
  init s := (∀ lk, s.lock lk = ⟨false, none⟩) ∧
    ∀ c, (s.cpu c).ncli = 0 ∧ (s.cpu c).pc = .out ∧ (s.cpu c).held = [] ∧ (s.cpu c).want = (s.cpu c).IF
  step := step

/-! ## One CPU -/

/-- The locks of a CPU and what it does next. -/
def At (held : List ι) : Pc ι → Prop
  | .xchg lk | .panicked (.release lk) => lk ∉ held
  | .own lk | .disown lk | .unlock lk | .panicked (.acquire lk) => lk ∈ held
  | .panicked _ => False
  | _ => True

/-- How often `pushcli` was called for the call in progress. -/
def Pc.depth : Pc ι → Nat
  | .locked .acquire _ | .cpu .acquire _ => 2
  | .locked .release _ | .cpu .release _ | .xchg _ | .panicked (.acquire _) => 1
  | _ => 0

def Pc.live : Pc ι → Bool
  | .panicked _ => false
  | _ => true

/-- Whether interrupts are on when every `pushcli` is undone. -/
def Cpu.outside (k : Cpu ι) : Bool := if k.ncli = 0 then k.IF else k.intena

structure Fine (k : Cpu ι) : Prop where
  nodup : k.held.Nodup
  at_pc : At k.held k.pc
  off : k.IF = true → k.ncli = 0 ∧ k.pc = .out
  ncli : k.ncli = k.held.length + k.pc.depth
  want : k.pc.live = true → k.outside = k.want

variable {k : Cpu ι} {pc : Pc ι} {s s' : State ncpu ι} {c : Fin ncpu} {lk : ι}

@[simp]
theorem goto_pc : (k.goto pc).pc = pc := by cases pc <;> rfl

@[simp]
theorem goto_held : (k.goto pc).held = k.held := by cases pc <;> rfl

@[simp]
theorem goto_ncli : (k.goto pc).ncli = k.ncli := by cases pc <;> rfl

theorem goto_live (h : pc.live = true) : k.goto pc = { k with pc := pc } := by
  cases pc <;> first | rfl | cases h

theorem live_of_IF (h : (k.goto pc).IF = true) : pc.live = true := by cases pc <;> first | rfl | cases h

theorem eq_out (hat : At [] pc) (hd : pc.depth = 0) (hl : pc.live = true) : pc = .out := by
  cases pc with
  | out => rfl
  | own | disown | unlock => exact absurd hat List.not_mem_nil
  | panicked => cases hl
  | xchg => cases hd
  | locked call | cpu call => cases call <;> cases hd

theorem fine_goto (hn : k.held.Nodup) (hat : At k.held pc) (hk : k.ncli = k.held.length + pc.depth)
    (hoff : k.IF = true → k.ncli = 0) (hw : k.outside = k.want) : Fine (k.goto pc) := by
  refine ⟨by rwa [goto_held], by rwa [goto_held, goto_pc], fun h => ?_, by rw [goto_ncli, goto_held, goto_pc,
    hk], fun h => ?_⟩
  · have hl := live_of_IF h
    rw [goto_live hl] at h
    have h0 := hoff h
    rw [goto_ncli, goto_pc]
    refine ⟨h0, eq_out ?_ (by omega) hl⟩
    rwa [List.eq_nil_of_length_eq_zero (l := k.held) (by omega)] at hat
  · rw [goto_pc] at h
    rw [goto_live h]
    exact hw

theorem Fine.goto (h : Fine k) (hl : k.pc.live = true) (hat : At k.held pc) (hd : k.pc.depth = pc.depth) :
    Fine (k.goto pc) :=
  fine_goto h.nodup hat (hd ▸ h.ncli) (fun hIF => (h.off hIF).1) (h.want hl)

theorem fine_popcli (pc : Pc ι) (hn : k.held.Nodup) (hat : At k.held pc) (hk : k.ncli = k.held.length + (pc.depth + 1))
    (hoff : k.IF = false) (hw : k.outside = k.want) :
    Fine (k.popcli pc) ∧ (k.popcli pc).held = k.held ∧ (k.popcli pc).pc = pc := by
  unfold Cpu.popcli
  rw [hoff, if_neg (by decide), if_neg (by omega)]
  refine ⟨fine_goto hn hat (by dsimp only; omega) (fun h => ?_) ?_, goto_held, goto_pc⟩
  · exact of_decide_eq_true (Bool.and_eq_true_iff.mp h).1
  · rw [Cpu.outside, if_neg (by omega)] at hw
    unfold Cpu.outside
    split_ifs with h0
    · rw [← hw, decide_eq_true h0, Bool.true_and]
    · exact hw

theorem pushcli_outside (h : 0 ≤ k.ncli) : k.pushcli.outside = k.outside := if_neg (by simp only [Cpu.pushcli]; omega)

theorem Fine.off_of_ne_out (h : Fine k) (hpc : k.pc ≠ .out) : k.IF = false :=
  Bool.eq_false_iff.mpr fun hIF => hpc (h.off hIF).2

/-! ## All CPUs -/

/-- The lock that a CPU has while `lk->cpu` is not set. -/
def Pc.busy : Pc ι → Option ι
  | .own lk | .unlock lk => some lk
  | _ => none

/-- CPU `o` has the lock. -/
structure Owned (s : State ncpu ι) (lk : ι) (o : Option (Fin ncpu)) : Prop where
  held : ∀ c, lk ∈ (s.cpu c).held ↔ o = some c
  locked : (s.lock lk).locked = o.isSome
  cpu : ∀ c, (s.lock lk).cpu = some c ↔ o = some c ∧ (s.cpu c).pc.busy ≠ some lk

structure Inv (s : State ncpu ι) : Prop where
  owned : ∀ lk, ∃ o, Owned s lk o
  fine : ∀ c, Fine (s.cpu c)

theorem Inv.alone (h : Inv s) (hm : lk ∈ (s.cpu c).held) (x : Fin ncpu) (hx : x ≠ c) : lk ∉ (s.cpu x).held := by
  obtain ⟨o, ho⟩ := h.owned lk
  exact fun hm' => hx (Option.some.inj (((ho.held x).mp hm').symm.trans ((ho.held c).mp hm)))

theorem inv_setCpu (h : Inv s) (hk : Fine k)
    (hl : ∀ l, (∃ o, Owned (s'.setCpu c k) l o) ∨ s'.lock l = s.lock l ∧ (l ∈ k.held ↔ l ∈ (s.cpu c).held) ∧
      (k.pc.busy = some l ↔ (s.cpu c).pc.busy = some l)) (hs : s'.cpu = s.cpu) : Inv (s'.setCpu c k) := by
  have hmine : (s'.setCpu c k).cpu c = k := update_self ..
  have hother : ∀ x, x ≠ c → (s'.setCpu c k).cpu x = s.cpu x := fun x hx => (update_of_ne hx ..).trans (congrFun hs x)
  refine ⟨fun l => ?_, fun x => ?_⟩
  · rcases hl l with ho | ⟨hlock, hheld, hbusy⟩
    · exact ho
    · obtain ⟨o, ho⟩ := h.owned l
      have hsame : ∀ x, (l ∈ ((s'.setCpu c k).cpu x).held ↔ l ∈ (s.cpu x).held) ∧
          (((s'.setCpu c k).cpu x).pc.busy = some l ↔ (s.cpu x).pc.busy = some l) := by
        intro x
        rcases eq_or_ne x c with rfl | hx
        · rw [hmine]; exact ⟨hheld, hbusy⟩
        · rw [hother x hx]; exact ⟨.rfl, .rfl⟩
      exact ⟨o, fun x => (hsame x).1.trans (ho.held x), (congrArg _ hlock).trans ho.locked,
        fun x => by rw [Ne, (hsame x).2]; exact (congrArg (·.cpu = some x) hlock).to_iff.trans (ho.cpu x)⟩
  · rcases eq_or_ne x c with rfl | hx
    · rwa [hmine]
    · rw [hother x hx]; exact h.fine x

theorem inv_goto (h : Inv s) (hk : Fine k) (hheld : k.held = (s.cpu c).held) (hbusy : k.pc.busy = (s.cpu c).pc.busy) :
    Inv (s.setCpu c k) := inv_setCpu h hk (fun l => .inr ⟨rfl, by rw [hheld], by rw [hbusy]⟩) rfl

theorem inv_next {call : Call} {r : Bool} (h : Inv s) (hpc : (s.cpu c).pc = .locked call lk ∨
    (s.cpu c).pc = .cpu call lk)
    (hr : r = true ↔ lk ∈ (s.cpu c).held) : Inv (s.setCpu c ((s.cpu c).popcli (call.next lk r))) := by
  have hf := h.fine c
  have hat : At (s.cpu c).held (call.next lk r) := by
    cases r with
    | true => cases call <;> exact hr.mp rfl
    | false => cases call <;> exact fun hm => absurd (hr.mpr hm) (by decide)
  have hd : (s.cpu c).pc.depth = (call.next lk r).depth + 1 := by
    rcases hpc with e | e <;> rw [e] <;> cases call <;> cases r <;> rfl
  obtain ⟨hfine, hheld, hpc'⟩ := fine_popcli _ hf.nodup hat (by rw [hf.ncli, hd]; rfl)
    (hf.off_of_ne_out (by rcases hpc with e | e <;> simp [e])) (hf.want (by rcases hpc with e | e <;> rw [e] <;> rfl))
  refine inv_goto h hfine hheld ?_
  rw [hpc']
  rcases hpc with e | e <;> rw [e] <;> cases call <;> cases r <;> rfl

variable [DecidableEq ι]

theorem inv_setLock {v : Spinlock ncpu} (h : Inv s) (hk : Fine k) (halone : ∀ x, x ≠ c → lk ∉ (s.cpu x).held)
    (hheld : ∀ l, l ≠ lk → (l ∈ k.held ↔ l ∈ (s.cpu c).held))
    (hbusy : (∀ l, k.pc.busy = some l → l = lk) ∧ ∀ l, (s.cpu c).pc.busy = some l → l = lk)
    (hlocked : v.locked = decide (lk ∈ k.held)) (hcpu : v.cpu = if lk ∈ k.held ∧ k.pc.busy ≠ some lk then some c
      else none) :
    Inv ((s.setLock lk v).setCpu c k) := by
  refine inv_setCpu h hk (fun l => ?_) rfl
  rcases eq_or_ne l lk with rfl | hl
  · have hv : ((s.setLock l v).setCpu c k).lock l = v := update_self ..
    have hmine : ((s.setLock l v).setCpu c k).cpu c = k := update_self ..
    refine .inl ⟨if l ∈ k.held then some c else none, fun x => ?_, ?_, fun x => ?_⟩
    · rcases eq_or_ne x c with rfl | hx
      · simp [hmine]
      · rw [show ((s.setLock l v).setCpu c k).cpu x = s.cpu x from update_of_ne hx ..]
        refine iff_of_false (halone x hx) ?_
        split_ifs <;> simp [hx.symm]
    · rw [hv, hlocked]
      split_ifs with hm <;> simp [hm]
    · rw [hv, hcpu]
      by_cases hm : l ∈ k.held
      · rcases eq_or_ne x c with rfl | hx
        · simp [hm, hmine]
        · simp [hm, hx.symm]
      · simp [hm]
  · exact .inr ⟨update_of_ne hl .., hheld l hl, iff_of_false (fun e => hl (hbusy.1 l e)) fun e => hl (hbusy.2 l e)⟩

theorem inv_own (pc : Pc ι) (v : Option (Fin ncpu)) (h : Inv s)
    (hpc : (s.cpu c).pc = .own lk ∨ (s.cpu c).pc = .disown lk)
    (hm : lk ∈ (s.cpu c).held) (hd : pc.depth = 0) (hat : At (s.cpu c).held pc) (hbusy : ∀ l, pc.busy = some l → l = lk)
    (hv : v = if pc.busy ≠ some lk then some c else none) :
    Inv ((s.setLock lk { s.lock lk with cpu := v }).setCpu c ((s.cpu c).goto pc)) := by
  obtain ⟨o, ho⟩ := h.owned lk
  have hpc' : (s.cpu c).pc.live = true ∧ (s.cpu c).pc.depth = pc.depth ∧ ∀ l, (s.cpu c).pc.busy = some l → l = lk := by
    rw [hd]
    rcases hpc with e | e <;> simp [e, Pc.live, Pc.depth, Pc.busy, eq_comm]
  refine inv_setLock h ((h.fine c).goto hpc'.1 hat hpc'.2.1) (h.alone hm) (fun l _ => by rw [goto_held])
    ⟨by rwa [goto_pc], hpc'.2.2⟩ ?_ ?_
  · simp [ho.locked, (ho.held c).mp hm, hm]
  · simp [hm, hv]

theorem inv_access (h : Inv s) : Inv (access s c) := by
  have hf := h.fine c
  have hat := hf.at_pc
  have hk := hf.ncli
  have hoff := hf.off_of_ne_out
  cases hpc : (s.cpu c).pc with
  | out | panicked p => simpa only [access, hpc] using h
  | locked call lk =>
    obtain ⟨o, ho⟩ := h.owned lk
    simp only [access, hpc]
    split_ifs with hl
    · refine inv_goto h (hf.goto (by rw [hpc]; rfl) trivial ?_) goto_held (by rw [goto_pc, hpc]; rfl)
      rw [hpc]; cases call <;> rfl
    · refine inv_next h (.inl hpc) (iff_of_false (by decide) fun hm => hl ?_)
      rw [ho.locked, (ho.held c).mp hm]; rfl
  | cpu call lk =>
    obtain ⟨o, ho⟩ := h.owned lk
    simp only [access, hpc, Cpu.mycpu, hoff (by simp [hpc])]
    refine inv_next h (.inr hpc) ?_
    rw [decide_eq_true_iff, ho.cpu, ho.held, hpc]
    exact and_iff_left (by simp [Pc.busy])
  | xchg lk =>
    obtain ⟨o, ho⟩ := h.owned lk
    simp only [access, hpc]
    split_ifs with hl
    · exact h
    · have ho' : o = none := by simpa [ho.locked] using hl
      have hnot : ∀ x, lk ∉ (s.cpu x).held := fun x hm => by simp [ho', ho.held] at hm
      refine inv_setLock h ⟨List.nodup_cons.mpr ⟨hnot c, hf.nodup⟩, List.mem_cons_self, by simp [hoff, hpc],
          by simp [hk, hpc, Pc.depth], fun _ => hf.want (by rw [hpc]; rfl)⟩
        (fun x _ => hnot x) (fun l hl => by simp [hl]) ⟨by simp [Pc.busy], by simp [hpc, Pc.busy]⟩ (by simp) ?_
      rw [if_neg (by simp [Pc.busy])]
      exact Option.eq_none_iff_forall_ne_some.mpr fun x e => by simp [ho', ho.cpu] at e
  | own lk =>
    rw [hpc] at hat
    simp only [access, hpc, hoff (by simp [hpc]), Bool.false_eq_true, if_false]
    exact inv_own .out (some c) h (.inl hpc) hat rfl trivial (by simp [Pc.busy]) rfl
  | disown lk =>
    rw [hpc] at hat
    simp only [access, hpc]
    exact inv_own (.unlock lk) none h (.inr hpc) hat rfl hat (by simp [Pc.busy, eq_comm]) (by simp [Pc.busy])
  | unlock lk =>
    rw [hpc] at hat hk
    simp only [access, hpc]
    obtain ⟨o, ho⟩ := h.owned lk
    have hpos := List.length_pos_of_mem hat
    have hlen := List.length_erase_of_mem hat
    obtain ⟨hfine, hheld, hpc'⟩ :=
      fine_popcli (k := { s.cpu c with pc := .unlock lk, held := (s.cpu c).held.erase lk }) .out
      (hf.nodup.erase lk) trivial (by simp only [Pc.depth] at hk ⊢; omega) (hoff (by simp [hpc]))
      (hf.want (by rw [hpc]; rfl))
    refine inv_setLock h hfine (h.alone hat) (fun l hl => by rw [hheld]; exact List.mem_erase_of_ne hl)
      ⟨by simp [hpc', Pc.busy], by simp [hpc, Pc.busy, eq_comm]⟩ ?_ ?_
    · simp [hheld, hf.nodup.not_mem_erase]
    · rw [hheld, if_neg (by simp [hf.nodup.not_mem_erase])]
      refine Option.eq_none_iff_forall_ne_some.mpr fun x e => ?_
      obtain ⟨hx, hb⟩ := (ho.cpu x).mp e
      cases ((ho.held c).mp hat).symm.trans hx
      exact hb (by rw [hpc]; rfl)

theorem inv_step (s : State ncpu ι) (a : Act ncpu ι) (s' : State ncpu ι) (h : Inv s) (hs : step s a = some s') :
    Inv s' := by
  cases a with
  | access c => cases hs; exact inv_access h
  | acquire c lk | release c lk =>
    obtain ⟨hpc, hs⟩ := Option.ite_none_right_eq_some.mp hs
    cases hs
    have hk := (h.fine c).ncli
    simp only [hpc, Pc.depth] at hk
    refine inv_goto h (fine_goto (h.fine c).nodup trivial ?_ (by simp [Cpu.pushcli]) ?_) goto_held
      (by rw [goto_pc, hpc]; rfl)
    · simp only [Cpu.pushcli, Pc.depth]; omega
    · refine Eq.trans ?_ ((h.fine c).want (by rw [hpc]; rfl))
      simp (disch := first | omega | (simp only [Cpu.pushcli]; omega)) only [pushcli_outside]
  | sti c =>
    obtain ⟨⟨hpc, h0⟩, hs⟩ := Option.ite_none_right_eq_some.mp hs
    cases hs
    exact inv_goto h { h.fine c with off := fun _ => ⟨h0, hpc⟩, want := fun _ => if_pos h0 } rfl rfl
  | intr c =>
    obtain ⟨hIF, hs⟩ := Option.ite_none_right_eq_some.mp hs
    cases hs
    obtain ⟨h0, hpc⟩ := (h.fine c).off hIF
    exact inv_goto h ⟨(h.fine c).nodup, trivial, by simp, by rw [← hpc]; exact (h.fine c).ncli, fun _ => if_pos h0⟩ rfl
      (by rw [hpc])
  | sched c intena =>
    obtain ⟨⟨-, h1, -⟩, hs⟩ := Option.ite_none_right_eq_some.mp hs
    cases hs
    exact inv_goto h { h.fine c with want := fun _ => if_neg (by simp [h1]) } rfl rfl

theorem inv_of_reach (h : (system ncpu ι).Reach s) : Inv s := by
  refine (system ncpu ι).reach_inv Inv (fun s hs => ⟨fun lk => ⟨none, ?_, ?_, ?_⟩, fun c => ?_⟩) inv_step s h
  · simp [hs.2]
  · simp [hs.1]
  · simp [hs.1]
  · obtain ⟨h0, hpc, hheld, hw⟩ := hs.2 c
    exact ⟨by simp [hheld], by rw [hpc]; trivial, fun _ => ⟨h0, hpc⟩, by rw [hpc, h0, hheld]; rfl,
      fun _ => (if_pos h0).trans hw.symm⟩

/-- **A spin-lock has at most one owner, whose interrupts are off.** The word `locked` tells whether there is one.
A CPU that spins never waits for itself. -/
theorem spinlock_exclusive (h : (system ncpu ι).Reach s) (lk : ι) :
    (∀ c c', lk ∈ (s.cpu c).held → lk ∈ (s.cpu c').held → c = c') ∧
      ((s.lock lk).locked = true ↔ ∃ c, lk ∈ (s.cpu c).held) ∧
      (∀ c, lk ∈ (s.cpu c).held → (s.cpu c).IF = false) ∧
      ∀ c, (s.cpu c).pc = .xchg lk → (s.lock lk).locked = true → ∃ c', c' ≠ c ∧ lk ∈ (s.cpu c').held := by
  have hi := inv_of_reach h
  obtain ⟨o, ho⟩ := hi.owned lk
  have hlocked : (s.lock lk).locked = true ↔ ∃ c, lk ∈ (s.cpu c).held := by
    simp only [ho.locked, ho.held, Option.isSome_iff_exists]
  refine ⟨fun c c' hm hm' => ?_, hlocked, fun c hm => ?_, fun c hpc hl => ?_⟩
  · exact not_not.mp fun hne => hi.alone hm' c hne hm
  · refine Bool.eq_false_iff.mpr fun hIF => ?_
    have := (hi.fine c).ncli
    have := ((hi.fine c).off hIF).1
    have := List.length_pos_of_mem hm
    omega
  · obtain ⟨c', hm⟩ := hlocked.mp hl
    have hat := (hi.fine c).at_pc
    rw [hpc] at hat
    exact ⟨c', fun e => hat (e ▸ hm), hm⟩

def boot : State 4 Unit := ⟨fun _ => ⟨false, none⟩, fun _ => ⟨false, 0, false, .out, [], false⟩⟩

/-- CPU 3 takes the lock and gives it back. Then CPU 0 has it, CPU 1 spins, and CPU 2 releases what it does not have. -/
def contended : List (Act 4 Unit) :=
  [.sti 3, .acquire 3 (), .access 3, .access 3, .access 3, .release 3 (), .access 3, .access 3, .access 3, .access 3,
    .acquire 0 (), .access 0, .access 0, .access 0, .acquire 1 (), .access 1, .access 1, .access 1,
    .release 2 (), .access 2, .access 2]

theorem contended_run : ∃ s, (system 4 Unit).Reach s ∧ (s.cpu 1).pc = .xchg () ∧
    (s.cpu 2).pc = .panicked (.release ()) ∧
    (s.cpu 3).pc = .out ∧ (s.cpu 3).held = [] ∧ (s.lock ()).locked = true ∧ (s.cpu 3).want = true := by
  have hrun : ((system 4 Unit).run boot contended).map (fun s => ((s.cpu 1).pc, (s.cpu 2).pc, (s.cpu 3).pc,
    (s.cpu 3).held,
      (s.lock ()).locked && (s.cpu 3).want)) = some (.xchg (), .panicked (.release ()), .out, [], true) := by
        decide +kernel
  obtain ⟨s, hreach, hv⟩ := (system 4 Unit).reach_of_map ((by simp [system, boot])) hrun
  simp only [Prod.mk.injEq, Bool.and_eq_true] at hv
  exact ⟨s, hreach, hv⟩

theorem spinlock_exclusive_contended : ∃ s, (system 4 Unit).Reach s ∧ (s.cpu 1).pc = .xchg () ∧
    ∃ c, c ≠ 1 ∧ () ∈ (s.cpu c).held := by
  obtain ⟨s, h, hpc, -, -, -, hl, -⟩ := contended_run
  exact ⟨s, h, hpc, (spinlock_exclusive h ()).2.2.2 1 hpc hl⟩

/-- **Only misuse panics**: an `acquire` of a lock that the CPU has, or a `release` of one that it does not have. -/
theorem panic_of_misuse (h : (system ncpu ι).Reach s) (c : Fin ncpu) (p : Panic ι) (hp : (s.cpu c).pc = .panicked p) :
    (∃ lk ∈ (s.cpu c).held, p = .acquire lk) ∨ ∃ lk ∉ (s.cpu c).held, p = .release lk := by
  have hat := ((inv_of_reach h).fine c).at_pc
  rw [hp] at hat
  cases p with
  | acquire lk => exact .inl ⟨lk, hat, rfl⟩
  | release lk => exact .inr ⟨lk, hat, rfl⟩
  | interruptible | popcli | mycpu => exact hat.elim

theorem panic_of_misuse_contended : ∃ s, (system 4 Unit).Reach s ∧ (s.cpu 2).pc = .panicked (.release ()) ∧
    () ∉ (s.cpu 2).held := by
  obtain ⟨s, h, -, hp, -⟩ := contended_run
  refine ⟨s, h, hp, ?_⟩
  rcases panic_of_misuse h 2 _ hp with ⟨_, _, e⟩ | ⟨_, hm, -⟩
  · cases e
  · exact hm

/-- **Interrupts come back as they were.** Outside the calls a CPU is as deep in `pushcli` as it has locks. Without
locks its interrupts are on or off as the last `sti`, interrupt or `sched` left them. -/
theorem interrupts_restored (h : (system ncpu ι).Reach s) (c : Fin ncpu) (hout : (s.cpu c).pc = .out) :
    (s.cpu c).ncli = (s.cpu c).held.length ∧ ((s.cpu c).held = [] → (s.cpu c).IF = (s.cpu c).want) := by
  have hf := (inv_of_reach h).fine c
  have hn : (s.cpu c).ncli = (s.cpu c).held.length := by simpa [hout, Pc.depth] using hf.ncli
  refine ⟨hn, fun hh => ?_⟩
  have hw := hf.want (by rw [hout]; rfl)
  rwa [Cpu.outside, if_pos (by rw [hn, hh]; rfl)] at hw

theorem interrupts_restored_contended : ∃ s, (system 4 Unit).Reach s ∧ (s.cpu 3).pc = .out ∧ (s.cpu 3).IF = true := by
  obtain ⟨s, h, -, -, hout, hheld, -, hw⟩ := contended_run
  exact ⟨s, h, hout, ((interrupts_restored h 3 hout).2 hheld).trans hw⟩

end Xv6.Spin
