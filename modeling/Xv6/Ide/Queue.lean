import Mathlib
import Xv6.Ide.Code

/-!
# The queue of the driver

The buffers of the open requests hang on `idequeue`. Each of them has a process that waits for it, and the controller
is at the command of the first.
-/

open Lib Function

namespace Xv6.Ide

variable {Block : Type} {nproc nbuf : Nat}

/-! ## Commands -/

section

variable {c : Controller Block} {x : Buf Block nproc}

/-- The drive and the block that `idestart` asks for. -/
def Buf.addr (x : Buf Block nproc) : Nat × Nat := (x.dev % 2, x.blockno)

/-- What `ideintr` leaves in the buffer of a command without an error. -/
def Buf.filled (x : Buf Block nproc) (inp : Block) : Buf Block nproc :=
  { x with data := if x.dirty = false then inp else x.data, valid := true, dirty := false }

structure Underway (c : Controller Block) (x : Buf Block nproc) : Prop where
  irq : c.irq = false
  drive : c.drive = x.addr.1
  sector : c.sector = x.addr.2
  cmd : c.cmd = some (if x.dirty then IDE_CMD_WRITE else IDE_CMD_READ)
  out : x.dirty = true → c.out = x.data

structure Finished (c : Controller Block) (x : Buf Block nproc) : Prop where
  irq : c.irq = true
  cmd : c.cmd = none
  disk : x.dirty = true → c.disk x.addr.1 x.addr.2 = x.data
  inp : x.dirty = false → c.inp = c.disk x.addr.1 x.addr.2

theorem Underway.finish (h : Underway c x) : ∃ c', c.finish = some c' ∧ Finished c' x ∧
    c'.disk = if x.dirty then update c.disk x.addr.1 (update (c.disk x.addr.1) x.addr.2 x.data) else c.disk := by
  unfold Controller.finish
  rw [h.cmd]
  cases hd : x.dirty with
  | false =>
    refine ⟨_, rfl, ⟨rfl, rfl, ?_, fun _ => ?_⟩, rfl⟩
    · rw [hd]
      nofun
    · rw [h.drive, h.sector]
  | true =>
    have hwrite : ¬ (IDE_CMD_WRITE = IDE_CMD_READ ∨ IDE_CMD_WRITE = IDE_CMD_RDMUL) := by decide
    simp only [if_true, if_neg hwrite, h.drive, h.sector, h.out hd]
    refine ⟨_, rfl, ⟨rfl, rfl, fun _ => ?_, ?_⟩, rfl⟩
    · simp
    · rw [hd]
      nofun

theorem finish_busy {c' : Controller Block} (h : c.finish = some c') : ∃ cmd, c.cmd = some cmd := by
  cases hcmd : c.cmd with
  | none =>
    unfold Controller.finish at h
    rw [hcmd] at h
    cases h
  | some cmd => exact ⟨cmd, rfl⟩

end

variable {s s' : State Block nproc nbuf} {b : Fin nbuf} {p : Fin nproc} {q rest : List (Fin nbuf)}

theorem idestart_eq (hblock : (s.buf b).blockno < FSSIZE) (hcmd : s.ide.cmd = none) (hirq : s.ide.irq = false) :
    ∃ c, s.idestart b = some { s with ide := c, log := .started b :: s.log } ∧ Underway c (s.buf b) ∧
      c.disk = s.ide.disk := by
  have hlt : (s.buf b).blockno < 1000 := hblock
  have hsector : (s.buf b).blockno * (BSIZE / SECTOR_SIZE) % 2 ^ 32 = (s.buf b).blockno := by
    rw [show BSIZE / SECTOR_SIZE = 1 from rfl]
    omega
  have hhigh : (s.buf b).blockno / 2 ^ 24 % 2 ^ 4 = 0 := by omega
  have hdevice : (0xe0 ||| (s.buf b).dev % 2 * 2 ^ 4 ||| 0) = 0xe0 + (s.buf b).dev % 2 * 2 ^ 4 := by
    rcases Nat.mod_two_eq_zero_or_one (s.buf b).dev with h | h <;> rw [h] <;> decide
  unfold State.idestart
  rw [if_neg (Nat.not_le.mpr hblock), if_neg (by decide), hcmd, if_neg (by simp), hsector, hhigh, hdevice]
  refine ⟨_, rfl, ⟨hirq, ?_, ?_, rfl, fun hd => if_pos hd⟩, rfl⟩
  · unfold Controller.drive Buf.addr
    dsimp only
    omega
  · unfold Controller.sector Buf.addr
    dsimp only
    omega

theorem idestart_some (hs : s.idestart b = some s') : (s.buf b).blockno < FSSIZE := by
  by_contra hlt
  unfold State.idestart at hs
  rw [if_pos (Nat.not_lt.mp hlt)] at hs
  cases hs

/-! ## The queue -/

structure Queue (q : List (Fin nbuf)) (s : State Block nproc nbuf) : Prop where
  chain : Chain s.link none q
  nodup : q.Nodup
  owner : ∀ b ∈ q, ∃ p, s.call p = some b
  locks : ∀ p b, s.call p = some b → (s.buf b).lock = some p
  flags : ∀ b ∈ q, ¬ ((s.buf b).valid = true ∧ (s.buf b).dirty = false)
  idle : q = [] → s.ide.cmd = none ∧ s.ide.irq = false
  head : ∀ b ∈ q.head?, Underway s.ide (s.buf b) ∨ Finished s.ide (s.buf b)

theorem Queue.init (h : Init s) : Queue [] s := by
  refine ⟨h.link, List.nodup_nil, nofun, fun p b hp => ?_, nofun, fun _ => ⟨h.cmd, h.irq⟩, nofun⟩
  rw [h.call] at hp
  cases hp

theorem Queue.not_called (h : Queue q s) (hcall : s.call p = none)
    (hlock : (s.buf b).lock = none ∨ (s.buf b).lock = some p) (p' : Fin nproc) : s.call p' ≠ some b := by
  intro hp'
  have hlock' := h.locks p' b hp'
  rcases hlock with hl | hl
  · rw [hl] at hlock'
    cases hlock'
  · rw [hl] at hlock'
    cases hlock'
    rw [hcall] at hp'
    cases hp'

theorem Queue.not_queued (h : Queue q s) (hfree : ∀ p, s.call p ≠ some b) : b ∉ q := by
  intro hmem
  obtain ⟨p, hp⟩ := h.owner b hmem
  exact hfree p hp

theorem Queue.underway (h : Queue q s) (hcmd : s.ide.cmd ≠ none) :
    ∃ b rest, q = b :: rest ∧ Underway s.ide (s.buf b) := by
  cases q with
  | nil => exact absurd (h.idle rfl).1 hcmd
  | cons b rest => exact ⟨b, rest, rfl, (h.head b rfl).resolve_right fun hfin => hcmd hfin.cmd⟩

theorem Queue.finished (h : Queue q s) (hirq : s.ide.irq = true) :
    ∃ b rest, q = b :: rest ∧ Finished s.ide (s.buf b) := by
  have hne : s.ide.irq ≠ false := by rw [hirq]; decide
  cases q with
  | nil => exact absurd (h.idle rfl).2 hne
  | cons b rest => exact ⟨b, rest, rfl, (h.head b rfl).resolve_left fun hunder => hne hunder.irq⟩

/-! ## The steps -/

theorem Queue.edit (h : Queue q s) (hfree : ∀ p, s.call p ≠ some b) (x : Buf Block nproc)
    (log : List (Event Block nproc nbuf)) : Queue q { s with buf := update s.buf b x, log := log } := by
  have hb := h.not_queued hfree
  have hqueue : ∀ c ∈ q, update s.buf b x c = s.buf c := by
    intro c hc
    have hcb : c ≠ b := fun hcb => hb (hcb ▸ hc)
    exact update_of_ne hcb ..
  refine ⟨h.chain, h.nodup, h.owner, fun p' c hp' => ?_, fun c hc => ?_, h.idle, fun c hc => ?_⟩
  · have hcb : c ≠ b := fun hcb => hfree p' (hcb ▸ hp')
    dsimp only
    rw [update_of_ne hcb]
    exact h.locks p' c hp'
  · dsimp only
    rw [hqueue c hc]
    exact h.flags c hc
  · dsimp only
    rw [hqueue c (List.mem_of_mem_head? hc)]
    exact h.head c hc

/-- The request `b` of `p` behind the others. -/
def State.joined (s : State Block nproc nbuf) (p : Fin nproc) (b : Fin nbuf)
    (link : Option (Fin nbuf) → Option (Fin nbuf)) (c : Controller Block) (log : List (Event Block nproc nbuf)) :
    State Block nproc nbuf :=
  { s with link := link, ide := c, log := log, call := update s.call p (some b), asleep := update s.asleep p true }

theorem joined_call {link : Option (Fin nbuf) → Option (Fin nbuf)} {c : Controller Block}
    {log : List (Event Block nproc nbuf)} {p' : Fin nproc} {b' : Fin nbuf}
    (h : (s.joined p b link c log).call p' = some b') : p' = p ∧ b' = b ∨ p' ≠ p ∧ s.call p' = some b' := by
  unfold State.joined at h
  dsimp only at h
  rcases eq_or_ne p' p with rfl | hne
  · rw [update_self] at h
    exact .inl ⟨rfl, (Option.some.inj h).symm⟩
  · rw [update_of_ne hne] at h
    exact .inr ⟨hne, h⟩

theorem Queue.join {link : Option (Fin nbuf) → Option (Fin nbuf)} {c : Controller Block} (h : Queue q s)
    (hcall : s.call p = none) (hlock : (s.buf b).lock = some p)
    (hflags : ¬ ((s.buf b).valid = true ∧ (s.buf b).dirty = false)) (hchain : Chain link none (q ++ [b]))
    (hhead : ∀ x ∈ (q ++ [b]).head?, Underway c (s.buf x) ∨ Finished c (s.buf x))
    (log : List (Event Block nproc nbuf)) : Queue (q ++ [b]) (s.joined p b link c log) := by
  have hb := h.not_queued (h.not_called hcall (.inr hlock))
  constructor
  · exact hchain
  · exact List.nodup_append.mpr ⟨h.nodup, List.nodup_singleton b, fun x hx y hy => by
      rintro rfl
      exact hb (List.mem_singleton.mp hy ▸ hx)⟩
  · intro x hx
    rcases List.mem_append.mp hx with hx | hx
    · obtain ⟨p', hp'⟩ := h.owner x hx
      refine ⟨p', (update_of_ne ?_ ..).trans hp'⟩
      rintro rfl
      rw [hcall] at hp'
      cases hp'
    · obtain rfl := List.mem_singleton.mp hx
      exact ⟨p, update_self ..⟩
  · intro p' b' hp'
    rcases joined_call hp' with ⟨rfl, rfl⟩ | ⟨-, hp'⟩
    · exact hlock
    · exact h.locks p' b' hp'
  · intro x hx
    rcases List.mem_append.mp hx with hx | hx
    · exact h.flags x hx
    · obtain rfl := List.mem_singleton.mp hx
      exact hflags
  · exact fun hnil => absurd hnil (List.append_ne_nil_of_right_ne_nil q (List.cons_ne_nil b []))
  · exact hhead

theorem Queue.iderw_eq (h : Queue q s) (hcall : s.call p = none) (hlock : (s.buf b).lock = some p)
    (hflags : ¬ ((s.buf b).valid = true ∧ (s.buf b).dirty = false))
    (hdisk1 : ¬ ((s.buf b).dev ≠ 0 ∧ s.havedisk1 = false)) :
    ∃ link, Chain link none (q ++ [b]) ∧ s.iderw p b = (if q = [] then
      State.idestart b { s with link := link, log := .queued p b :: s.log }
      else some { s with link := link, log := .queued p b :: s.log }).map (State.await p b) := by
  have hb := h.not_queued (h.not_called hcall (.inr hlock))
  have hlen : q.length < nbuf + 1 := by
    have := h.nodup.length_le_card
    rw [Fintype.card_fin] at this
    omega
  obtain ⟨e, hseek, hchain⟩ := chain_push h.chain h.nodup hb (nbuf + 1) hlen
  refine ⟨_, hchain, ?_⟩
  unfold State.iderw
  rw [if_neg (not_not.mpr hlock), if_neg hflags, if_neg hdisk1]
  dsimp only
  rw [hseek, Option.bind_some]
  cases q with
  | nil => rw [if_pos hchain.1, if_pos rfl]
  | cons y q =>
    have hne : some y ≠ some b := fun he => hb (Option.some.inj he ▸ List.mem_cons_self)
    rw [if_neg (by rw [hchain.1]; exact hne), if_neg (List.cons_ne_nil y q)]

theorem iderw_takes (hs : s.iderw p b = some s') : (s.buf b).lock = some p ∧
    ¬ ((s.buf b).valid = true ∧ (s.buf b).dirty = false) ∧ ¬ ((s.buf b).dev ≠ 0 ∧ s.havedisk1 = false) := by
  unfold State.iderw at hs
  split_ifs at hs with hlock hflags hdisk1
  exact ⟨not_not.mp hlock, hflags, hdisk1⟩

theorem Queue.iderw (h : Queue q s) (hcall : s.call p = none) (hs : s.iderw p b = some s') :
    Queue (q ++ [b]) s' ∧ ∃ link c log, s' = s.joined p b link c log ∧ c.disk = s.ide.disk ∧
      (q ≠ [] ∧ c = s.ide ∧ log = .queued p b :: s.log ∨
        q = [] ∧ c.irq = false ∧ log = .started b :: .queued p b :: s.log) := by
  obtain ⟨hlock, hflags, hdisk1⟩ := iderw_takes hs
  obtain ⟨link, hchain, heq⟩ := h.iderw_eq hcall hlock hflags hdisk1
  rw [heq] at hs
  obtain ⟨s₁, hs₁, rfl⟩ := Option.map_eq_some_iff.mp hs
  split_ifs at hs₁ with hq
  · subst hq
    obtain ⟨c, hstart, hunder, hdisk⟩ := idestart_eq (idestart_some hs₁) (h.idle rfl).1 (h.idle rfl).2
    obtain rfl := Option.some.inj (hstart.symm.trans hs₁)
    have hjoin := h.join hcall hlock hflags hchain (by simpa using .inl hunder) (.started b :: .queued p b :: s.log)
    unfold State.await
    rw [if_neg hflags]
    exact ⟨hjoin, link, c, _, rfl, hdisk, .inr ⟨rfl, hunder.irq, rfl⟩⟩
  · cases hs₁
    have hhead : ∀ x ∈ (q ++ [b]).head?, Underway s.ide (s.buf x) ∨ Finished s.ide (s.buf x) := by
      rw [List.head?_append_of_ne_nil q hq]
      exact h.head
    have hjoin := h.join hcall hlock hflags hchain hhead (.queued p b :: s.log)
    unfold State.await
    rw [if_neg hflags]
    exact ⟨hjoin, link, s.ide, _, rfl, rfl, .inl ⟨hq, rfl, rfl⟩⟩

theorem Queue.wake (h : Queue q s) (asleep : Fin nproc → Bool) : Queue q { s with asleep := asleep } :=
  ⟨h.chain, h.nodup, h.owner, h.locks, h.flags, h.idle, h.head⟩

theorem await_call {p' : Fin nproc} {b' : Fin nbuf} (hcall : s.call p = some b)
    (h : (s.await p b).call p' = some b') : s.call p' = some b' := by
  unfold State.await at h
  split_ifs at h
  all_goals
    dsimp only at h
    rw [update_apply] at h
    split_ifs at h with hp
  · exact h
  · rwa [hp, hcall]
  · exact h

@[simp] theorem await_buf : (s.await p b).buf = s.buf := by unfold State.await; split_ifs <;> rfl
@[simp] theorem await_link : (s.await p b).link = s.link := by unfold State.await; split_ifs <;> rfl
@[simp] theorem await_ide : (s.await p b).ide = s.ide := by unfold State.await; split_ifs <;> rfl

theorem Queue.await (h : Queue q s) (hcall : s.call p = some b) : Queue q (s.await p b) := by
  refine ⟨by simpa using h.chain, h.nodup, fun x hx => ?_, fun p' b' hp' => ?_, by simpa using h.flags,
    by simpa using h.idle, by simpa using h.head⟩
  · obtain ⟨p', hp'⟩ := h.owner x hx
    refine ⟨p', ?_⟩
    unfold State.await
    rcases eq_or_ne p' p with rfl | hne
    · obtain rfl := Option.some.inj (hcall.symm.trans hp')
      rw [if_neg (h.flags b hx)]
      exact update_self ..
    · split_ifs
      all_goals exact (update_of_ne hne ..).trans hp'
  · rw [await_buf]
    exact h.locks p' b' (await_call hcall hp')

theorem Queue.finish (h : Queue q s) {c : Controller Block} (hc : s.ide.finish = some c) :
    Queue q { s with ide := c } ∧ ∃ b rest, q = b :: rest ∧ c.cmd = none ∧
      c.disk = if (s.buf b).dirty then update s.ide.disk (s.buf b).addr.1
        (update (s.ide.disk (s.buf b).addr.1) (s.buf b).addr.2 (s.buf b).data) else s.ide.disk := by
  obtain ⟨cmd, hcmd⟩ := finish_busy hc
  obtain ⟨b, rest, rfl, hunder⟩ := h.underway (by rw [hcmd]; nofun)
  obtain ⟨c', hc', hfin, hdisk⟩ := hunder.finish
  obtain rfl := Option.some.inj (hc.symm.trans hc')
  refine ⟨⟨h.chain, h.nodup, h.owner, h.locks, h.flags, nofun, fun x hx => ?_⟩, b, rest, rfl, hfin.cmd, hdisk⟩
  obtain rfl : b = x := Option.some.inj hx
  exact .inr hfin

/-- The request `b` is answered. -/
def State.left (s : State Block nproc nbuf) (b : Fin nbuf) (link : Option (Fin nbuf) → Option (Fin nbuf))
    (c : Controller Block) (log : List (Event Block nproc nbuf)) : State Block nproc nbuf :=
  { s with
    link := link, ide := c, log := log
    buf := update s.buf b ((s.buf b).filled s.ide.inp)
    asleep := fun q => if s.call q = some b then false else s.asleep q }

theorem Queue.leave {link : Option (Fin nbuf) → Option (Fin nbuf)} {c : Controller Block} (h : Queue (b :: rest) s)
    (hchain : Chain link none rest) (hidle : rest = [] → c.cmd = none ∧ c.irq = false)
    (hhead : ∀ x ∈ rest.head?, Underway c (s.buf x)) (log : List (Event Block nproc nbuf)) :
    Queue rest (s.left b link c log) := by
  obtain ⟨hb, hnd⟩ := List.nodup_cons.mp h.nodup
  have hother : ∀ x ∈ rest, (s.left b link c log).buf x = s.buf x := by
    intro x hx
    have hxb : x ≠ b := fun hxb => hb (hxb ▸ hx)
    exact update_of_ne hxb ..
  refine ⟨hchain, hnd, fun x hx => h.owner x (List.mem_cons_of_mem b hx), fun p' x hp' => ?_, fun x hx => ?_, hidle,
    fun x hx => ?_⟩
  · have hlock := h.locks p' x hp'
    unfold State.left
    dsimp only
    rw [update_apply]
    split_ifs with hxb
    · rw [← hxb]
      exact hlock
    · exact hlock
  · rw [hother x hx]
    exact h.flags x (List.mem_cons_of_mem b hx)
  · rw [hother x (List.mem_of_mem_head? hx)]
    exact .inl (hhead x hx)

theorem Queue.ideintr_eq (h : Queue (b :: rest) s) (hfin : Finished s.ide (s.buf b)) :
    ∃ link c, Chain link none rest ∧ c.cmd = none ∧ c.irq = false ∧ c.disk = s.ide.disk ∧
      s.ideintr = rest.head?.elim (some (s.left b link c (.completed b :: s.log)))
        (s.left b link c (.completed b :: s.log)).idestart := by
  refine ⟨_, { s.ide with irq := false }, chain_pop h.chain, hfin.cmd, rfl, rfl, ?_⟩
  unfold State.ideintr State.ideintrErr
  dsimp only
  rw [h.chain.1]
  dsimp only
  rw [if_neg (by simp [hfin.cmd])]
  unfold State.wakeup
  simp only [and_true, update_self]
  cases rest with
  | nil =>
    rw [show s.link (some b) = none from h.chain.2]
    rfl
  | cons y rest =>
    rw [show s.link (some b) = some y from h.chain.2.1]
    rfl

theorem left_buf_second {y : Fin nbuf} (h : Queue (b :: y :: rest) s) (link : Option (Fin nbuf) → Option (Fin nbuf))
    (c : Controller Block) (log : List (Event Block nproc nbuf)) : (s.left b link c log).buf y = s.buf y := by
  have hy : y ≠ b := by
    rintro rfl
    exact (List.nodup_cons.mp h.nodup).1 List.mem_cons_self
  exact update_of_ne hy ..

theorem Queue.ideintr (h : Queue q s) (hirq : s.ide.irq = true) (hs : s.ideintr = some s') :
    ∃ b rest, q = b :: rest ∧ Finished s.ide (s.buf b) ∧ Queue rest s' ∧
      ∃ link c log, s' = s.left b link c log ∧ c.disk = s.ide.disk ∧ c.irq = false ∧
        (rest = [] ∧ log = .completed b :: s.log ∨
          ∃ x, rest.head? = some x ∧ log = .started x :: .completed b :: s.log) := by
  obtain ⟨b, rest, rfl, hfin⟩ := h.finished hirq
  obtain ⟨link, c, hchain, hcmd, hoff, hdisk, heq⟩ := h.ideintr_eq hfin
  rw [heq] at hs
  refine ⟨b, rest, rfl, hfin, ?_⟩
  cases rest with
  | nil =>
    cases hs
    exact ⟨h.leave hchain (fun _ => ⟨hcmd, hoff⟩) nofun _, link, c, _, rfl, hdisk, hoff, .inl ⟨rfl, rfl⟩⟩
  | cons y rest =>
    obtain ⟨c', hstart, hunder, hdisk'⟩ := idestart_eq (idestart_some hs) hcmd hoff
    obtain rfl := Option.some.inj (hstart.symm.trans hs)
    rw [left_buf_second h] at hunder
    refine ⟨h.leave hchain nofun (fun x hx => ?_) _, link, c', _, rfl, hdisk'.trans hdisk, hunder.irq,
      .inr ⟨y, rfl, rfl⟩⟩
    obtain rfl : y = x := Option.some.inj hx
    exact hunder

theorem Queue.ideintr_isSome (h : Queue q s) (hirq : s.ide.irq = true)
    (hblock : ∀ b ∈ q, (s.buf b).blockno < FSSIZE) : ∃ s', s.ideintr = some s' := by
  obtain ⟨b, rest, rfl, hfin⟩ := h.finished hirq
  obtain ⟨link, c, -, hcmd, hoff, -, heq⟩ := h.ideintr_eq hfin
  rw [heq]
  cases rest with
  | nil => exact ⟨_, rfl⟩
  | cons y rest =>
    have hy := left_buf_second h link c (.completed b :: s.log)
    obtain ⟨c', hstart, -⟩ := idestart_eq (s := s.left b link c (.completed b :: s.log)) (b := y)
      (by rw [hy]; exact hblock y (by simp)) hcmd hoff
    exact ⟨_, hstart⟩

end Xv6.Ide
